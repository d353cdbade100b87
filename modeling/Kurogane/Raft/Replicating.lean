import Kurogane.Raft.Progress

/-!
No request makes a leader panic that keeps its bookkeeping, and every request
lets it keep it. This relies on what is said in the leader's own term being said
of its own log, and on changes of membership that name nodes it tracks.
-/

namespace Kurogane.Raft.Node

variable {node node' : Node} {effects : List Effect} {peer : NodeId}

/-- A change of membership names only the leader itself and nodes it tracks. -/
def NamesTracked (node : Node) : Operation → Prop
  | .proposeConfigChange newVoters => node.role = .leader →
      ∀ voter ∈ newVoters, voter = node.id ∨ node.Tracked voter
  | _ => True

instance (node : Node) : DecidablePred node.NamesTracked := fun operation =>
  match operation with
  | .proposeConfigChange _ => inferInstanceAs (Decidable (_ → _))
  | .tick _ | .receive _ _ | .propose _ | .addLearner _ | .removeLearner _
  | .compact _ _ => inferInstanceAs (Decidable True)

/-- An election is won by majorities that can be counted. -/
def WinsCounted (node : Node) : Operation → Prop
  | .tick nextTimeout => node.role ≠ .leader →
      node.electionTimeout ≤ node.electionElapsed + 1 →
      node.currentConfig.isVoter node.id = true →
      (node.campaign nextTimeout).hasQuorum = true →
      node.currentConfig.Countable
  | .receive sender (.requestVoteResponse response) =>
      node.isMember sender = true → response.granted = true →
      response.term = node.currentTerm → node.role = .candidate →
      ({ node with
        votesGranted := node.votesGranted.insert sender } : Node).hasQuorum =
          true →
      node.currentConfig.Countable
  | _ => True

/-- What a leader relies on when it hears from others: no other leader speaks in
its own term, and a peer answers for no more than its log. -/
def HearsOwnTerm (node : Node) : Operation → Prop
  | .receive sender (.appendEntries request) => request.leaderId = sender →
      node.role = .leader → request.term ≠ node.currentTerm
  | .receive sender (.installSnapshot request) => request.leaderId = sender →
      node.role = .leader → request.term ≠ node.currentTerm
  | .receive sender (.appendEntriesResponse response) => node.role = .leader →
      response.term = node.currentTerm → sender ≠ node.id ∧
        (response.success = true → response.matchIndex ≤ node.lastLogIndex)
  | .receive sender (.installSnapshotResponse response) => node.role = .leader →
      response.term = node.currentTerm → sender ≠ node.id ∧
        response.lastIncludedIndex ≤ node.lastLogIndex
  | _ => True

/-- What it takes to serve a request without a panic, bookkeeping apart. -/
structure Ready (node : Node) (operation : Operation) : Prop where
  current : node.ConfigCurrent
  committed : node.commitIndex ≤ node.lastLogIndex
  hears : node.HearsOwnTerm operation

/-! ### Ticks -/

theorem Tracks.next_of_target (h : node.Tracks) (hpeer : peer ∈ node.replicationTargets) :
    ∃ next, node.nextIndex[peer]? = some next ∧ next ≤ node.lastLogIndex + 1 := by
  obtain ⟨next, hnext⟩ := Option.isSome_iff_exists.mp (h.targets peer hpeer).1
  exact ⟨next, hnext, (h.next peer next hnext).2⟩

theorem onLeaderTick_some (h : node.Tracks) :
    ∃ result, node.onLeaderTick = some result := by
  unfold onLeaderTick
  dsimp only
  split
  · exact ⟨_, rfl⟩
  · obtain ⟨sends, hsends⟩ := broadcastReplication_some
      { node with
        heartbeatElapsed := 0
        leaderContactElapsed := node.leaderContactElapsed + 1 }
      (fun peer hpeer => h.next_of_target hpeer)
    exact ⟨_, Option.bind_eq_some_iff.mpr ⟨sends, hsends, rfl⟩⟩

theorem onLeaderTick_tracks (h : node.Tracks)
    (htick : node.onLeaderTick = some (node', effects)) : node'.Tracks := by
  unfold onLeaderTick at htick
  dsimp only at htick
  split at htick
  · cases htick
    exact ⟨h.countable, h.targets, h.next, h.matched⟩
  · obtain ⟨sends, -, htick⟩ := Option.bind_eq_some_iff.mp htick
    cases htick
    exact ⟨h.countable, h.targets, h.next, h.matched⟩

theorem onTick_some {nextTimeout : Nat} (h : node.role = .leader → node.Tracks) :
    ∃ result, node.onTick nextTimeout = some result := by
  unfold onTick
  split
  · rename_i hrole
    exact onLeaderTick_some (h hrole)
  dsimp only
  split
  · exact ⟨_, rfl⟩
  unfold startElection
  split
  · exact ⟨_, rfl⟩
  dsimp only
  split
  · obtain ⟨leader, sends, hleader, -⟩ := becomeLeader_some
      (({ node with
        electionElapsed := node.electionElapsed + 1
        leaderContactElapsed := node.leaderContactElapsed + 1 } : Node).campaign
          nextTimeout)
    exact ⟨_, Option.bind_eq_some_iff.mpr ⟨_, hleader, rfl⟩⟩
  · exact ⟨_, rfl⟩

theorem onTick_tracks {nextTimeout : Nat} (h : node.role = .leader → node.Tracks)
    (hwins : node.WinsCounted (.tick nextTimeout))
    (htick : node.onTick nextTimeout = some (node', effects))
    (hrole : node'.role = .leader) : node'.Tracks := by
  unfold onTick at htick
  split at htick
  · rename_i hleader
    exact onLeaderTick_tracks (h hleader) htick
  rename_i hfollows
  dsimp only at htick
  split at htick
  · cases htick
    exact absurd hrole hfollows
  rename_i htimeout
  unfold startElection at htick
  split at htick
  · cases htick
    exact absurd hrole hfollows
  rename_i hvoter
  dsimp only at htick
  split at htick
  · rename_i hquorum
    obtain ⟨⟨leader, sends⟩, hleader, htick⟩ := Option.bind_eq_some_iff.mp htick
    cases htick
    have hcountable := hwins hfollows (Nat.not_lt.mp htimeout)
      (by simpa using hvoter) hquorum
    apply becomeLeader_tracks _ hleader
    exact hcountable
  · cases htick
    cases hrole

/-! ### Votes -/

theorem onRequestVote_leader {sender : NodeId} {request : RequestVote}
    (h : node.onRequestVote sender request = some (node', effects))
    (hrole : node'.role = .leader) : node' = node := by
  unfold onRequestVote at h
  split at h
  · cases h
    rfl
  split at h
  · cases h
    rfl
  rename_i hfollows
  split at h
  · cases h
    rfl
  cases h
  exfalso
  by_cases hlater : node.currentTerm < request.term
  · simp only [hlater, decide_true, ite_true] at hrole
    split at hrole <;> cases hrole
  · simp only [hlater, decide_false, Bool.false_eq_true, ite_false] at hrole
    split at hrole <;> exact hfollows hrole

theorem onRequestVote_some (node : Node) (sender : NodeId) (request : RequestVote) :
    ∃ result, node.onRequestVote sender request = some result := by
  unfold onRequestVote
  split
  · exact ⟨_, rfl⟩
  split
  · exact ⟨_, rfl⟩
  split <;> exact ⟨_, rfl⟩

theorem onRequestVoteResponse_some (node : Node) (sender : NodeId)
    (response : RequestVoteResponse) :
    ∃ result, node.onRequestVoteResponse sender response = some result := by
  unfold onRequestVoteResponse
  split
  · exact ⟨_, rfl⟩
  split
  · exact ⟨_, rfl⟩
  split
  · dsimp only
    split
    · obtain ⟨leader, sends, hleader, -⟩ := becomeLeader_some
        { node with votesGranted := node.votesGranted.insert sender }
      exact ⟨_, hleader⟩
    · exact ⟨_, rfl⟩
  · exact ⟨_, rfl⟩

theorem onRequestVoteResponse_tracks {sender : NodeId}
    {response : RequestVoteResponse} (h : node.role = .leader → node.Tracks)
    (hmember : node.isMember sender = true)
    (hwins : node.WinsCounted (.receive sender (.requestVoteResponse response)))
    (hstep : node.onRequestVoteResponse sender response = some (node', effects))
    (hrole : node'.role = .leader) : node'.Tracks := by
  unfold onRequestVoteResponse at hstep
  split at hstep
  · cases hstep
    cases hrole
  rename_i hnewer
  split at hstep
  · cases hstep
    exact h hrole
  rename_i hcurrent
  simp only [not_or, ne_eq, not_not] at hcurrent
  split at hstep
  · rename_i hgranted
    dsimp only at hstep
    split at hstep
    · rename_i hquorum
      have hcountable := hwins hmember hgranted (by omega) hcurrent.2 hquorum
      apply becomeLeader_tracks _ hstep
      exact hcountable
    · cases hstep
      rw [hcurrent.2] at hrole
      cases hrole
  · cases hstep
    exact h hrole

/-! ### Messages of a leader -/

theorem followLeader_leader {term : Nat}
    (hrole : (node.followLeader term).1.role = .leader) :
    node.role = .leader ∧ ¬ node.currentTerm < term := by
  unfold followLeader at hrole
  by_cases hlater : node.currentTerm < term
  · simp only [hlater, decide_true, ite_true] at hrole
    cases hrole
  · simp only [hlater, decide_false, Bool.false_eq_true, ite_false] at hrole
    split at hrole
    · cases hrole
    · exact ⟨hrole, hlater⟩

/-- A leader that stays one has refused the entries, unless they are those of
another leader of its term. -/
theorem onAppendEntries_leader {sender : NodeId} {request : AppendEntries}
    (hother : node.role = .leader → request.term ≠ node.currentTerm)
    (h : node.onAppendEntries sender request = some (node', effects))
    (hrole : node'.role = .leader) : node' = node := by
  unfold onAppendEntries at h
  split at h
  · cases h
    rfl
  rename_i hcurrent
  exfalso
  have hnever : (node.followLeader request.term).1.role ≠ .leader := by
    intro hfollow
    obtain ⟨hleader, hlater⟩ := followLeader_leader hfollow
    exact hother hleader (by omega)
  dsimp only at h
  split at h
  · cases h
    exact hnever hrole
  · obtain ⟨persistLog, -, h⟩ := Option.bind_eq_some_iff.mp h
    cases h
    have hmerged := mergeEntries_role request.entries
      (node.followLeader request.term).1 none (request.prevLogIndex + 1)
    rw [← hmerged] at hnever
    generalize (node.followLeader request.term).1.mergeEntries none
      (request.prevLogIndex + 1) request.entries = result at *
    unfold followCommit at hrole
    split at hrole <;> split at hrole <;> exact hnever hrole

/-- The slice a merge makes durable lies inside the merged log. -/
theorem persistChanged_some (last : Node) {merged : Node} {index : Nat}
    {entries : List LogEntry} {changed : Option Nat} (hindex : index ≤ node.lastLogIndex + 1)
    (hmerge : node.mergeEntries none index entries = (merged, changed))
    (hlog : last.log = merged.log) (hsnapshot : last.snapshot = node.snapshot) :
    ∃ effects, last.persistChanged changed = some effects := by
  have hnothing : node.Written node.log none := rfl
  obtain ⟨-, hwritten⟩ := mergeEntries_written node node rfl hnothing (by simp)
    hindex hmerge
  cases changed with
  | none => exact ⟨[], rfl⟩
  | some fromIndex =>
      obtain ⟨-, -, hslice, -⟩ := hwritten
      rw [← vecIndex_congr hsnapshot, ← hlog] at hslice
      exact ⟨_, Option.bind_eq_some_iff.mpr ⟨_, if_pos hslice, rfl⟩⟩

theorem onAppendEntries_some (node : Node) (sender : NodeId)
    (request : AppendEntries) :
    ∃ result, node.onAppendEntries sender request = some result := by
  unfold onAppendEntries
  split
  · exact ⟨_, rfl⟩
  generalize node.followLeader request.term = followed
  obtain ⟨follower, persistTerm⟩ := followed
  dsimp only
  split
  · exact ⟨_, rfl⟩
  rename_i hprev
  have hprev : request.prevLogIndex ≤ follower.lastLogIndex :=
    prevLogSatisfied_le (by simpa using hprev)
  generalize hmerge : follower.mergeEntries none (request.prevLogIndex + 1)
    request.entries = result
  obtain ⟨merged, changed⟩ := result
  have hsame := (mergeEntries_fields request.entries follower none
    (request.prevLogIndex + 1)).2.1
  rw [hmerge] at hsame
  dsimp only
  obtain ⟨persistLog, hpersist⟩ := persistChanged_some
    ((if changed.isSome = true then merged.recomputeConfig
      else merged).followCommit request.leaderCommit)
    (Nat.succ_le_succ hprev) hmerge
    (by unfold followCommit; split <;> split <;> rfl)
    (by unfold followCommit; split <;> split <;> exact hsame)
  exact ⟨_, Option.bind_eq_some_iff.mpr ⟨persistLog, hpersist, rfl⟩⟩

theorem onInstallSnapshot_leader {sender : NodeId} {request : InstallSnapshot}
    (hother : node.role = .leader → request.term ≠ node.currentTerm)
    (h : node.onInstallSnapshot sender request = some (node', effects))
    (hrole : node'.role = .leader) : node' = node := by
  unfold onInstallSnapshot at h
  split at h
  · cases h
    rfl
  rename_i hcurrent
  exfalso
  have hnever : (node.followLeader request.term).1.role ≠ .leader := by
    intro hfollow
    obtain ⟨hleader, hlater⟩ := followLeader_leader hfollow
    exact hother hleader (by omega)
  dsimp only at h
  split at h <;> cases h <;> exact hnever hrole

theorem onInstallSnapshot_some (node : Node) (sender : NodeId)
    (request : InstallSnapshot) :
    ∃ result, node.onInstallSnapshot sender request = some result := by
  unfold onInstallSnapshot
  split
  · exact ⟨_, rfl⟩
  · dsimp only
    split <;> exact ⟨_, rfl⟩

/-! ### Responses -/

theorem continueReplication_some
    (h : node.role = .leader → ∃ next, node.nextIndex[peer]? = some next) :
    ∃ effects, node.continueReplication peer = some effects := by
  unfold continueReplication
  split
  · rename_i hrole
    obtain ⟨next, hnext⟩ := h hrole
    rw [hnext, Option.bind_eq_bind, Option.bind_some]
    split
    · rename_i hle
      obtain ⟨effect, heffect⟩ := replicateTo_some hnext (Nat.le_succ_of_le hle)
      exact ⟨_, Option.bind_eq_some_iff.mpr ⟨effect, heffect, rfl⟩⟩
    · exact ⟨_, rfl⟩
  · exact ⟨_, rfl⟩

/-- Progress of a tracked peer is counted and continued without a panic. -/
theorem progress_some (h : node.Tracks) {count : Nat}
    (hcount : count ≤ node.lastLogIndex) :
    ∃ next first more,
      (node.trackProgress peer count).advanceCommitIndex = some (next, first) ∧
        next.continueReplication peer = some more := by
  have htracks : (node.trackProgress peer count).Tracks := h.trackProgress hcount
  obtain ⟨⟨next, first⟩, hadvance⟩ := advanceCommitIndex_some htracks.countable
  obtain ⟨more, hmore⟩ : ∃ more, next.continueReplication peer = some more := by
    apply continueReplication_some
    intro hrole
    rw [(advanceCommitIndex_carries hadvance hrole).next]
    exact ⟨count + 1, Std.ExtTreeMap.getElem?_insert_self⟩
  exact ⟨next, first, more, hadvance, hmore⟩

theorem progress_tracks (h : node.Tracks) {count : Nat} {first : List Effect}
    (hcount : count ≤ node.lastLogIndex)
    (hadvance : (node.trackProgress peer count).advanceCommitIndex =
      some (node', first))
    (hrole : node'.role = .leader) : node'.Tracks :=
  (advanceCommitIndex_carries hadvance hrole).tracks (h.trackProgress hcount)

theorem onAppendEntriesResponse_some {sender : NodeId}
    {response : AppendEntriesResponse} (h : node.role = .leader → node.Tracks)
    (hmember : node.isMember sender = true)
    (hhears : node.HearsOwnTerm (.receive sender (.appendEntriesResponse response))) :
    ∃ result, node.onAppendEntriesResponse sender response = some result := by
  unfold onAppendEntriesResponse
  split
  · exact ⟨_, rfl⟩
  rename_i hnewer
  split
  · exact ⟨_, rfl⟩
  rename_i hcurrent
  simp only [not_or, ne_eq, not_not] at hcurrent
  have htracks := h hcurrent.2
  obtain ⟨hsender, hbound⟩ := hhears hcurrent.2 (by omega)
  obtain ⟨hnext, hmatch⟩ := htracks.of_member hmember hsender
  split
  · rename_i hsuccess
    obtain ⟨count, hcount⟩ := Option.isSome_iff_exists.mp hmatch
    obtain ⟨next, first, more, hadvance, hmore⟩ := progress_some htracks
      (max_le (htracks.matched sender count hcount) (hbound hsuccess))
    exact ⟨_, Option.bind_eq_some_iff.mpr ⟨count, hcount,
      Option.bind_eq_some_iff.mpr ⟨_, hadvance,
        Option.bind_eq_some_iff.mpr ⟨more, hmore, rfl⟩⟩⟩⟩
  · obtain ⟨next, hnext⟩ := Option.isSome_iff_exists.mp hnext
    have hrest : ∃ more, ({ node with
        nextIndex := node.nextIndex.insert sender (max (next - 1) 1) } :
          Node).continueReplication sender = some more :=
      continueReplication_some
        (fun _ => ⟨_, Std.ExtTreeMap.getElem?_insert_self⟩)
    obtain ⟨more, hmore⟩ := hrest
    exact ⟨_, Option.bind_eq_some_iff.mpr ⟨next, hnext,
      Option.bind_eq_some_iff.mpr ⟨more, hmore, rfl⟩⟩⟩

theorem onAppendEntriesResponse_tracks {sender : NodeId}
    {response : AppendEntriesResponse} (h : node.role = .leader → node.Tracks)
    (hhears : node.HearsOwnTerm (.receive sender (.appendEntriesResponse response)))
    (hstep : node.onAppendEntriesResponse sender response = some (node', effects))
    (hrole : node'.role = .leader) : node'.Tracks := by
  unfold onAppendEntriesResponse at hstep
  split at hstep
  · cases hstep
    cases hrole
  rename_i hnewer
  split at hstep
  · cases hstep
    exact h hrole
  rename_i hcurrent
  simp only [not_or, ne_eq, not_not] at hcurrent
  have htracks := h hcurrent.2
  have hbound := (hhears hcurrent.2 (by omega)).2
  split at hstep
  · rename_i hsuccess
    obtain ⟨count, hcount, hstep⟩ := Option.bind_eq_some_iff.mp hstep
    obtain ⟨⟨next, first⟩, hadvance, hstep⟩ := Option.bind_eq_some_iff.mp hstep
    obtain ⟨more, -, hstep⟩ := Option.bind_eq_some_iff.mp hstep
    cases hstep
    exact progress_tracks htracks
      (max_le (htracks.matched sender count hcount) (hbound hsuccess)) hadvance hrole
  · obtain ⟨next, hnext, hstep⟩ := Option.bind_eq_some_iff.mp hstep
    obtain ⟨more, -, hstep⟩ := Option.bind_eq_some_iff.mp hstep
    cases hstep
    exact htracks.backOff hnext

theorem onInstallSnapshotResponse_some {sender : NodeId}
    {response : InstallSnapshotResponse} (h : node.role = .leader → node.Tracks)
    (hmember : node.isMember sender = true)
    (hhears : node.HearsOwnTerm (.receive sender (.installSnapshotResponse response))) :
    ∃ result, node.onInstallSnapshotResponse sender response = some result := by
  unfold onInstallSnapshotResponse
  split
  · exact ⟨_, rfl⟩
  rename_i hnewer
  split
  · exact ⟨_, rfl⟩
  rename_i hcurrent
  simp only [not_or, ne_eq, not_not] at hcurrent
  have htracks := h hcurrent.2
  obtain ⟨hsender, hbound⟩ := hhears hcurrent.2 (by omega)
  obtain ⟨count, hcount⟩ := Option.isSome_iff_exists.mp
    (htracks.of_member hmember hsender).2
  obtain ⟨next, first, more, hadvance, hmore⟩ := progress_some htracks
    (max_le (htracks.matched sender count hcount) hbound)
  exact ⟨_, Option.bind_eq_some_iff.mpr ⟨count, hcount,
    Option.bind_eq_some_iff.mpr ⟨_, hadvance,
      Option.bind_eq_some_iff.mpr ⟨more, hmore, rfl⟩⟩⟩⟩

theorem onInstallSnapshotResponse_tracks {sender : NodeId}
    {response : InstallSnapshotResponse} (h : node.role = .leader → node.Tracks)
    (hhears : node.HearsOwnTerm (.receive sender (.installSnapshotResponse response)))
    (hstep : node.onInstallSnapshotResponse sender response = some (node', effects))
    (hrole : node'.role = .leader) : node'.Tracks := by
  unfold onInstallSnapshotResponse at hstep
  split at hstep
  · cases hstep
    cases hrole
  rename_i hnewer
  split at hstep
  · cases hstep
    exact h hrole
  rename_i hcurrent
  simp only [not_or, ne_eq, not_not] at hcurrent
  have htracks := h hcurrent.2
  have hbound := (hhears hcurrent.2 (by omega)).2
  obtain ⟨count, hcount, hstep⟩ := Option.bind_eq_some_iff.mp hstep
  obtain ⟨⟨next, first⟩, hadvance, hstep⟩ := Option.bind_eq_some_iff.mp hstep
  obtain ⟨more, -, hstep⟩ := Option.bind_eq_some_iff.mp hstep
  cases hstep
  exact progress_tracks htracks
    (max_le (htracks.matched sender count hcount) hbound) hadvance hrole

/-! ### Requests of the owner -/

theorem propose_some (h : node.role = .leader → node.Tracks)
    (hcurrent : node.ConfigCurrent) (command : Bytes) :
    ∃ result, node.propose command = some result := by
  unfold propose
  split
  · exact ⟨_, rfl⟩
  rename_i hrole
  have htracks := h (not_not.mp hrole)
  have hcountable : (node.push
      ⟨node.currentTerm, .command command⟩).recomputeConfig.currentConfig.Countable := by
    rw [currentConfig_push_command hcurrent]
    exact htracks.countable
  obtain ⟨appended, happended⟩ := appendOwn_some hcountable
  exact ⟨_, Option.bind_eq_some_iff.mpr ⟨appended, happended, rfl⟩⟩

theorem propose_tracks {command : Bytes} {index : Nat}
    (h : node.role = .leader → node.Tracks) (hcurrent : node.ConfigCurrent)
    (hpropose : node.propose command = some (some (node', index, effects)))
    (hrole : node'.role = .leader) : node'.Tracks := by
  unfold propose at hpropose
  split at hpropose
  · cases hpropose
  rename_i hleader
  have htracks := h (not_not.mp hleader)
  have hconfig := currentConfig_push_command hcurrent node.currentTerm command
  obtain ⟨appended, happended, hpropose⟩ := Option.bind_eq_some_iff.mp hpropose
  cases hpropose
  apply appendOwn_tracks htracks _ _ happended hrole
  · rw [hconfig]
    exact htracks.countable
  · intro peer hpeer
    rw [mem_replicationTargets, hconfig] at hpeer
    exact htracks.targets peer (mem_replicationTargets.mpr hpeer)

/-- What a leader is once it has let go of the learners it promotes. -/
theorem Tracks.dropPromoted (h : node.Tracks) (newVoters : List NodeId) :
    (node.dropPromoted newVoters).1.Tracks := by
  refine h.mono h.countable (fun peer hpeer => ?_) rfl rfl le_rfl
  rw [mem_replicationTargets] at hpeer
  obtain ⟨hmember, hne⟩ := hpeer
  apply h.targets peer
  rw [mem_replicationTargets]
  refine ⟨hmember.imp_right (fun hlearner => ?_), hne⟩
  exact (Std.ExtTreeSet.mem_filter.mp hlearner).1

theorem jointEntry_countable (h : node.Tracks) {newVoters : List NodeId}
    (hne : newVoters ≠ []) :
    (node.push (node.jointEntry newVoters)).recomputeConfig.currentConfig.Countable := by
  rw [node.currentConfig_push rfl]
  exact ⟨hne, fun hnil => h.countable.1 (Option.some.inj hnil)⟩

/-- The joint configuration adds only targets that are tracked. -/
theorem jointEntry_targets (h : node.Tracks) {newVoters : List NodeId}
    (hnames : ∀ voter ∈ newVoters, voter = node.id ∨ node.Tracked voter) :
    ∀ peer ∈ (node.push (node.jointEntry newVoters)).recomputeConfig.replicationTargets,
      node.Tracked peer := by
  intro peer hpeer
  rw [mem_replicationTargets, node.currentConfig_push rfl] at hpeer
  obtain ⟨hmember, hne⟩ := hpeer
  have htarget : node.currentConfig.isVoter peer = true ∨ peer ∈ node.learners →
      node.Tracked peer :=
    fun hmember => h.targets peer (mem_replicationTargets.mpr ⟨hmember, hne⟩)
  rcases hmember with hvoter | hlearner
  · simp only [ClusterConfig.isVoter, Option.getD_some, Bool.or_eq_true,
      List.contains_iff_mem] at hvoter
    rcases hvoter with hnew | hold
    · exact (hnames peer hnew).resolve_left hne
    · apply htarget
      exact Or.inl (by simp [ClusterConfig.isVoter, hold])
  · exact htarget (Or.inr hlearner)

theorem proposeConfigChange_some (h : node.role = .leader → node.Tracks)
    (newVoters : List NodeId) :
    ∃ result, node.proposeConfigChange newVoters = some result := by
  unfold proposeConfigChange
  split
  · exact ⟨_, rfl⟩
  rename_i hserves
  simp only [not_or, ne_eq, not_not, List.isEmpty_iff] at hserves
  have hdropped := (h hserves.1).dropPromoted newVoters
  generalize node.dropPromoted newVoters = dropped at *
  obtain ⟨remaining, persist⟩ := dropped
  obtain ⟨⟨last, index, effects⟩, happended⟩ :=
    appendOwn_some (jointEntry_countable hdropped hserves.2)
  exact ⟨_, Option.bind_eq_some_iff.mpr ⟨_, happended, rfl⟩⟩

theorem proposeConfigChange_tracks {newVoters : List NodeId} {index : Nat}
    (h : node.role = .leader → node.Tracks)
    (hnames : node.NamesTracked (.proposeConfigChange newVoters))
    (hpropose : node.proposeConfigChange newVoters =
      some (some (node', index, effects)))
    (hrole : node'.role = .leader) : node'.Tracks := by
  unfold proposeConfigChange at hpropose
  split at hpropose
  · cases hpropose
  rename_i hserves
  simp only [not_or, ne_eq, not_not, List.isEmpty_iff] at hserves
  have hdropped := (h hserves.1).dropPromoted newVoters
  have htargets := jointEntry_targets hdropped (hnames hserves.1)
  generalize node.dropPromoted newVoters = dropped at *
  obtain ⟨remaining, persist⟩ := dropped
  obtain ⟨⟨last, index', rest⟩, happended, hpropose⟩ :=
    Option.bind_eq_some_iff.mp hpropose
  cases hpropose
  exact appendOwn_tracks hdropped (jointEntry_countable hdropped hserves.2)
    htargets happended hrole

/-- The latest configuration of a log, read in two parts. -/
theorem latestConfigurationIn_append (config : ClusterConfig)
    (first second : List LogEntry) (boundary middle : Nat) :
    ((latestConfigurationIn (first ++ second) boundary).map Prod.fst).getD config =
      ((latestConfigurationIn second middle).map Prod.fst).getD
        (((latestConfigurationIn first boundary).map Prod.fst).getD config) := by
  induction second using List.reverseRecOn with
  | nil => simp [latestConfigurationIn]
  | append_singleton second entry ih =>
      unfold latestConfigurationIn at ih ⊢
      rw [← List.append_assoc]
      cases hpayload : entry.payload with
      | command bytes => simpa [List.zipIdx_append, hpayload] using ih
      | configuration found => simp [List.zipIdx_append, hpayload]

theorem ConfigCurrent.config (h : node.ConfigCurrent) :
    node.currentConfig = ((latestConfigurationIn node.log
      node.snapshot.lastIncludedIndex).map Prod.fst).getD node.snapshotConfig := by
  have hfst : node.currentConfig = _ := congrArg Prod.fst h
  rw [hfst]
  cases latestConfigurationIn node.log node.snapshot.lastIncludedIndex <;> rfl

/-- Compaction does not change who is in force. -/
theorem compact_currentConfig {upToIndex : Nat} {snapshotData : Bytes}
    (hcurrent : node.ConfigCurrent)
    (hcompact : node.compact upToIndex snapshotData = some (.ok (node', effects))) :
    node'.currentConfig = node.currentConfig := by
  rcases compact_cases hcompact with ⟨-, rfl, -⟩ |
    ⟨term, config, log, -, -, -, rfl, rfl, hnode', -⟩
  · rfl
  have hcurrent' : node'.ConfigCurrent := by
    rw [hnode']
    exact configCurrent_recomputeConfig _
  rw [hcurrent'.config, hcurrent.config, hnode']
  conv_rhs => rw [← List.take_append_drop
    (upToIndex - node.snapshot.lastIncludedIndex) node.log]
  exact (latestConfigurationIn_append _ _ _ _ _).symm

/-- Compaction does not shorten the log. -/
theorem compact_tracks {upToIndex : Nat} {snapshotData : Bytes} (h : node.Tracks)
    (hcurrent : node.ConfigCurrent)
    (hcompact : node.compact upToIndex snapshotData = some (.ok (node', effects))) :
    node'.Tracks := by
  have hconfig := compact_currentConfig hcurrent hcompact
  rcases compact_cases hcompact with ⟨-, rfl, -⟩ |
    ⟨term, config, log, habove, -, hterm, rfl, rfl, hnode', -⟩
  · exact h
  have hlast := (termAt_range hterm).2.2
  apply h.mono
  · rw [hconfig]
    exact h.countable
  · intro peer hpeer
    rw [mem_replicationTargets, hconfig, hnode'] at hpeer
    exact h.targets peer (mem_replicationTargets.mpr hpeer)
  · rw [hnode']
    rfl
  · rw [hnode']
    rfl
  · rw [hnode']
    simp only [lastLogIndex, recomputeConfig, List.length_drop] at hlast ⊢
    omega

theorem compact_some (upToIndex : Nat)
    (hcommitted : node.commitIndex ≤ node.lastLogIndex)
    (snapshotData : Bytes) :
    ∃ result, node.compact upToIndex snapshotData = some result := by
  unfold compact
  split
  · exact ⟨_, rfl⟩
  rename_i habove
  split
  · exact ⟨_, rfl⟩
  rename_i hlow
  obtain ⟨term, hterm⟩ : ∃ term, node.termAt upToIndex = some term := by
    have hslice : node.vecIndex upToIndex < node.log.length := by
      simp only [vecIndex, lastLogIndex] at hcommitted ⊢
      omega
    unfold termAt entryAt
    rw [if_neg (by omega), if_neg (by omega), if_neg (by omega), if_neg (by omega),
      List.getElem?_eq_getElem hslice]
    exact ⟨_, rfl⟩
  rw [hterm, Option.bind_eq_bind, Option.bind_some]
  dsimp only
  refine ⟨_, Option.bind_eq_some_iff.mpr ⟨_, if_pos ?_, rfl⟩⟩
  simp [vecIndex, recomputeConfig]

/-! ### All requests -/

theorem receive_some {sender : NodeId} {message : Message}
    (h : node.role = .leader → node.Tracks)
    (hhears : node.HearsOwnTerm (.receive sender message)) :
    ∃ result, node.step (.step sender message) = some result := by
  cases message with
  | requestVote request =>
      simp only [step]
      split
      · exact ⟨_, rfl⟩
      split
      · exact ⟨_, rfl⟩
      · exact node.onRequestVote_some sender request
  | requestVoteResponse response =>
      simp only [step]
      split
      · exact ⟨_, rfl⟩
      · exact node.onRequestVoteResponse_some sender response
  | appendEntries request =>
      simp only [step]
      split
      · exact ⟨_, rfl⟩
      · exact node.onAppendEntries_some sender request
  | appendEntriesResponse response =>
      simp only [step]
      split
      · exact ⟨_, rfl⟩
      · rename_i hmember
        exact onAppendEntriesResponse_some h (by simpa using hmember) hhears
  | installSnapshot request =>
      simp only [step]
      split
      · exact ⟨_, rfl⟩
      · exact node.onInstallSnapshot_some sender request
  | installSnapshotResponse response =>
      simp only [step]
      split
      · exact ⟨_, rfl⟩
      · rename_i hmember
        exact onInstallSnapshotResponse_some h (by simpa using hmember) hhears

theorem receive_tracks {sender : NodeId} {message : Message}
    (h : node.role = .leader → node.Tracks)
    (hwins : node.WinsCounted (.receive sender message))
    (hhears : node.HearsOwnTerm (.receive sender message))
    (hstep : node.step (.step sender message) = some (node', effects))
    (hrole : node'.role = .leader) : node'.Tracks := by
  have hsame : node' = node → node'.Tracks := by
    rintro rfl
    exact h hrole
  have hignored : some (node, []) = some (node', effects) → node'.Tracks := by
    intro heq
    cases heq
    exact h hrole
  cases message with
  | requestVote request =>
      simp only [step] at hstep
      split at hstep
      · exact hignored hstep
      split at hstep
      · exact hignored hstep
      · exact hsame (onRequestVote_leader hstep hrole)
  | requestVoteResponse response =>
      simp only [step] at hstep
      split at hstep
      · exact hignored hstep
      · rename_i hmember
        exact onRequestVoteResponse_tracks h (by simpa using hmember) hwins
          hstep hrole
  | appendEntries request =>
      simp only [step] at hstep
      split at hstep
      · exact hignored hstep
      · rename_i hsender
        exact hsame (onAppendEntries_leader (hhears (not_not.mp hsender)) hstep
          hrole)
  | appendEntriesResponse response =>
      simp only [step] at hstep
      split at hstep
      · exact hignored hstep
      · exact onAppendEntriesResponse_tracks h hhears hstep hrole
  | installSnapshot request =>
      simp only [step] at hstep
      split at hstep
      · exact hignored hstep
      · rename_i hsender
        exact hsame (onInstallSnapshot_leader (hhears (not_not.mp hsender)) hstep
          hrole)
  | installSnapshotResponse response =>
      simp only [step] at hstep
      split at hstep
      · exact hignored hstep
      · exact onInstallSnapshotResponse_tracks h hhears hstep hrole

/-- A node that is ready for a request serves it. -/
theorem perform_some {operation : Operation} (h : node.role = .leader → node.Tracks)
    (hready : node.Ready operation) : ∃ result, node.perform operation = some result := by
  cases operation with
  | tick nextTimeout => exact onTick_some h
  | receive sender message => exact receive_some h hready.hears
  | propose command =>
      obtain ⟨answer, hanswer⟩ := propose_some h hready.current command
      rcases answer with _ | ⟨last, index, effects⟩ <;>
        exact ⟨_, Option.bind_eq_some_iff.mpr ⟨_, hanswer, rfl⟩⟩
  | proposeConfigChange newVoters =>
      obtain ⟨answer, hanswer⟩ := proposeConfigChange_some h newVoters
      rcases answer with _ | ⟨last, index, effects⟩ <;>
        exact ⟨_, Option.bind_eq_some_iff.mpr ⟨_, hanswer, rfl⟩⟩
  | addLearner id => exact ⟨_, rfl⟩
  | removeLearner id => exact ⟨_, rfl⟩
  | compact upToIndex snapshotData =>
      obtain ⟨answer, hanswer⟩ :=
        compact_some upToIndex hready.committed snapshotData
      rcases answer with error | result <;>
        exact ⟨_, Option.bind_eq_some_iff.mpr ⟨_, hanswer, rfl⟩⟩

/-- A leader keeps track of its targets, whatever request it serves. -/
theorem perform_tracks {operation : Operation} (h : node.role = .leader → node.Tracks)
    (hready : node.Ready operation) (hnames : node.NamesTracked operation)
    (hwins : node.WinsCounted operation)
    (hperform : node.perform operation = some (node', effects))
    (hrole : node'.role = .leader) : node'.Tracks := by
  cases operation with
  | tick nextTimeout => exact onTick_tracks h hwins hperform hrole
  | receive sender message => exact receive_tracks h hwins hready.hears hperform hrole
  | propose command =>
      obtain ⟨answer, hanswer, hperform⟩ := Option.bind_eq_some_iff.mp hperform
      rcases answer with _ | ⟨last, index, rest⟩
      · cases hperform
        exact h hrole
      · cases hperform
        exact propose_tracks h hready.current hanswer hrole
  | proposeConfigChange newVoters =>
      obtain ⟨answer, hanswer, hperform⟩ := Option.bind_eq_some_iff.mp hperform
      rcases answer with _ | ⟨last, index, rest⟩
      · cases hperform
        exact h hrole
      · cases hperform
        exact proposeConfigChange_tracks h hnames hanswer hrole
  | addLearner id =>
      obtain rfl := congrArg Prod.fst (Option.some.inj hperform)
      have hleader : node.role = .leader := by
        unfold addLearner at hrole
        split at hrole <;> exact hrole
      exact (h hleader).addLearner id
  | removeLearner id =>
      obtain rfl := congrArg Prod.fst (Option.some.inj hperform)
      have hleader : node.role = .leader := by
        unfold removeLearner at hrole
        split at hrole <;> exact hrole
      exact (h hleader).removeLearner id
  | compact upToIndex snapshotData =>
      obtain ⟨answer, hanswer, hperform⟩ := Option.bind_eq_some_iff.mp hperform
      rcases answer with _ | ⟨last, rest⟩
      · cases hperform
        exact h hrole
      · cases hperform
        have hleader : node.role = .leader := by
          rcases compact_cases hanswer with ⟨-, rfl, -⟩ |
            ⟨term, config, log, -, -, -, -, -, rfl, -⟩ <;> exact hrole
        exact compact_tracks (h hleader) hready.current hanswer

end Kurogane.Raft.Node
