import Kurogane.Raft.Merging

/-!
Where the commit index may go, whatever the peers say. A request leaves it where
it was or puts it inside the log, so that what it newly commits is there to be
applied; a snapshot that is installed takes it to the boundary at least.
-/

namespace Kurogane.Raft.Node

variable {node node' : Node} {effects : List Effect}

/-- The commit index has not moved, or lies inside the log. -/
def CommitsInside (node node' : Node) : Prop :=
  node'.commitIndex = node.commitIndex ∨ node'.commitIndex ≤ node'.lastLogIndex

theorem commitTo_inside (node : Node) (candidate : Nat) :
    node.CommitsInside (node.commitTo candidate) := by
  unfold commitTo
  split
  · rename_i hraised
    exact Or.inr (termAt_le_lastLogIndex hraised.2)
  · exact Or.inl rfl

theorem retireIfExcluded_last (node : Node) :
    node.retireIfExcluded.lastLogIndex = node.lastLogIndex := by
  unfold retireIfExcluded
  split <;> rfl

theorem advanceCommitIndex_inside
    (h : node.advanceCommitIndex = some (node', effects)) :
    node.CommitsInside node' := by
  obtain ⟨candidate, -, ⟨-, rfl, -⟩ | ⟨-, last, rest, hrest, rfl, -⟩⟩ :=
    advanceCommitIndex_cases h
  · unfold CommitsInside
    rw [(retireIfExcluded_keeps _).2.2.2.2.1, retireIfExcluded_last]
    exact node.commitTo_inside candidate
  · obtain ⟨candidate', -, rfl, -⟩ := advanceCommitIndex_plain
      (by rw [recomputeConfig_push_followUp]) hrest
    unfold CommitsInside
    rw [(retireIfExcluded_keeps _).2.2.2.2.1, (retireIfExcluded_keeps _).2.2.2.2.1,
      retireIfExcluded_last, retireIfExcluded_last]
    have hfirst := node.commitTo_inside candidate
    unfold CommitsInside at hfirst
    generalize node.commitTo candidate = joint at *
    have hcommit : (joint.push joint.followUp).recomputeConfig.commitIndex =
        joint.commitIndex := rfl
    have hpushed : (joint.push joint.followUp).recomputeConfig.lastLogIndex =
        joint.lastLogIndex + 1 := by
      simp [lastLogIndex, recomputeConfig, push, Nat.add_assoc]
    have hsecond := (joint.push joint.followUp).recomputeConfig.commitTo_inside candidate'
    have hlast : ((joint.push joint.followUp).recomputeConfig.commitTo
        candidate').lastLogIndex = joint.lastLogIndex + 1 := by
      obtain ⟨-, -, -, -, hlog, hsnapshot⟩ :=
        (joint.push joint.followUp).recomputeConfig.commitTo_keeps candidate'
      unfold lastLogIndex at hpushed ⊢
      rw [hlog, hsnapshot]
      exact hpushed
    rcases hsecond with hsame | hinside
    · rw [hsame, hcommit, hlast]
      omega
    · exact Or.inr hinside

theorem appendOwn_inside {entry : LogEntry} {index : Nat}
    (h : node.appendOwn entry = some (node', index, effects)) :
    node.CommitsInside node' := by
  obtain ⟨⟨last, rest⟩, hadvance, h⟩ := Option.bind_eq_some_iff.mp h
  cases h
  have hinside := advanceCommitIndex_inside hadvance
  exact hinside

theorem propose_inside {command : Bytes} {index : Nat}
    (h : node.propose command = some (some (node', index, effects))) :
    node.CommitsInside node' := by
  unfold propose at h
  split at h
  · cases h
  · obtain ⟨appended, happended, h⟩ := Option.bind_eq_some_iff.mp h
    cases h
    exact appendOwn_inside happended

theorem proposeConfigChange_inside {newVoters : List NodeId} {index : Nat}
    (h : node.proposeConfigChange newVoters = some (some (node', index, effects))) :
    node.CommitsInside node' := by
  unfold proposeConfigChange at h
  split at h
  · cases h
  have hcommit : (node.dropPromoted newVoters).1.commitIndex = node.commitIndex := rfl
  generalize node.dropPromoted newVoters = dropped at *
  obtain ⟨remaining, persist⟩ := dropped
  obtain ⟨⟨last, index', rest⟩, happended, h⟩ := Option.bind_eq_some_iff.mp h
  cases h
  have hinside := appendOwn_inside happended
  unfold CommitsInside at hinside ⊢
  rwa [hcommit] at hinside

/-! ### Events -/

theorem onTick_commitIndex {nextTimeout : Nat}
    (h : node.onTick nextTimeout = some (node', effects)) :
    node'.commitIndex = node.commitIndex := by
  unfold onTick at h
  split at h
  · unfold onLeaderTick at h
    dsimp only at h
    split at h
    · cases h
      rfl
    · obtain ⟨sends, -, h⟩ := Option.bind_eq_some_iff.mp h
      cases h
      rfl
  · dsimp only at h
    split at h
    · cases h
      rfl
    · unfold startElection at h
      split at h
      · cases h
        rfl
      · dsimp only at h
        split at h
        · obtain ⟨⟨leader, sends⟩, hleader, h⟩ := Option.bind_eq_some_iff.mp h
          obtain ⟨_, -, hleader⟩ := Option.bind_eq_some_iff.mp hleader
          cases hleader
          cases h
          rfl
        · cases h
          rfl

theorem onRequestVote_commitIndex {sender : NodeId} {request : RequestVote}
    (h : node.onRequestVote sender request = some (node', effects)) :
    node'.commitIndex = node.commitIndex := by
  unfold onRequestVote at h
  split at h
  · cases h
    rfl
  split at h
  · cases h
    rfl
  split at h
  · cases h
    rfl
  cases h
  by_cases hdown : node.currentTerm < request.term
  · simp only [hdown, decide_true, ite_true]
    split <;> rfl
  · simp only [hdown, decide_false, Bool.false_eq_true, ite_false]
    split <;> rfl

theorem onRequestVoteResponse_commitIndex {sender : NodeId}
    {response : RequestVoteResponse}
    (h : node.onRequestVoteResponse sender response = some (node', effects)) :
    node'.commitIndex = node.commitIndex := by
  unfold onRequestVoteResponse at h
  split at h
  · cases h
    rfl
  split at h
  · cases h
    rfl
  split at h
  · dsimp only at h
    split at h
    · obtain ⟨_, -, h⟩ := Option.bind_eq_some_iff.mp h
      cases h
      rfl
    · cases h
      rfl
  · cases h
    rfl

theorem onAppendEntries_inside {sender : NodeId} {request : AppendEntries}
    (h : node.onAppendEntries sender request = some (node', effects)) :
    node.CommitsInside node' := by
  obtain ⟨-, -, -, -, hcommit, -⟩ := node.followLeader_log request.term
  rcases Nat.lt_or_ge request.term node.currentTerm with hstale | hcurrent
  · rw [onAppendEntries_stale hstale] at h
    cases h
    exact Or.inl rfl
  cases hprev : node.prevLogSatisfied request with
  | false =>
      rw [onAppendEntries_rejects hcurrent hprev] at h
      cases h
      exact Or.inl hcommit
  | true =>
      rw [onAppendEntries_accepts hcurrent hprev] at h
      cases h
      generalize node.firstNew (request.prevLogIndex + 1) request.entries = found
      have hadopted : ((node.followLeader request.term).1.adopt found).commitIndex =
          node.commitIndex := (adopt_commitIndex _ found).trans hcommit
      unfold followCommit CommitsInside
      split
      · exact Or.inr (Nat.min_le_right _ _)
      · exact Or.inl hadopted

/-- A snapshot is taken over, with its boundary and its bytes. -/
inductive Installs (node node' : Node) : Event → Prop
  | mk {sender : NodeId} {request : InstallSnapshot} :
      node'.snapshot.lastIncludedIndex = request.lastIncludedIndex →
      node'.snapshotData = request.data →
      node'.commitIndex = max node.commitIndex request.lastIncludedIndex →
      Installs node node' (.step sender (.installSnapshot request))

theorem onInstallSnapshot_installs {sender : NodeId} {request : InstallSnapshot}
    (h : node.onInstallSnapshot sender request = some (node', effects)) :
    (node'.snapshot = node.snapshot ∧ node'.commitIndex = node.commitIndex) ∨
      node.Installs node' (.step sender (.installSnapshot request)) := by
  obtain ⟨-, hsnapshot, -, -, hcommit, -⟩ := node.followLeader_log request.term
  unfold onInstallSnapshot at h
  split at h
  · cases h
    exact Or.inl ⟨rfl, rfl⟩
  dsimp only at h
  split at h
  · cases h
    exact Or.inl ⟨hsnapshot, hcommit⟩
  · cases h
    refine Or.inr (.mk rfl rfl ?_)
    rw [← hcommit]
    rfl

/-- One event: the boundary stays and nothing is committed that is not there, or a
snapshot has been installed. -/
theorem step_inside {event : Event} (h : node.step event = some (node', effects)) :
    (node'.snapshot = node.snapshot ∧ node.CommitsInside node') ∨
      node.Installs node' event := by
  cases event with
  | tick nextTimeout =>
      have htick : node.onTick nextTimeout = some (node', effects) := h
      exact Or.inl ⟨(onTick_appends htick).snapshot, Or.inl (onTick_commitIndex htick)⟩
  | step sender message =>
      have hignored : some (node, []) = some (node', effects) →
          (node'.snapshot = node.snapshot ∧ node.CommitsInside node') ∨
            node.Installs node' (.step sender message) := by
        intro heq
        cases heq
        exact Or.inl ⟨rfl, Or.inl rfl⟩
      have hcounted : ∀ count first, (node.trackProgress sender count).advanceCommitIndex =
          some (node', first) → node'.snapshot = node.snapshot ∧
            node.CommitsInside node' := by
        intro count first hadvance
        obtain ⟨added, hadded, -⟩ := advanceCommitIndex_appends hadvance
        have hinside := advanceCommitIndex_inside hadvance
        exact ⟨hadded.snapshot, hinside⟩
      cases message with
      | requestVote request =>
          simp only [step] at h
          split at h
          · exact hignored h
          split at h
          · exact hignored h
          · exact Or.inl ⟨(onRequestVote_appends h).snapshot,
              Or.inl (onRequestVote_commitIndex h)⟩
      | requestVoteResponse response =>
          simp only [step] at h
          split at h
          · exact hignored h
          · exact Or.inl ⟨(onRequestVoteResponse_appends h).snapshot,
              Or.inl (onRequestVoteResponse_commitIndex h)⟩
      | appendEntries request =>
          simp only [step] at h
          split at h
          · exact hignored h
          · refine Or.inl ⟨?_, onAppendEntries_inside h⟩
            rcases onAppendEntries_cases h with ⟨-, rfl⟩ | ⟨-, -, hsnapshot, -⟩
            · rfl
            · exact hsnapshot.trans (node.followLeader_appends request.term).snapshot
      | appendEntriesResponse response =>
          simp only [step] at h
          split at h
          · exact hignored h
          · rcases onAppendEntriesResponse_cases h with ⟨happends, hcommit⟩ |
              ⟨-, -, -, matchIndex, first, -, hadvance⟩
            · exact Or.inl ⟨happends.snapshot, Or.inl hcommit⟩
            · exact Or.inl (hcounted _ first hadvance)
      | installSnapshot request =>
          simp only [step] at h
          split at h
          · exact hignored h
          · rcases onInstallSnapshot_installs h with ⟨hsnapshot, hcommit⟩ | hinstalls
            · exact Or.inl ⟨hsnapshot, Or.inl hcommit⟩
            · exact Or.inr hinstalls
      | installSnapshotResponse response =>
          simp only [step] at h
          split at h
          · exact hignored h
          · rcases onInstallSnapshotResponse_cases h with ⟨happends, hcommit⟩ |
              ⟨-, -, matchIndex, first, -, hadvance⟩
            · exact Or.inl ⟨happends.snapshot, Or.inl hcommit⟩
            · exact Or.inl (hcounted _ first hadvance)

/-! ### What stays committed -/

/-- The commit index has not gone back, unless the log has become shorter than that. -/
def CommitsOn (node node' : Node) : Prop :=
  min node.commitIndex node'.lastLogIndex ≤ node'.commitIndex

theorem CommitsOn.of_le (h : node.commitIndex ≤ node'.commitIndex) : node.CommitsOn node' :=
  (Nat.min_le_left _ _).trans h

theorem appendOwn_commitIndex_le {entry : LogEntry} {index : Nat}
    (h : node.appendOwn entry = some (node', index, effects)) :
    node.commitIndex ≤ node'.commitIndex := by
  obtain ⟨⟨last, rest⟩, hadvance, h⟩ := Option.bind_eq_some_iff.mp h
  cases h
  have hle := advanceCommitIndex_commitIndex_le hadvance
  exact hle

theorem onAppendEntries_commitsOn {sender : NodeId} {request : AppendEntries}
    (h : node.onAppendEntries sender request = some (node', effects)) :
    node.CommitsOn node' := by
  obtain ⟨-, -, -, -, hcommit, -⟩ := node.followLeader_log request.term
  rcases Nat.lt_or_ge request.term node.currentTerm with hstale | hcurrent
  · rw [onAppendEntries_stale hstale] at h
    cases h
    exact .of_le le_rfl
  cases hprev : node.prevLogSatisfied request with
  | false =>
      rw [onAppendEntries_rejects hcurrent hprev] at h
      cases h
      exact .of_le hcommit.ge
  | true =>
      rw [onAppendEntries_accepts hcurrent hprev] at h
      cases h
      generalize node.firstNew (request.prevLogIndex + 1) request.entries = found
      have hadopted : ((node.followLeader request.term).1.adopt found).commitIndex =
          node.commitIndex := (adopt_commitIndex _ found).trans hcommit
      unfold followCommit CommitsOn
      split
      · rename_i hahead
        rw [← hadopted]
        -- the leader has committed more, but no more than the log holds is taken over
        exact min_le_min_right _ hahead.le
      · rw [hadopted]
        exact Nat.min_le_left _ _

theorem step_commitsOn {event : Event} (h : node.step event = some (node', effects)) :
    node.CommitsOn node' := by
  cases event with
  | tick nextTimeout =>
      have htick : node.onTick nextTimeout = some (node', effects) := h
      exact .of_le (onTick_commitIndex htick).ge
  | step sender message =>
      have hignored : some (node, []) = some (node', effects) → node.CommitsOn node' := by
        intro heq
        cases heq
        exact .of_le le_rfl
      have hcounted : ∀ count first, (node.trackProgress sender count).advanceCommitIndex =
          some (node', first) → node.CommitsOn node' := by
        intro count first hadvance
        have hle := advanceCommitIndex_commitIndex_le hadvance
        exact .of_le hle
      cases message with
      | requestVote request =>
          simp only [step] at h
          split at h
          · exact hignored h
          split at h
          · exact hignored h
          · exact .of_le (onRequestVote_commitIndex h).ge
      | requestVoteResponse response =>
          simp only [step] at h
          split at h
          · exact hignored h
          · exact .of_le (onRequestVoteResponse_commitIndex h).ge
      | appendEntries request =>
          simp only [step] at h
          split at h
          · exact hignored h
          · exact onAppendEntries_commitsOn h
      | appendEntriesResponse response =>
          simp only [step] at h
          split at h
          · exact hignored h
          · rcases onAppendEntriesResponse_cases h with ⟨-, hcommit⟩ |
              ⟨-, -, -, matchIndex, first, -, hadvance⟩
            · exact .of_le hcommit.ge
            · exact hcounted _ first hadvance
      | installSnapshot request =>
          simp only [step] at h
          split at h
          · exact hignored h
          · rcases onInstallSnapshot_installs h with ⟨-, hcommit⟩ | ⟨-, -, hcommit⟩
            · exact .of_le hcommit.ge
            · exact .of_le (hcommit ▸ Nat.le_max_left _ _)
      | installSnapshotResponse response =>
          simp only [step] at h
          split at h
          · exact hignored h
          · rcases onInstallSnapshotResponse_cases h with ⟨-, hcommit⟩ |
              ⟨-, -, matchIndex, first, -, hadvance⟩
            · exact .of_le hcommit.ge
            · exact hcounted _ first hadvance

theorem perform_commitsOn {operation : Operation}
    (h : node.perform operation = some (node', effects)) : node.CommitsOn node' := by
  cases operation with
  | tick nextTimeout =>
      have hstep : node.step (.tick nextTimeout) = some (node', effects) := h
      exact step_commitsOn hstep
  | receive sender message =>
      have hstep : node.step (.step sender message) = some (node', effects) := h
      exact step_commitsOn hstep
  | propose command =>
      obtain ⟨answer, hanswer, h⟩ := Option.bind_eq_some_iff.mp h
      rcases answer with _ | ⟨last, index, rest⟩
      · cases h
        exact .of_le le_rfl
      · cases h
        unfold propose at hanswer
        split at hanswer
        · cases hanswer
        · obtain ⟨appended, happended, hanswer⟩ := Option.bind_eq_some_iff.mp hanswer
          cases hanswer
          exact .of_le (appendOwn_commitIndex_le happended)
  | proposeConfigChange newVoters =>
      obtain ⟨answer, hanswer, h⟩ := Option.bind_eq_some_iff.mp h
      rcases answer with _ | ⟨last, index, rest⟩
      · cases h
        exact .of_le le_rfl
      · cases h
        unfold proposeConfigChange at hanswer
        split at hanswer
        · cases hanswer
        obtain ⟨⟨appended, index', rest'⟩, happended, hanswer⟩ :=
          Option.bind_eq_some_iff.mp hanswer
        cases hanswer
        have hle := appendOwn_commitIndex_le happended
        exact .of_le hle
  | addLearner id =>
      obtain rfl := congrArg Prod.fst (Option.some.inj h)
      unfold addLearner
      split <;> exact .of_le le_rfl
  | removeLearner id =>
      obtain rfl := congrArg Prod.fst (Option.some.inj h)
      unfold removeLearner
      split <;> exact .of_le le_rfl
  | compact upToIndex snapshotData =>
      obtain ⟨answer, hanswer, h⟩ := Option.bind_eq_some_iff.mp h
      rcases answer with _ | ⟨last, rest⟩
      · cases h
        exact .of_le le_rfl
      · cases h
        rcases compact_cases hanswer with ⟨-, rfl, -⟩ | ⟨_, _, _, -, -, -, -, -, rfl, -⟩
        · exact .of_le le_rfl
        · exact .of_le le_rfl

end Kurogane.Raft.Node
