import Kurogane.Sim.Refinement

/-!
Runs without compaction. No node ever drops part of its log, so no snapshot is
stored or sent and every log begins at index one. What holds of the entries
that are proposed then holds of every entry a node stores or sends, provided
the follow-up of a joint configuration inherits it.
-/

namespace Kurogane.Raft

/-- Whatever holds of a joint configuration entry holds of its follow-up. -/
def Inherited (p : LogEntry → Prop) : Prop :=
  ∀ term term' config, p ⟨term, .configuration config⟩ →
    config.oldVoters.isSome = true →
    p ⟨term', .configuration ⟨config.voters, none⟩⟩

def Message.Within (p : LogEntry → Prop) : Message → Prop
  | .appendEntries request => ∀ entry ∈ request.entries, p entry
  | .installSnapshot _ => False
  | _ => True

def Effect.Within (p : LogEntry → Prop) : Effect → Prop
  | .send _ message => message.Within p
  | .persistLog _ entries => ∀ entry ∈ entries, p entry
  | .persistSnapshot _ _ _ _ => False
  | _ => True

namespace Node

/-- The log of `node` begins at index one and holds entries with `p` only. -/
structure Within (p : LogEntry → Prop) (node : Node) : Prop where
  boundary : node.snapshot.lastIncludedIndex = 0
  next : ∀ (peer : NodeId) (next : Nat),
    node.nextIndex[peer]? = some next → 0 < next
  entries : ∀ entry ∈ node.log, p entry
  snapshotConfig : node.snapshotConfig.oldVoters = none
  config : node.currentConfig.oldVoters.isSome = true →
    ∃ term, p ⟨term, .configuration node.currentConfig⟩

/-- What the owner of a node may bring in. -/
def Admits (p : LogEntry → Prop) (node : Node) : Operation → Prop
  | .propose command => p ⟨node.currentTerm, .command command⟩
  | .proposeConfigChange newVoters => p (node.jointEntry newVoters)
  | .compact _ _ => False
  | _ => True

/-- Every effect of a batch, and the node after it, stay within `p`. -/
def StaysWithin (p : LogEntry → Prop) (node : Node) (effects : List Effect) :
    Prop :=
  node.Within p ∧ ∀ effect ∈ effects, effect.Within p

variable {p : LogEntry → Prop} {node node' : Node} {effects : List Effect}

/-! ### Messages -/

theorem Within.entriesFrom (h : node.Within p) {index : Nat}
    {entries : List LogEntry} (hentries : node.entriesFrom index = some entries) :
    ∀ entry ∈ entries, p entry := by
  unfold Node.entriesFrom at hentries
  split at hentries
  · cases hentries
    exact fun entry hmem => h.entries entry (List.mem_of_mem_drop hmem)
  · cases hentries

theorem Within.replicateTo (h : node.Within p) {peer : NodeId}
    {effect : Effect} (heffect : node.replicateTo peer = some effect) :
    effect.Within p := by
  unfold Node.replicateTo at heffect
  obtain ⟨nextIndex, hnext, heffect⟩ := Option.bind_eq_some_iff.mp heffect
  have hpos := h.next peer nextIndex hnext
  rw [h.boundary, if_neg (by omega)] at heffect
  obtain ⟨entries, hentries, heffect⟩ := Option.bind_eq_some_iff.mp heffect
  cases heffect
  exact h.entriesFrom hentries

theorem Within.broadcast (h : node.Within p)
    (hsends : node.broadcastReplication = some effects) :
    ∀ effect ∈ effects, effect.Within p := by
  intro effect hmem
  obtain ⟨peer, -, hpeer⟩ := mem_broadcastReplication hsends hmem
  exact h.replicateTo hpeer

theorem Within.sends (h : node.Within p)
    (hsends : node.broadcastReplication = some effects) :
    node.StaysWithin p effects :=
  ⟨h, h.broadcast hsends⟩

theorem Within.continueReplication (h : node.Within p) {peer : NodeId}
    (hsends : node.continueReplication peer = some effects) :
    ∀ effect ∈ effects, effect.Within p := by
  unfold Node.continueReplication at hsends
  split at hsends
  case isFalse =>
    cases hsends
    simp
  case isTrue =>
    obtain ⟨nextIndex, -, hsends⟩ := Option.bind_eq_some_iff.mp hsends
    split at hsends
    case isFalse =>
      cases hsends
      simp
    case isTrue =>
      obtain ⟨effect, heffect, hsends⟩ := Option.bind_eq_some_iff.mp hsends
      cases hsends
      intro other hmem
      rw [List.mem_singleton.mp hmem]
      exact h.replicateTo heffect

/-! ### The log and its configuration -/

/-- The configuration a node recomputes from its log is within `p` again. -/
theorem within_recomputeConfig (hboundary : node.snapshot.lastIncludedIndex = 0)
    (hnext : ∀ (peer : NodeId) (next : Nat),
      node.nextIndex[peer]? = some next → 0 < next)
    (hentries : ∀ entry ∈ node.log, p entry)
    (hconfig : node.snapshotConfig.oldVoters = none) :
    node.recomputeConfig.Within p := by
  refine ⟨hboundary, hnext, hentries, hconfig, fun hjoint => ?_⟩
  unfold recomputeConfig at hjoint ⊢
  cases hlatest : latestConfigurationIn node.log
      node.snapshot.lastIncludedIndex with
  | none => simp [hlatest, hconfig] at hjoint
  | some found =>
      obtain ⟨config, index⟩ := found
      obtain ⟨term, hmem⟩ := latestConfigurationIn_mem hlatest
      exact ⟨term, hentries _ hmem⟩

/-- The five fields `Within` reads. -/
theorem Within.of_same (h : node.Within p)
    (hsnapshot : node'.snapshot = node.snapshot)
    (hnext : node'.nextIndex = node.nextIndex) (hlog : node'.log = node.log)
    (hsnapshotConfig : node'.snapshotConfig = node.snapshotConfig)
    (hconfig : node'.currentConfig = node.currentConfig) : node'.Within p :=
  ⟨hsnapshot ▸ h.boundary, hnext ▸ h.next, hlog ▸ h.entries,
    hsnapshotConfig ▸ h.snapshotConfig, hconfig ▸ h.config⟩

theorem Within.push (h : node.Within p) {entry : LogEntry} (hentry : p entry) :
    (node.push entry).recomputeConfig.Within p := by
  refine within_recomputeConfig h.boundary h.next ?_ h.snapshotConfig
  intro other hmem
  rcases List.mem_append.mp hmem with hmem | hmem
  · exact h.entries other hmem
  · rw [List.mem_singleton.mp hmem]
    exact hentry

theorem Within.stepDown (h : node.Within p) (term : Nat) :
    (node.stepDown term).Within p :=
  ⟨h.boundary, by simp [Node.stepDown], h.entries, h.snapshotConfig, h.config⟩

theorem Within.retireIfExcluded (h : node.Within p) :
    node.retireIfExcluded.Within p := by
  unfold Node.retireIfExcluded
  split
  · exact ⟨h.boundary, by simp [retireFromLeadership], h.entries,
      h.snapshotConfig, h.config⟩
  · exact h

theorem Within.commitTo (h : node.Within p) (candidate : Nat) :
    (node.commitTo candidate).Within p := by
  unfold Node.commitTo
  split
  · exact h.of_same rfl rfl rfl rfl rfl
  · exact h

theorem Within.advanceCommitIndex (hp : Inherited p) (h : node.Within p)
    (hadvance : node.advanceCommitIndex = some (node', effects)) :
    node'.StaysWithin p effects := by
  obtain ⟨candidate, -, ⟨-, rfl, rfl⟩ | ⟨hjoint, last, rest, hrest, rfl, rfl⟩⟩ :=
    advanceCommitIndex_cases hadvance
  · exact ⟨(h.commitTo candidate).retireIfExcluded, by simp⟩
  · have hcommit := h.commitTo candidate
    have hold : (node.commitTo candidate).currentConfig.oldVoters.isSome =
        true := by
      simp only [jointCommitted, Bool.and_eq_true] at hjoint
      exact hjoint.1
    obtain ⟨term, hentry⟩ := hcommit.config hold
    have hfollow : p (node.commitTo candidate).followUp :=
      hp _ _ _ hentry hold
    obtain ⟨candidate', -, rfl, rfl⟩ := advanceCommitIndex_plain
      (by rw [recomputeConfig_push_followUp]) hrest
    refine ⟨((hcommit.push hfollow).commitTo candidate').retireIfExcluded.retireIfExcluded,
      ?_⟩
    intro effect hmem
    rw [List.mem_singleton.mp hmem]
    intro entry hentry
    rw [List.mem_singleton.mp hentry]
    exact hfollow

theorem Within.appendOwn (hp : Inherited p) (h : node.Within p)
    {entry : LogEntry} (hentry : p entry) {index : Nat}
    (hown : node.appendOwn entry = some (node', index, effects)) :
    node'.StaysWithin p effects := by
  obtain ⟨⟨last, rest⟩, hadvance, hown⟩ := Option.bind_eq_some_iff.mp hown
  cases hown
  obtain ⟨hlast, hrest⟩ := (h.push hentry).advanceCommitIndex hp hadvance
  refine ⟨hlast, ?_⟩
  intro effect hmem
  rcases List.mem_cons.mp hmem with rfl | hmem
  · intro other hother
    rw [List.mem_singleton.mp hother]
    exact hentry
  · exact hrest effect hmem

/-! ### Elections -/

theorem Within.becomeLeader (h : node.Within p)
    (hleader : node.becomeLeader = some (node', effects)) :
    node'.StaysWithin p effects := by
  obtain ⟨sends, hsends, hleader⟩ := Option.bind_eq_some_iff.mp hleader
  cases hleader
  refine Within.sends ⟨h.boundary, fun peer next hnext => ?_, h.entries,
    h.snapshotConfig, h.config⟩ hsends
  rcases foldl_insert_const _ _ _ hnext with rfl | hnone
  · exact Nat.succ_pos _
  · simp at hnone

theorem Within.startElection (h : node.Within p) {nextTimeout : Nat}
    (hstart : node.startElection nextTimeout = some (node', effects)) :
    node'.StaysWithin p effects := by
  have hcampaign : (node.campaign nextTimeout).Within p :=
    h.of_same rfl rfl rfl rfl rfl
  unfold Node.startElection at hstart
  split at hstart
  · cases hstart
    exact ⟨h, by simp⟩
  dsimp only at hstart
  split at hstart
  · obtain ⟨⟨leader, sends⟩, hleader, hstart⟩ :=
      Option.bind_eq_some_iff.mp hstart
    cases hstart
    obtain ⟨hnode, hsends⟩ := hcampaign.becomeLeader hleader
    exact ⟨hnode, List.forall_mem_cons.mpr ⟨trivial, hsends⟩⟩
  · cases hstart
    refine ⟨hcampaign, List.forall_mem_cons.mpr ⟨trivial, ?_⟩⟩
    intro effect hmem
    obtain ⟨peer, -, rfl⟩ := List.mem_map.mp hmem
    trivial

theorem Within.onTick (h : node.Within p) {nextTimeout : Nat}
    (htick : node.onTick nextTimeout = some (node', effects)) :
    node'.StaysWithin p effects := by
  unfold Node.onTick at htick
  split at htick
  · unfold onLeaderTick at htick
    dsimp only at htick
    split at htick
    · cases htick
      exact ⟨h.of_same rfl rfl rfl rfl rfl, by simp⟩
    · obtain ⟨sends, hsends, htick⟩ := Option.bind_eq_some_iff.mp htick
      cases htick
      refine Within.sends ?_ hsends
      exact h.of_same rfl rfl rfl rfl rfl
  · dsimp only at htick
    split at htick
    · cases htick
      exact ⟨h.of_same rfl rfl rfl rfl rfl, by simp⟩
    · refine Within.startElection ?_ htick
      exact h.of_same rfl rfl rfl rfl rfl

theorem Within.onRequestVote (h : node.Within p) {sender : NodeId}
    {request : RequestVote}
    (hvote : node.onRequestVote sender request = some (node', effects)) :
    node'.StaysWithin p effects := by
  have hreply : ∀ (n : Node) (granted : Bool),
      (n.voteReply sender granted).Within p := fun _ _ => trivial
  have hpersist : ∀ (due : Bool) (n : Node),
      ∀ effect ∈ if due then [n.persistHardState] else [],
        effect.Within p := by
    intro due n effect hmem
    cases due
    · cases hmem
    · rw [List.mem_singleton.mp hmem]
      trivial
  unfold Node.onRequestVote at hvote
  split at hvote
  · cases hvote
    exact ⟨h, by simpa using hreply _ _⟩
  split at hvote
  · cases hvote
    exact ⟨h, by simpa using hreply _ _⟩
  split at hvote
  · cases hvote
    exact ⟨h, by simpa using hreply _ _⟩
  dsimp only at hvote
  cases hvote
  refine ⟨?_, ?_⟩
  · by_cases hdown : node.currentTerm < request.term
    · simp only [hdown, decide_true, ite_true]
      have hstep := h.stepDown request.term
      split
      · exact hstep.of_same rfl rfl rfl rfl rfl
      · exact hstep
    · simp only [hdown, decide_false, Bool.false_eq_true, ite_false]
      split
      · exact h.of_same rfl rfl rfl rfl rfl
      · exact h
  · intro effect hmem
    rcases List.mem_append.mp hmem with hmem | hmem
    · exact hpersist _ _ effect hmem
    · rw [List.mem_singleton.mp hmem]
      exact hreply _ _

theorem Within.onRequestVoteResponse (h : node.Within p) {sender : NodeId}
    {response : RequestVoteResponse}
    (hvote : node.onRequestVoteResponse sender response =
      some (node', effects)) : node'.StaysWithin p effects := by
  unfold Node.onRequestVoteResponse at hvote
  split at hvote
  · cases hvote
    exact ⟨h.stepDown _, by simp [persistHardState, Effect.Within]⟩
  split at hvote
  · cases hvote
    exact ⟨h, by simp⟩
  split at hvote
  · have hnode : Within p { node with
        votesGranted := node.votesGranted.insert sender } :=
      h.of_same rfl rfl rfl rfl rfl
    dsimp only at hvote
    split at hvote
    · exact hnode.becomeLeader hvote
    · cases hvote
      exact ⟨hnode, by simp⟩
  · cases hvote
    exact ⟨h, by simp⟩

/-! ### Replication -/

theorem Within.followLeader (h : node.Within p) (term : Nat) :
    (node.followLeader term).1.StaysWithin p (node.followLeader term).2 := by
  unfold Node.followLeader
  by_cases hdown : node.currentTerm < term
  · simp only [hdown, decide_true, ite_true]
    exact ⟨(h.stepDown term).of_same rfl rfl rfl rfl rfl,
      by simp [persistHardState, Effect.Within]⟩
  · simp only [hdown, decide_false, Bool.false_eq_true, ite_false]
    refine ⟨?_, by simp⟩
    split
    · exact h.of_same rfl rfl rfl rfl rfl
    · exact h.of_same rfl rfl rfl rfl rfl

/-- Merging changes the log alone, and writes entries of the request. -/
theorem Within.mergeEntries {entries : List LogEntry} :
    ∀ {node merged : Node} {changedFrom changed : Option Nat} {index : Nat},
      node.Within p → (∀ entry ∈ entries, p entry) →
      node.mergeEntries changedFrom index entries = (merged, changed) →
      merged.Within p := by
  have hpush : ∀ (node : Node) (log : List LogEntry) (entry : LogEntry),
      node.Within p → (∀ e ∈ log, e ∈ node.log) → p entry →
      Within p { node with log := log ++ [entry] } := by
    intro node log entry h hsub hentry
    refine ⟨h.boundary, h.next, fun other hmem => ?_, h.snapshotConfig,
      h.config⟩
    rcases List.mem_append.mp hmem with hmem | hmem
    · exact h.entries other (hsub other hmem)
    · rw [List.mem_singleton.mp hmem]
      exact hentry
  induction entries with
  | nil =>
      intro node merged changedFrom changed index h _ hmerge
      cases hmerge
      exact h
  | cons entry rest ih =>
      intro node merged changedFrom changed index h hentries hmerge
      obtain ⟨hentry, hrest⟩ := List.forall_mem_cons.mp hentries
      unfold Node.mergeEntries at hmerge
      split at hmerge
      · exact ih h hrest hmerge
      split at hmerge
      · split at hmerge
        · exact ih h hrest hmerge
        · exact ih (hpush node _ entry h
            (fun _ hmem => List.mem_of_mem_take hmem) hentry) hrest hmerge
      · exact ih (hpush node _ entry h (fun _ hmem => hmem) hentry) hrest
          hmerge

theorem Within.followCommit (h : node.Within p) (leaderCommit : Nat) :
    (node.followCommit leaderCommit).Within p := by
  unfold Node.followCommit
  split
  · exact h.of_same rfl rfl rfl rfl rfl
  · exact h

theorem Within.persistChanged (h : node.Within p) {changed : Option Nat}
    (hpersist : node.persistChanged changed = some effects) :
    ∀ effect ∈ effects, effect.Within p := by
  cases changed with
  | none =>
      cases hpersist
      simp
  | some fromIndex =>
      obtain ⟨entries, hentries, hpersist⟩ := Option.bind_eq_some_iff.mp hpersist
      cases hpersist
      intro effect hmem
      rw [List.mem_singleton.mp hmem]
      exact h.entriesFrom hentries

theorem Within.onAppendEntries (h : node.Within p) {sender : NodeId}
    {request : AppendEntries} (hentries : ∀ entry ∈ request.entries, p entry)
    (happend : node.onAppendEntries sender request = some (node', effects)) :
    node'.StaysWithin p effects := by
  have hreply : ∀ (n : Node) (success : Bool) (matchIndex : Nat),
      ∀ effect ∈ [n.appendReply sender success matchIndex],
        effect.Within p := by
    simp [appendReply, Effect.Within, Message.Within]
  unfold Node.onAppendEntries at happend
  split at happend
  · cases happend
    exact ⟨h, hreply _ _ _⟩
  obtain ⟨hfollow, hterm⟩ := h.followLeader request.term
  generalize node.followLeader request.term = followed at *
  obtain ⟨follower, persistTerm⟩ := followed
  dsimp only at happend hfollow hterm
  split at happend
  · cases happend
    exact ⟨hfollow, List.forall_mem_append.mpr ⟨hterm, hreply _ _ _⟩⟩
  generalize hmerge : follower.mergeEntries none (request.prevLogIndex + 1)
    request.entries = result at happend
  obtain ⟨merged, changed⟩ := result
  have hmerged := hfollow.mergeEntries hentries hmerge
  obtain ⟨persistLog, hpersist, happend⟩ := Option.bind_eq_some_iff.mp happend
  cases happend
  have hconfig : (if changed.isSome = true then merged.recomputeConfig
      else merged).Within p := by
    split
    · exact within_recomputeConfig hmerged.boundary hmerged.next
        hmerged.entries hmerged.snapshotConfig
    · exact hmerged
  have hlast := hconfig.followCommit request.leaderCommit
  exact ⟨hlast, List.forall_mem_append.mpr
    ⟨List.forall_mem_append.mpr ⟨hterm, hlast.persistChanged hpersist⟩,
      hreply _ _ _⟩⟩

theorem Within.trackProgress (h : node.Within p) (peer : NodeId)
    (matchIndex : Nat) : (node.trackProgress peer matchIndex).Within p := by
  refine ⟨h.boundary, fun other next hnext => ?_, h.entries,
    h.snapshotConfig, h.config⟩
  unfold Node.trackProgress at hnext
  rw [Std.ExtTreeMap.getElem?_insert] at hnext
  split at hnext
  · cases hnext
    exact Nat.succ_pos _
  · exact h.next other next hnext

/-- A leader that learns how far a peer is may commit, and answers with what
the peer still misses. -/
theorem Within.progress (hp : Inherited p) (h : node.Within p) {peer : NodeId}
    {last : Node} {more : List Effect}
    (hadvance : node.advanceCommitIndex = some (last, effects))
    (hmore : last.continueReplication peer = some more) :
    last.StaysWithin p (effects ++ more) := by
  obtain ⟨hlast, heffects⟩ := h.advanceCommitIndex hp hadvance
  exact ⟨hlast, List.forall_mem_append.mpr
    ⟨heffects, hlast.continueReplication hmore⟩⟩

theorem Within.onInstallSnapshotResponse (hp : Inherited p)
    (h : node.Within p) {sender : NodeId} {response : InstallSnapshotResponse}
    (hresponse : node.onInstallSnapshotResponse sender response =
      some (node', effects)) : node'.StaysWithin p effects := by
  unfold Node.onInstallSnapshotResponse at hresponse
  split at hresponse
  · cases hresponse
    exact ⟨h.stepDown _, by simp [persistHardState, Effect.Within]⟩
  split at hresponse
  · cases hresponse
    exact ⟨h, by simp⟩
  obtain ⟨matchIndex, -, hresponse⟩ := Option.bind_eq_some_iff.mp hresponse
  obtain ⟨⟨last, first⟩, hadvance, hresponse⟩ :=
    Option.bind_eq_some_iff.mp hresponse
  obtain ⟨more, hmore, hresponse⟩ := Option.bind_eq_some_iff.mp hresponse
  cases hresponse
  exact (h.trackProgress _ _).progress hp hadvance hmore

theorem Within.onAppendEntriesResponse (hp : Inherited p)
    (h : node.Within p) {sender : NodeId} {response : AppendEntriesResponse}
    (hresponse : node.onAppendEntriesResponse sender response =
      some (node', effects)) : node'.StaysWithin p effects := by
  unfold Node.onAppendEntriesResponse at hresponse
  split at hresponse
  · cases hresponse
    exact ⟨h.stepDown _, by simp [persistHardState, Effect.Within]⟩
  split at hresponse
  · cases hresponse
    exact ⟨h, by simp⟩
  split at hresponse
  · obtain ⟨matchIndex, -, hresponse⟩ := Option.bind_eq_some_iff.mp hresponse
    obtain ⟨⟨last, first⟩, hadvance, hresponse⟩ :=
      Option.bind_eq_some_iff.mp hresponse
    obtain ⟨more, hmore, hresponse⟩ := Option.bind_eq_some_iff.mp hresponse
    cases hresponse
    exact (h.trackProgress _ _).progress hp hadvance hmore
  · obtain ⟨nextIndex, -, hresponse⟩ := Option.bind_eq_some_iff.mp hresponse
    obtain ⟨more, hmore, hresponse⟩ := Option.bind_eq_some_iff.mp hresponse
    cases hresponse
    have hnode : Within p { node with
        nextIndex := node.nextIndex.insert sender (max (nextIndex - 1) 1) } := by
      refine ⟨h.boundary, fun other next hnext => ?_, h.entries,
        h.snapshotConfig, h.config⟩
      rw [Std.ExtTreeMap.getElem?_insert] at hnext
      split at hnext
      · cases hnext
        omega
      · exact h.next other next hnext
    exact ⟨hnode, hnode.continueReplication hmore⟩

/-! ### Requests -/

theorem Within.receive (hp : Inherited p) (h : node.Within p)
    {sender : NodeId} {message : Message} (hmessage : message.Within p)
    (hstep : node.step (.step sender message) = some (node', effects)) :
    node'.StaysWithin p effects := by
  have hignored : some (node, []) = some (node', effects) →
      node'.StaysWithin p effects := by
    intro heq
    cases heq
    exact ⟨h, by simp⟩
  cases message with
  | requestVote request =>
      simp only [step] at hstep
      split at hstep
      · exact hignored hstep
      split at hstep
      · exact hignored hstep
      · exact h.onRequestVote hstep
  | requestVoteResponse response =>
      simp only [step] at hstep
      split at hstep
      · exact hignored hstep
      · exact h.onRequestVoteResponse hstep
  | appendEntries request =>
      simp only [step] at hstep
      split at hstep
      · exact hignored hstep
      · exact h.onAppendEntries hmessage hstep
  | appendEntriesResponse response =>
      simp only [step] at hstep
      split at hstep
      · exact hignored hstep
      · exact h.onAppendEntriesResponse hp hstep
  | installSnapshot request => exact hmessage.elim
  | installSnapshotResponse response =>
      simp only [step] at hstep
      split at hstep
      · exact hignored hstep
      · exact h.onInstallSnapshotResponse hp hstep

theorem Within.dropPromoted (h : node.Within p) (newVoters : List NodeId) :
    (node.dropPromoted newVoters).1.StaysWithin p
      (node.dropPromoted newVoters).2 := by
  unfold Node.dropPromoted
  dsimp only
  refine ⟨h.of_same rfl rfl rfl rfl rfl, ?_⟩
  split <;> simp [persistLearners, Effect.Within]

theorem Within.perform (hp : Inherited p) (h : node.Within p)
    {operation : Operation} (hadmits : node.Admits p operation)
    (hmessage : ∀ sender message, operation = .receive sender message →
      message.Within p)
    (hperform : node.perform operation = some (node', effects)) :
    node'.StaysWithin p effects := by
  cases operation with
  | tick nextTimeout => exact h.onTick hperform
  | receive sender message => exact h.receive hp (hmessage sender message rfl) hperform
  | propose command =>
      obtain ⟨answer, hanswer, hperform⟩ := Option.bind_eq_some_iff.mp hperform
      unfold Node.propose at hanswer
      split at hanswer
      · cases hanswer
        cases hperform
        exact ⟨h, by simp⟩
      · obtain ⟨⟨last, index, rest⟩, happended, hanswer⟩ :=
          Option.bind_eq_some_iff.mp hanswer
        cases hanswer
        cases hperform
        exact h.appendOwn hp hadmits happended
  | proposeConfigChange newVoters =>
      obtain ⟨answer, hanswer, hperform⟩ := Option.bind_eq_some_iff.mp hperform
      unfold Node.proposeConfigChange at hanswer
      split at hanswer
      · cases hanswer
        cases hperform
        exact ⟨h, by simp⟩
      · obtain ⟨hdropped, hpersist⟩ := h.dropPromoted newVoters
        have hentry : (node.dropPromoted newVoters).1.jointEntry newVoters =
            node.jointEntry newVoters := rfl
        generalize node.dropPromoted newVoters = dropped at *
        obtain ⟨remaining, persist⟩ := dropped
        obtain ⟨⟨last, index, rest⟩, happended, hanswer⟩ :=
          Option.bind_eq_some_iff.mp hanswer
        cases hanswer
        cases hperform
        have hadmits : p (remaining.jointEntry newVoters) :=
          hentry ▸ hadmits
        obtain ⟨hlast, hrest⟩ := hdropped.appendOwn hp hadmits happended
        exact ⟨hlast, List.forall_mem_append.mpr ⟨hpersist, hrest⟩⟩
  | addLearner id =>
      obtain rfl := congrArg Prod.fst (Option.some.inj hperform)
      obtain rfl := congrArg Prod.snd (Option.some.inj hperform)
      unfold addLearner
      split
      · exact ⟨h, by simp⟩
      · refine ⟨⟨h.boundary, fun peer next hnext => ?_, h.entries,
          h.snapshotConfig, h.config⟩, by simp [persistLearners, Effect.Within]⟩
        rw [Std.ExtTreeMap.getElem?_insertIfNew] at hnext
        split at hnext
        · cases hnext
          exact Nat.succ_pos _
        · exact h.next peer next hnext
  | removeLearner id =>
      obtain rfl := congrArg Prod.fst (Option.some.inj hperform)
      obtain rfl := congrArg Prod.snd (Option.some.inj hperform)
      unfold removeLearner
      split
      · exact ⟨h, by simp⟩
      · exact ⟨h.of_same rfl rfl rfl rfl rfl,
          by simp [persistLearners, Effect.Within]⟩
  | compact upToIndex snapshotData => exact hadmits.elim

end Node

end Kurogane.Raft

namespace Kurogane.Sim

open Kurogane.Raft Kurogane.Runtime

variable {p : LogEntry → Prop}

def StorageWithin (p : LogEntry → Prop) (storage : Storage) : Prop :=
  storage.snapshot.lastIncludedIndex = 0 ∧ ∀ entry ∈ storage.log, p entry

namespace Cluster

structure Within (p : LogEntry → Prop) (cluster : Cluster) : Prop where
  storage : ∀ (id : NodeId) (server : Server),
    cluster.servers[id]? = some server → StorageWithin p server.storage
  nodes : ∀ (id : NodeId) (server : Server),
    cluster.servers[id]? = some server →
      ∀ node ∈ server.node, node.Within p
  network : ∀ envelope ∈ cluster.network, envelope.message.Within p

end Cluster

theorem StorageWithin.apply {storage storage' : Storage} {effect : Effect}
    (h : StorageWithin p storage) (heffect : effect.Within p)
    (happly : storage.apply effect = some storage') :
    StorageWithin p storage' := by
  cases effect with
  | send receiver message =>
      cases happly
      exact h
  | persistHardState term votedFor =>
      cases happly
      exact h
  | persistLog fromIndex entries =>
      simp only [Storage.apply, Option.ite_none_left_eq_some] at happly
      obtain ⟨-, happly⟩ := happly
      cases happly
      refine ⟨h.1, fun entry hmem => ?_⟩
      rcases List.mem_append.mp hmem with hmem | hmem
      · exact h.2 entry (List.mem_of_mem_take hmem)
      · exact heffect entry hmem
  | persistSnapshot lastIncludedIndex lastIncludedTerm data config =>
      exact heffect.elim
  | persistLearners learners =>
      cases happly
      exact h

theorem StorageWithin.applyAll {effects : List Effect} :
    ∀ {storage storage' : Storage}, StorageWithin p storage →
      (∀ effect ∈ effects, effect.Within p) →
      storage.applyAll effects = some storage' → StorageWithin p storage' := by
  induction effects with
  | nil =>
      intro storage storage' h _ happly
      cases happly
      exact h
  | cons effect rest ih =>
      intro storage storage' h heffects happly
      obtain ⟨heffect, hrest⟩ := List.forall_mem_cons.mp heffects
      obtain ⟨middle, hmiddle, happly⟩ := Option.bind_eq_some_iff.mp happly
      exact ih (h.apply heffect hmiddle) hrest happly

/-- A node recovered from a storage without snapshot starts at index one. -/
theorem recover_within {id : NodeId} {peers : List NodeId}
    {electionTimeout heartbeatInterval : Nat} (storage : Storage) {node : Node}
    (h : StorageWithin p storage)
    (hrecover : Node.recover id peers electionTimeout heartbeatInterval
      storage.hardState storage.log
      ⟨storage.snapshot, storage.snapshotData, storage.snapshotConfig⟩
      storage.learners = .ok node) : node.Within p := by
  obtain ⟨hboundary, hentries⟩ := h
  obtain ⟨-, -, -, hnext, -, hdurable, hconfig⟩ := Node.recover_ok hrecover
  have hlog : node.log = storage.log :=
    congrArg (fun d : Durable => d.log) hdurable
  have hmetadata : node.snapshot = storage.snapshot :=
    congrArg (fun d : Durable => d.snapshot.metadata) hdurable
  have hsnapshotConfig : node.snapshotConfig = ⟨peers, none⟩ := by
    have heq : node.snapshotConfig =
        if storage.snapshot.lastIncludedIndex > 0 then storage.snapshotConfig
        else ⟨peers, none⟩ :=
      congrArg (fun d : Durable => d.snapshot.config) hdurable
    rw [heq, hboundary, if_neg (lt_irrefl 0)]
  have hrecomputed : node.recomputeConfig.Within p :=
    Node.within_recomputeConfig (hmetadata ▸ hboundary)
      (by simp [hnext]) (hlog ▸ hentries)
      (by rw [hsnapshotConfig])
  exact hrecomputed.of_same rfl rfl rfl rfl (congrArg Prod.fst hconfig)

theorem boot_within {peers : List NodeId} {members : List (NodeId × Nat × Nat)}
    {cluster : Cluster} (hboot : Cluster.boot peers members = .ok cluster) :
    cluster.Within p := by
  obtain ⟨-, hnetwork, hservers⟩ := Cluster.boot_ok hboot
  have hfresh : StorageWithin p .fresh := ⟨rfl, by simp [Storage.fresh]⟩
  refine ⟨?_, ?_, ?_⟩
  · intro id server hserver
    obtain ⟨node, _, _, rfl, -⟩ := hservers id server hserver
    exact hfresh
  · intro id server hserver other hother
    obtain ⟨node, _, _, rfl, hnew⟩ := hservers id server hserver
    cases hother
    exact recover_within .fresh hfresh hnew
  · rw [hnetwork]
    simp

namespace Cluster.Within

variable {cluster cluster' : Cluster}

theorem update (h : cluster.Within p) {id : NodeId} {server : Server}
    {effects : List Effect} (hstorage : StorageWithin p server.storage)
    (hnode : ∀ node ∈ server.node, node.Within p)
    (heffects : ∀ effect ∈ effects, effect.Within p) :
    (cluster.update id server effects).Within p := by
  refine ⟨?_, ?_, ?_⟩
  · intro other found hfound
    rw [servers_update, Std.ExtTreeMap.getElem?_insert] at hfound
    split at hfound
    · cases hfound
      exact hstorage
    · exact h.storage other found hfound
  · intro other found hfound
    rw [servers_update, Std.ExtTreeMap.getElem?_insert] at hfound
    split at hfound
    · cases hfound
      exact hnode
    · exact h.nodes other found hfound
  · intro envelope hmem
    rcases List.mem_append.mp hmem with hmem | hmem
    · exact h.network envelope hmem
    · exact heffects _ (mem_sent hmem).2

theorem delivered (h : cluster.Within p) {id : NodeId} {operation : Operation}
    (hdelivers : cluster.delivers id operation = true) (sender : NodeId)
    (message : Message) (hreceive : operation = .receive sender message) :
    message.Within p := by
  subst hreceive
  have hmem : (⟨sender, id, message⟩ : Envelope) ∈ cluster.network := by
    simpa [Cluster.delivers] using hdelivers
  exact h.network _ hmem

/-- What a node of the cluster makes of a request stays within `p`. -/
theorem perform (hp : Inherited p) (h : cluster.Within p) {id : NodeId}
    {server : Server} (hserver : cluster.servers[id]? = some server)
    {node node' : Node} (hnode : server.node = some node)
    {operation : Operation} (hdelivers : cluster.delivers id operation = true)
    (hadmits : node.Admits p operation) {effects : List Effect}
    (hperform : node.perform operation = some (node', effects)) :
    node'.StaysWithin p effects :=
  (h.nodes id server hserver node hnode).perform hp hadmits
    (h.delivered hdelivers) hperform

theorem step (hp : Inherited p) (h : cluster.Within p) {action : Action}
    (hadmits : cluster.Serving (Node.Admits p) action)
    (hstep : cluster.step action = some cluster') : cluster'.Within p := by
  cases action with
  | perform id operation =>
      obtain ⟨server, node, node', effects, storage, hserver, hnode, hdelivers,
        hperform, happly, rfl⟩ := step_perform hstep
      obtain ⟨hlast, heffects⟩ := h.perform hp hserver hnode hdelivers
        (hadmits hdelivers node (node_of_server hserver hnode)) hperform
      exact h.update ((h.storage id server hserver).applyAll heffects happly)
        (by simpa using hlast) heffects
  | interrupt id operation written =>
      obtain ⟨server, node, node', effects, storage, hserver, hnode, hdelivers,
        hperform, happly, rfl⟩ := step_interrupt hstep
      obtain ⟨-, heffects⟩ := h.perform hp hserver hnode hdelivers
        (hadmits hdelivers node (node_of_server hserver hnode)) hperform
      have hwritten : ∀ effect ∈ effects.take written, effect.Within p :=
        fun effect hmem => heffects effect (List.mem_of_mem_take hmem)
      exact h.update ((h.storage id server hserver).applyAll hwritten happly)
        (by simp) hwritten
  | crash id =>
      obtain ⟨server, hserver, rfl⟩ := step_crash hstep
      exact h.update (h.storage id server hserver) (by simp) (by simp)
  | restart id electionTimeout heartbeatInterval =>
      obtain ⟨server, node, hserver, hrecover, rfl⟩ := step_restart hstep
      have hstorage := h.storage id server hserver
      exact h.update hstorage
        (by simpa using recover_within _ hstorage hrecover) (by simp)

end Cluster.Within

end Kurogane.Sim
