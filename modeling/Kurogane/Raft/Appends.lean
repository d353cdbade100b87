import Kurogane.Raft.WriteAhead

/-!
What a transition does to the log. Apart from the two messages of a leader and
from compaction, a transition only appends: the entry its owner asked for, and
at most the plain follow-up of a joint configuration that has just been
committed.
-/

namespace Kurogane.Raft

/-- The configuration in force is the latest one of the log, or the one of the
snapshot when the log holds none. -/
def Node.ConfigCurrent (node : Node) : Prop :=
  (node.currentConfig, node.currentConfigIndex) =
    (latestConfigurationIn node.log node.snapshot.lastIncludedIndex).getD
      (node.snapshotConfig, node.snapshot.lastIncludedIndex)

theorem Node.configCurrent_recomputeConfig (node : Node) :
    node.recomputeConfig.ConfigCurrent := rfl

/-- The log grows by `added` at its end, over the same snapshot. -/
structure Appends (node : Node) (added : List LogEntry) (node' : Node) :
    Prop where
  snapshot : node'.snapshot = node.snapshot
  snapshotConfig : node'.snapshotConfig = node.snapshotConfig
  log : node'.log = node.log ++ added
  current : node.ConfigCurrent → node'.ConfigCurrent

/-- No entry of `added` opens a change of membership. -/
def NoneJoint (added : List LogEntry) : Prop :=
  ∀ entry ∈ added, ∀ config, entry.payload = .configuration config →
    config.oldVoters = none

namespace Appends

variable {node node₁ node₂ node' : Node} {added more : List LogEntry}

theorem none (hsnapshot : node'.snapshot = node.snapshot)
    (hsnapshotConfig : node'.snapshotConfig = node.snapshotConfig)
    (hlog : node'.log = node.log)
    (hconfig : node'.currentConfig = node.currentConfig)
    (hindex : node'.currentConfigIndex = node.currentConfigIndex) :
    Appends node [] node' := by
  refine ⟨hsnapshot, hsnapshotConfig, by rw [hlog, List.append_nil], ?_⟩
  intro hcurrent
  rw [Node.ConfigCurrent, hconfig, hindex, hlog, hsnapshot, hsnapshotConfig]
  exact hcurrent

theorem trans (h₁ : Appends node added node₁) (h₂ : Appends node₁ more node₂) :
    Appends node (added ++ more) node₂ :=
  ⟨h₂.snapshot.trans h₁.snapshot, h₂.snapshotConfig.trans h₁.snapshotConfig,
    by rw [h₂.log, h₁.log, List.append_assoc],
    fun hcurrent => h₂.current (h₁.current hcurrent)⟩

/-- Beyond the old end the new log holds what was added. -/
theorem mem_of_entryAt (h : Appends node added node') {index : Nat}
    {entry : LogEntry} (hbeyond : node.lastLogIndex < index)
    (hentry : node'.entryAt index = some entry) : entry ∈ added := by
  unfold Node.lastLogIndex at hbeyond
  unfold Node.entryAt at hentry
  split at hentry
  · cases hentry
  · rw [Node.vecIndex, h.snapshot, h.log,
      List.getElem?_append_right (by omega)] at hentry
    exact List.mem_of_getElem? hentry

/-- What is added first is found right after the old end. -/
theorem entryAt_first {entry : LogEntry} (h : Appends node (entry :: more) node') :
    node'.entryAt (node.lastLogIndex + 1) = some entry := by
  have hindex : node.lastLogIndex + 1 - node.snapshot.lastIncludedIndex - 1 =
      node.log.length := by
    rw [Node.lastLogIndex]
    omega
  rw [Node.entryAt, Node.vecIndex, h.snapshot, h.log, hindex,
    if_neg (by rw [Node.lastLogIndex]; omega)]
  simp

end Appends

namespace Node

variable {node node' : Node} {effects : List Effect}

theorem retireIfExcluded_appends (node : Node) :
    Appends node [] node.retireIfExcluded := by
  unfold retireIfExcluded
  split <;> exact .none rfl rfl rfl rfl rfl

theorem commitTo_appends (node : Node) (candidate : Nat) :
    Appends node [] (node.commitTo candidate) := by
  unfold commitTo
  split <;> exact .none rfl rfl rfl rfl rfl

theorem push_appends (node : Node) (entry : LogEntry) :
    Appends node [entry] (node.push entry).recomputeConfig :=
  ⟨rfl, rfl, rfl, fun _ => configCurrent_recomputeConfig _⟩

/-- All that advancing the commit index appends is the plain follow-up. -/
theorem advanceCommitIndex_appends
    (h : node.advanceCommitIndex = some (node', effects)) :
    ∃ added, Appends node added node' ∧ NoneJoint added := by
  obtain ⟨candidate, -, ⟨-, rfl, -⟩ | ⟨-, last, rest, hrest, rfl, -⟩⟩ :=
    advanceCommitIndex_cases h
  · exact ⟨[], (node.commitTo_appends candidate).trans
      (retireIfExcluded_appends _), by simp [NoneJoint]⟩
  · obtain ⟨candidate', -, rfl, -⟩ := advanceCommitIndex_plain
      (by rw [recomputeConfig_push_followUp]) hrest
    have hcommit := node.commitTo_appends candidate
    generalize node.commitTo candidate = joint at *
    refine ⟨[joint.followUp], ?_, ?_⟩
    · exact (((hcommit.trans (joint.push_appends _)).trans
        (commitTo_appends _ _)).trans (retireIfExcluded_appends _)).trans
        (retireIfExcluded_appends _)
    · intro entry hmem config hconfig
      rw [List.mem_singleton.mp hmem] at hconfig
      cases hconfig
      rfl

theorem appendOwn_appends {entry : LogEntry} {index : Nat}
    (h : node.appendOwn entry = some (node', index, effects)) :
    index = node.lastLogIndex + 1 ∧
      ∃ more, Appends node (entry :: more) node' ∧ NoneJoint more := by
  obtain ⟨⟨last, rest⟩, hadvance, h⟩ := Option.bind_eq_some_iff.mp h
  cases h
  obtain ⟨more, hmore, hplain⟩ := advanceCommitIndex_appends hadvance
  refine ⟨?_, more, (node.push_appends entry).trans hmore, hplain⟩
  simp [lastLogIndex, recomputeConfig, push, Nat.add_assoc]

theorem onTick_appends {nextTimeout : Nat}
    (h : node.onTick nextTimeout = some (node', effects)) :
    Appends node [] node' := by
  unfold onTick at h
  split at h
  · unfold onLeaderTick at h
    dsimp only at h
    split at h
    · cases h
      exact .none rfl rfl rfl rfl rfl
    · obtain ⟨sends, -, h⟩ := Option.bind_eq_some_iff.mp h
      cases h
      exact .none rfl rfl rfl rfl rfl
  · dsimp only at h
    split at h
    · cases h
      exact .none rfl rfl rfl rfl rfl
    · unfold startElection at h
      split at h
      · cases h
        exact .none rfl rfl rfl rfl rfl
      · dsimp only at h
        split at h
        · obtain ⟨⟨leader, sends⟩, hleader, h⟩ := Option.bind_eq_some_iff.mp h
          obtain ⟨_, -, hleader⟩ := Option.bind_eq_some_iff.mp hleader
          cases hleader
          cases h
          exact .none rfl rfl rfl rfl rfl
        · cases h
          exact .none rfl rfl rfl rfl rfl

theorem onRequestVote_appends {sender : NodeId} {request : RequestVote}
    (h : node.onRequestVote sender request = some (node', effects)) :
    Appends node [] node' := by
  unfold onRequestVote at h
  split at h
  · cases h
    exact .none rfl rfl rfl rfl rfl
  split at h
  · cases h
    exact .none rfl rfl rfl rfl rfl
  split at h
  · cases h
    exact .none rfl rfl rfl rfl rfl
  cases h
  by_cases hdown : node.currentTerm < request.term
  · simp only [hdown, decide_true, ite_true]
    split <;> exact .none rfl rfl rfl rfl rfl
  · simp only [hdown, decide_false, Bool.false_eq_true, ite_false]
    split <;> exact .none rfl rfl rfl rfl rfl

theorem onRequestVoteResponse_appends {sender : NodeId}
    {response : RequestVoteResponse}
    (h : node.onRequestVoteResponse sender response = some (node', effects)) :
    Appends node [] node' := by
  unfold onRequestVoteResponse at h
  split at h
  · cases h
    exact .none rfl rfl rfl rfl rfl
  split at h
  · cases h
    exact .none rfl rfl rfl rfl rfl
  split at h
  · dsimp only at h
    split at h
    · obtain ⟨_, -, h⟩ := Option.bind_eq_some_iff.mp h
      cases h
      exact .none rfl rfl rfl rfl rfl
    · cases h
      exact .none rfl rfl rfl rfl rfl
  · cases h
    exact .none rfl rfl rfl rfl rfl

theorem onAppendEntriesResponse_appends {sender : NodeId}
    {response : AppendEntriesResponse}
    (h : node.onAppendEntriesResponse sender response = some (node', effects)) :
    ∃ added, Appends node added node' ∧ NoneJoint added := by
  have hnothing : NoneJoint [] := by simp [NoneJoint]
  unfold onAppendEntriesResponse at h
  split at h
  · cases h
    exact ⟨[], .none rfl rfl rfl rfl rfl, hnothing⟩
  split at h
  · cases h
    exact ⟨[], .none rfl rfl rfl rfl rfl, hnothing⟩
  split at h
  · obtain ⟨matchIndex, -, h⟩ := Option.bind_eq_some_iff.mp h
    obtain ⟨⟨last, first⟩, hadvance, h⟩ := Option.bind_eq_some_iff.mp h
    obtain ⟨more, -, h⟩ := Option.bind_eq_some_iff.mp h
    cases h
    obtain ⟨added, hadded, hplain⟩ := advanceCommitIndex_appends hadvance
    exact ⟨added, ⟨hadded.snapshot, hadded.snapshotConfig, hadded.log, hadded.current⟩, hplain⟩
  · obtain ⟨nextIndex, -, h⟩ := Option.bind_eq_some_iff.mp h
    obtain ⟨more, -, h⟩ := Option.bind_eq_some_iff.mp h
    cases h
    exact ⟨[], .none rfl rfl rfl rfl rfl, hnothing⟩

theorem onInstallSnapshotResponse_appends {sender : NodeId}
    {response : InstallSnapshotResponse}
    (h : node.onInstallSnapshotResponse sender response =
      some (node', effects)) :
    ∃ added, Appends node added node' ∧ NoneJoint added := by
  have hnothing : NoneJoint [] := by simp [NoneJoint]
  unfold onInstallSnapshotResponse at h
  split at h
  · cases h
    exact ⟨[], .none rfl rfl rfl rfl rfl, hnothing⟩
  split at h
  · cases h
    exact ⟨[], .none rfl rfl rfl rfl rfl, hnothing⟩
  obtain ⟨matchIndex, -, h⟩ := Option.bind_eq_some_iff.mp h
  obtain ⟨⟨last, first⟩, hadvance, h⟩ := Option.bind_eq_some_iff.mp h
  obtain ⟨more, -, h⟩ := Option.bind_eq_some_iff.mp h
  cases h
  obtain ⟨added, hadded, hplain⟩ := advanceCommitIndex_appends hadvance
  exact ⟨added, ⟨hadded.snapshot, hadded.snapshotConfig, hadded.log, hadded.current⟩, hplain⟩

theorem propose_appends {command : Bytes} {index : Nat}
    (h : node.propose command = some (some (node', index, effects))) :
    index = node.lastLogIndex + 1 ∧ ∃ more,
      Appends node (⟨node.currentTerm, .command command⟩ :: more) node' ∧
        NoneJoint more := by
  unfold propose at h
  split at h
  · cases h
  · obtain ⟨appended, happended, h⟩ := Option.bind_eq_some_iff.mp h
    cases h
    exact appendOwn_appends happended

/-- Only who is no leader is refused a change to a list that is not empty. -/
theorem proposeConfigChange_refused {newVoters : List NodeId}
    (h : node.proposeConfigChange newVoters = some none) :
    node.role ≠ .leader ∨ newVoters = [] := by
  unfold proposeConfigChange at h
  split at h
  · rename_i hrefused
    exact hrefused.imp_right List.isEmpty_iff.mp
  · dsimp only at h
    obtain ⟨⟨last, index, rest⟩, -, h⟩ := Option.bind_eq_some_iff.mp h
    cases h

theorem proposeConfigChange_appends {newVoters : List NodeId} {index : Nat}
    (h : node.proposeConfigChange newVoters =
      some (some (node', index, effects))) :
    node.role = .leader ∧ newVoters ≠ [] ∧ index = node.lastLogIndex + 1 ∧
      ∃ more, Appends node (node.jointEntry newVoters :: more) node' ∧
        NoneJoint more := by
  unfold proposeConfigChange at h
  split at h
  · cases h
  rename_i hserves
  simp only [not_or, ne_eq, not_not, List.isEmpty_iff] at hserves
  have hfirst : Appends node [] (node.dropPromoted newVoters).1 :=
    .none rfl rfl rfl rfl rfl
  have hlast : (node.dropPromoted newVoters).1.lastLogIndex =
      node.lastLogIndex := rfl
  have hentry : (node.dropPromoted newVoters).1.jointEntry newVoters =
      node.jointEntry newVoters := rfl
  generalize node.dropPromoted newVoters = dropped at *
  obtain ⟨remaining, persist⟩ := dropped
  obtain ⟨⟨last, index', rest⟩, happended, h⟩ := Option.bind_eq_some_iff.mp h
  cases h
  obtain ⟨hindex, more, hmore, hplain⟩ := appendOwn_appends happended
  refine ⟨hserves.1, hserves.2, hindex.trans (by rw [hlast]), more, ?_, hplain⟩
  exact hentry ▸ hfirst.trans hmore

/-! ### Messages of a leader's own term -/

theorem mergeEntries_fields (entries : List LogEntry) :
    ∀ (node : Node) (changedFrom : Option Nat) (index : Nat),
      (node.mergeEntries changedFrom index entries).1.currentTerm =
        node.currentTerm ∧
      (node.mergeEntries changedFrom index entries).1.snapshot =
        node.snapshot ∧
      (node.mergeEntries changedFrom index entries).1.snapshotConfig =
        node.snapshotConfig := by
  induction entries with
  | nil => exact fun node changedFrom index => ⟨rfl, rfl, rfl⟩
  | cons entry rest ih =>
      intro node changedFrom index
      unfold mergeEntries
      split
      · exact ih node changedFrom (index + 1)
      split
      · split
        · exact ih node changedFrom (index + 1)
        · exact ih ((node.truncate index).push entry) _ (index + 1)
      · exact ih (node.push entry) _ (index + 1)

theorem mergeEntries_role (entries : List LogEntry) :
    ∀ (node : Node) (changedFrom : Option Nat) (index : Nat),
      (node.mergeEntries changedFrom index entries).1.role = node.role := by
  induction entries with
  | nil => exact fun _ _ _ => rfl
  | cons entry rest ih =>
      intro node changedFrom index
      unfold mergeEntries
      split
      · exact ih node changedFrom (index + 1)
      split
      · split
        · exact ih node changedFrom (index + 1)
        · exact ih ((node.truncate index).push entry) _ (index + 1)
      · exact ih (node.push entry) _ (index + 1)

/-- A merge that has written something says so. -/
theorem mergeEntries_some (entries : List LogEntry) :
    ∀ (node : Node) (fromIndex index : Nat),
      (node.mergeEntries (some fromIndex) index entries).2.isSome = true := by
  induction entries with
  | nil => exact fun node fromIndex index => rfl
  | cons entry rest ih =>
      intro node fromIndex index
      unfold mergeEntries
      split
      · exact ih node fromIndex (index + 1)
      split
      · split
        · exact ih node fromIndex (index + 1)
        · exact ih _ _ (index + 1)
      · exact ih _ _ (index + 1)

/-- A merge that has not written anything leaves the node alone. -/
theorem mergeEntries_unchanged (entries : List LogEntry) :
    ∀ (node : Node) (index : Nat),
      (node.mergeEntries none index entries).2 = none →
        (node.mergeEntries none index entries).1 = node := by
  induction entries with
  | nil => exact fun node index _ => rfl
  | cons entry rest ih =>
      intro node index hnone
      have hwritten : ∀ (n : Node) (fromIndex : Nat),
          (n.mergeEntries (some fromIndex) (index + 1) rest).2 = none →
            False := by
        intro n fromIndex h
        have hsome := mergeEntries_some rest n fromIndex (index + 1)
        rw [h] at hsome
        cases hsome
      unfold mergeEntries at hnone ⊢
      split at hnone
      · rename_i hlow
        rw [if_pos hlow]
        exact ih node (index + 1) hnone
      rename_i hlow
      rw [if_neg hlow]
      split at hnone
      · split at hnone
        · rename_i heq
          rw [if_pos heq]
          exact ih node (index + 1) hnone
        · exact (hwritten _ _ hnone).elim
      · exact (hwritten _ _ hnone).elim

theorem followLeader_appends (node : Node) (term : Nat) :
    Appends node [] (node.followLeader term).1 := by
  unfold followLeader
  dsimp only
  split
  · exact .none rfl rfl rfl rfl rfl
  split <;> exact .none rfl rfl rfl rfl rfl

theorem followCommit_appends (node : Node) (leaderCommit : Nat) :
    Appends node [] (node.followCommit leaderCommit) := by
  unfold followCommit
  split <;> exact .none rfl rfl rfl rfl rfl

theorem followLeader_same (node : Node) {term : Nat} (hrole : node.role ≠ .candidate)
    (hterm : node.currentTerm = term) :
    node.followLeader term = ({ node with
      electionElapsed := 0
      leaderContactElapsed := 0 }, []) := by
  unfold followLeader
  simp only [hterm, lt_irrefl, decide_false, Bool.false_eq_true, ite_false,
    hrole]

theorem followLeader_term (node : Node) {term : Nat}
    (hterm : node.currentTerm ≤ term) :
    (node.followLeader term).1.currentTerm = term := by
  unfold followLeader
  by_cases hdown : node.currentTerm < term
  · simp only [hdown, decide_true, ite_true]
    rfl
  · simp only [hdown, decide_false, Bool.false_eq_true, ite_false]
    split
    · exact Nat.le_antisymm hterm (Nat.not_lt.mp hdown)
    · exact Nat.le_antisymm hterm (Nat.not_lt.mp hdown)

/-- Unless it rejects the message as stale, the node adopts its term and works
on with the log of a follower. -/
theorem onAppendEntries_cases {sender : NodeId} {request : AppendEntries}
    (h : node.onAppendEntries sender request = some (node', effects)) :
    (request.term < node.currentTerm ∧ node' = node) ∨
      (node.currentTerm ≤ request.term ∧ node'.currentTerm = request.term ∧
        node'.snapshot = (node.followLeader request.term).1.snapshot ∧
        node'.snapshotConfig =
          (node.followLeader request.term).1.snapshotConfig ∧
        (node.ConfigCurrent → node'.ConfigCurrent) ∧
        (node'.log = (node.followLeader request.term).1.log ∨
          ((node.followLeader request.term).1.prevLogSatisfied request = true ∧
            node'.log = ((node.followLeader request.term).1.mergeEntries none
              (request.prevLogIndex + 1) request.entries).1.log))) := by
  unfold onAppendEntries at h
  split at h
  · rename_i hstale
    cases h
    exact Or.inl ⟨hstale, rfl⟩
  rename_i hcurrent
  have hle := Nat.le_of_not_lt hcurrent
  refine Or.inr ⟨hle, ?_⟩
  have hterm := node.followLeader_term hle
  have hfollow := node.followLeader_appends request.term
  generalize node.followLeader request.term = followed at *
  obtain ⟨follower, persistTerm⟩ := followed
  dsimp only at h hterm hfollow ⊢
  split at h
  · cases h
    exact ⟨hterm, rfl, rfl, hfollow.current, Or.inl rfl⟩
  rename_i hprev
  obtain ⟨hmergedTerm, hmergedSnapshot, hmergedConfig⟩ :=
    mergeEntries_fields request.entries follower none (request.prevLogIndex + 1)
  have hunchanged := mergeEntries_unchanged request.entries follower
    (request.prevLogIndex + 1)
  generalize follower.mergeEntries none (request.prevLogIndex + 1)
    request.entries = result at *
  obtain ⟨merged, changed⟩ := result
  dsimp only at h hmergedTerm hmergedSnapshot hmergedConfig hunchanged ⊢
  obtain ⟨persistLog, -, h⟩ := Option.bind_eq_some_iff.mp h
  cases h
  generalize hbetween : (if changed.isSome = true then merged.recomputeConfig
    else merged) = between
  have hcommit := between.followCommit_appends request.leaderCommit
  have hcommitTerm :
      (between.followCommit request.leaderCommit).currentTerm =
        between.currentTerm := by
    unfold followCommit
    split <;> rfl
  have hsame : between.currentTerm = merged.currentTerm ∧
      between.snapshot = merged.snapshot ∧
      between.snapshotConfig = merged.snapshotConfig ∧
      between.log = merged.log := by
    rw [← hbetween]
    split <;> exact ⟨rfl, rfl, rfl, rfl⟩
  obtain ⟨hsameTerm, hsameSnapshot, hsameConfig, hsameLog⟩ := hsame
  have hcurrent : node.ConfigCurrent → between.ConfigCurrent := by
    intro hnode
    rw [← hbetween]
    split
    · exact configCurrent_recomputeConfig merged
    · rename_i hnone
      rw [hunchanged (by simpa using hnone)]
      exact hfollow.current hnode
  refine ⟨hcommitTerm.trans (hsameTerm.trans (hmergedTerm.trans hterm)),
    (hcommit.snapshot.trans hsameSnapshot).trans hmergedSnapshot,
    (hcommit.snapshotConfig.trans hsameConfig).trans hmergedConfig,
    fun hnode => hcommit.current (hcurrent hnode),
    Or.inr ⟨by simpa using hprev, ?_⟩⟩
  rw [hcommit.log, List.append_nil, hsameLog]

/-- Installing a snapshot leaves no entry behind and takes the membership of
the request. -/
theorem onInstallSnapshot_cases {sender : NodeId} {request : InstallSnapshot}
    (h : node.onInstallSnapshot sender request = some (node', effects)) :
    Appends node [] node' ∨
      (node'.log = [] ∧ node'.snapshotConfig = request.config ∧
        node'.ConfigCurrent) := by
  unfold onInstallSnapshot at h
  split at h
  · cases h
    exact Or.inl (.none rfl rfl rfl rfl rfl)
  have hsame := node.followLeader_appends request.term
  generalize node.followLeader request.term = followed at *
  obtain ⟨follower, persistTerm⟩ := followed
  dsimp only at h hsame
  split at h
  · cases h
    exact Or.inl hsame
  · cases h
    exact Or.inr ⟨rfl, rfl, configCurrent_recomputeConfig _⟩

/-! ### The snapshot boundary -/

/-- Only compaction and a snapshot of a current leader move the boundary. -/
inductive MovesBoundary (node node' : Node) : Operation → Prop
  | compact {upToIndex : Nat} {snapshotData : Bytes} :
      node.snapshot.lastIncludedIndex < upToIndex →
      upToIndex ≤ node.commitIndex →
      node'.snapshot.lastIncludedIndex = upToIndex →
      MovesBoundary node node' (.compact upToIndex snapshotData)
  | install {request : InstallSnapshot} :
      node.currentTerm ≤ request.term →
      node'.snapshot.lastIncludedIndex = request.lastIncludedIndex →
      node'.snapshotConfig = request.config →
      MovesBoundary node node'
        (.receive request.leaderId (.installSnapshot request))

theorem receive_boundary {sender : NodeId} {message : Message}
    (hstep : node.step (.step sender message) = some (node', effects)) :
    (node'.snapshot = node.snapshot ∧ node'.snapshotConfig = node.snapshotConfig) ∨
      MovesBoundary node node' (.receive sender message) := by
  have hsame : ∀ {added}, Appends node added node' →
      (node'.snapshot = node.snapshot ∧
        node'.snapshotConfig = node.snapshotConfig) ∨
      MovesBoundary node node' (.receive sender message) :=
    fun hadded => Or.inl ⟨hadded.snapshot, hadded.snapshotConfig⟩
  have hignored : some (node, []) = some (node', effects) →
      (node'.snapshot = node.snapshot ∧
        node'.snapshotConfig = node.snapshotConfig) ∨
      MovesBoundary node node' (.receive sender message) := by
    intro heq
    cases heq
    exact Or.inl ⟨rfl, rfl⟩
  cases message with
  | requestVote request =>
      simp only [step] at hstep
      split at hstep
      · exact hignored hstep
      split at hstep
      · exact hignored hstep
      · exact hsame (onRequestVote_appends hstep)
  | requestVoteResponse response =>
      simp only [step] at hstep
      split at hstep
      · exact hignored hstep
      · exact hsame (onRequestVoteResponse_appends hstep)
  | appendEntries request =>
      simp only [step] at hstep
      split at hstep
      · exact hignored hstep
      · rcases onAppendEntries_cases hstep with ⟨-, rfl⟩ |
          ⟨-, -, hsnapshot, hsnapshotConfig, -⟩
        · exact Or.inl ⟨rfl, rfl⟩
        · have hfollow := node.followLeader_appends request.term
          exact Or.inl ⟨hsnapshot.trans hfollow.snapshot,
            hsnapshotConfig.trans hfollow.snapshotConfig⟩
  | appendEntriesResponse response =>
      simp only [step] at hstep
      split at hstep
      · exact hignored hstep
      · obtain ⟨added, hadded, -⟩ := onAppendEntriesResponse_appends hstep
        exact hsame hadded
  | installSnapshot request =>
      simp only [step] at hstep
      split at hstep
      · exact hignored hstep
      rename_i hsender
      obtain rfl : request.leaderId = sender := by simpa using hsender
      unfold onInstallSnapshot at hstep
      split at hstep
      · cases hstep
        exact Or.inl ⟨rfl, rfl⟩
      rename_i hcurrent
      have hfollow := node.followLeader_appends request.term
      generalize node.followLeader request.term = followed at *
      obtain ⟨follower, persistTerm⟩ := followed
      dsimp only at hstep hfollow
      split at hstep
      · cases hstep
        exact hsame hfollow
      · cases hstep
        exact Or.inr (.install (Nat.not_lt.mp hcurrent) rfl rfl)
  | installSnapshotResponse response =>
      simp only [step] at hstep
      split at hstep
      · exact hignored hstep
      · obtain ⟨added, hadded, -⟩ := onInstallSnapshotResponse_appends hstep
        exact hsame hadded

theorem perform_boundary {operation : Operation}
    (hperform : node.perform operation = some (node', effects)) :
    (node'.snapshot = node.snapshot ∧ node'.snapshotConfig = node.snapshotConfig) ∨
      MovesBoundary node node' operation := by
  cases operation with
  | tick nextTimeout =>
      have htick : node.onTick nextTimeout = some (node', effects) := hperform
      have hadded := onTick_appends htick
      exact Or.inl ⟨hadded.snapshot, hadded.snapshotConfig⟩
  | receive sender message => exact receive_boundary hperform
  | propose command =>
      obtain ⟨answer, hanswer, hperform⟩ := Option.bind_eq_some_iff.mp hperform
      rcases answer with _ | ⟨last, index, rest⟩
      · cases hperform
        exact Or.inl ⟨rfl, rfl⟩
      · cases hperform
        obtain ⟨-, more, hadded, -⟩ := propose_appends hanswer
        exact Or.inl ⟨hadded.snapshot, hadded.snapshotConfig⟩
  | proposeConfigChange newVoters =>
      obtain ⟨answer, hanswer, hperform⟩ := Option.bind_eq_some_iff.mp hperform
      rcases answer with _ | ⟨last, index, rest⟩
      · cases hperform
        exact Or.inl ⟨rfl, rfl⟩
      · cases hperform
        obtain ⟨-, -, -, more, hadded, -⟩ := proposeConfigChange_appends hanswer
        exact Or.inl ⟨hadded.snapshot, hadded.snapshotConfig⟩
  | addLearner id =>
      obtain rfl := congrArg Prod.fst (Option.some.inj hperform)
      unfold addLearner
      split <;> exact Or.inl ⟨rfl, rfl⟩
  | removeLearner id =>
      obtain rfl := congrArg Prod.fst (Option.some.inj hperform)
      unfold removeLearner
      split <;> exact Or.inl ⟨rfl, rfl⟩
  | compact upToIndex snapshotData =>
      obtain ⟨answer, hanswer, hperform⟩ := Option.bind_eq_some_iff.mp hperform
      rcases answer with _ | ⟨last, rest⟩
      · cases hperform
        exact Or.inl ⟨rfl, rfl⟩
      · cases hperform
        rcases compact_cases hanswer with ⟨-, rfl, -⟩ |
          ⟨term, config, log, habove, hcommitted, -, -, -, rfl, -⟩
        · exact Or.inl ⟨rfl, rfl⟩
        · exact Or.inr (.compact habove hcommitted rfl)

end Node

end Kurogane.Raft
