import Kurogane.Raft.Appends

/-!
The configurations a node holds: those of its log and the one of its snapshot.
What holds of every configuration that is brought in, by the owner or by a
message, holds of all of them, provided the plain follow-up of a joint
configuration inherits it.
-/

namespace Kurogane.Raft

def LogEntry.Configs (p : ClusterConfig → Prop) (entry : LogEntry) : Prop :=
  ∀ config, entry.payload = .configuration config → p config

def Message.Configs (p : ClusterConfig → Prop) : Message → Prop
  | .appendEntries request => ∀ entry ∈ request.entries, entry.Configs p
  | .installSnapshot request => p request.config
  | _ => True

namespace Node

structure Configs (p : ClusterConfig → Prop) (node : Node) : Prop where
  log : ∀ entry ∈ node.log, entry.Configs p
  snapshotConfig : p node.snapshotConfig

/-- What an operation brings in has `p`, a change of membership where it is accepted. -/
def Brings (p : ClusterConfig → Prop) (node : Node) : Operation → Prop
  | .receive _ message => message.Configs p
  | .proposeConfigChange newVoters =>
      node.role = .leader → newVoters ≠ [] → (node.jointEntry newVoters).Configs p
  | _ => True

variable {p : ClusterConfig → Prop} {node node' : Node} {effects : List Effect}

/-- The configuration in force is one of those `node` holds. -/
theorem Configs.current (h : node.Configs p) (hcurrent : node.ConfigCurrent) :
    p node.currentConfig := by
  have hlatest : node.currentConfig =
      ((latestConfigurationIn node.log node.snapshot.lastIncludedIndex).getD
        (node.snapshotConfig, node.snapshot.lastIncludedIndex)).1 :=
    congrArg Prod.fst hcurrent
  rw [hlatest]
  cases hfound : latestConfigurationIn node.log
      node.snapshot.lastIncludedIndex with
  | none => exact h.snapshotConfig
  | some found =>
      obtain ⟨config, index⟩ := found
      obtain ⟨term, hmem⟩ := latestConfigurationIn_mem hfound
      exact h.log _ hmem config rfl

theorem Configs.appends {added : List LogEntry} (h : node.Configs p)
    (hadded : Appends node added node')
    (hconfigs : ∀ entry ∈ added, entry.Configs p) : node'.Configs p := by
  refine ⟨?_, ?_⟩
  · rw [hadded.log]
    exact List.forall_mem_append.mpr ⟨h.log, hconfigs⟩
  · rw [hadded.snapshotConfig]
    exact h.snapshotConfig

/-- Merging keeps entries of the log and adds entries of the message. -/
theorem mem_mergeEntries {entries : List LogEntry} :
    ∀ {node : Node} {changedFrom : Option Nat} {index : Nat} {entry : LogEntry},
      entry ∈ (node.mergeEntries changedFrom index entries).1.log →
        entry ∈ node.log ∨ entry ∈ entries := by
  induction entries with
  | nil => exact fun hmem => Or.inl hmem
  | cons first rest ih =>
      intro node changedFrom index entry hmem
      have hpush : ∀ log : List LogEntry, (∀ e ∈ log, e ∈ node.log) →
          entry ∈ log ++ [first] ∨ entry ∈ rest →
            entry ∈ node.log ∨ entry ∈ first :: rest := by
        intro log hsub h
        rcases h with h | h
        · rcases List.mem_append.mp h with h | h
          · exact Or.inl (hsub entry h)
          · exact Or.inr (List.mem_cons.mpr (Or.inl (List.mem_singleton.mp h)))
        · exact Or.inr (List.mem_cons_of_mem _ h)
      unfold mergeEntries at hmem
      split at hmem
      · exact (ih hmem).imp_right (List.mem_cons_of_mem _)
      split at hmem
      · split at hmem
        · exact (ih hmem).imp_right (List.mem_cons_of_mem _)
        · exact hpush _ (fun _ => List.mem_of_mem_take) (ih hmem)
      · exact hpush _ (fun _ h => h) (ih hmem)

theorem Configs.onAppendEntries (h : node.Configs p) {sender : NodeId}
    {request : AppendEntries}
    (hconfigs : ∀ entry ∈ request.entries, entry.Configs p)
    (hstep : node.onAppendEntries sender request = some (node', effects)) :
    node'.Configs p := by
  rcases onAppendEntries_cases hstep with ⟨-, rfl⟩ |
    ⟨-, -, -, hconfig, -, hlog⟩
  · exact h
  have hfollow := h.appends (node.followLeader_appends request.term) (by simp)
  refine ⟨fun entry hmem => ?_, ?_⟩
  · rcases hlog with hlog | ⟨-, hlog⟩
    · rw [hlog] at hmem
      exact hfollow.log entry hmem
    · rw [hlog] at hmem
      rcases mem_mergeEntries hmem with hmem | hmem
      · exact hfollow.log entry hmem
      · exact hconfigs entry hmem
  · rw [hconfig]
    exact hfollow.snapshotConfig

theorem Configs.compact (h : node.Configs p) {upToIndex : Nat}
    {snapshotData : Bytes}
    (hcompact : node.compact upToIndex snapshotData =
      some (.ok (node', effects))) : node'.Configs p := by
  rcases compact_cases hcompact with ⟨-, rfl, -⟩ |
    ⟨term, config, log, -, -, -, rfl, rfl, rfl, -⟩
  · exact h
  refine ⟨fun entry hmem => h.log entry (List.mem_of_mem_drop hmem), ?_⟩
  change p (Option.getD _ _)
  cases hlatest : latestConfigurationIn (node.log.take
      (upToIndex - node.snapshot.lastIncludedIndex))
      node.snapshot.lastIncludedIndex with
  | none => exact h.snapshotConfig
  | some found =>
      obtain ⟨config, index⟩ := found
      obtain ⟨term', hmem⟩ := latestConfigurationIn_mem hlatest
      exact h.log _ (List.mem_of_mem_take hmem) config rfl

/-- Advancing the commit index brings in the plain configuration with the
voters of the joint one in force at most. -/
theorem Configs.advanceCommitIndex
    (hplain : ∀ config, p config → p ⟨config.voters, none⟩)
    (h : node.Configs p) (hcurrent : p node.currentConfig)
    (hadvance : node.advanceCommitIndex = some (node', effects)) :
    node'.Configs p := by
  obtain ⟨candidate, -, ⟨-, rfl, -⟩ | ⟨-, last, rest, hrest, rfl, -⟩⟩ :=
    advanceCommitIndex_cases hadvance
  · exact (h.appends (node.commitTo_appends candidate) (by simp)).appends
      (retireIfExcluded_appends _) (by simp)
  · obtain ⟨candidate', -, rfl, -⟩ := advanceCommitIndex_plain
      (by rw [recomputeConfig_push_followUp]) hrest
    have hcommit := h.appends (node.commitTo_appends candidate) (by simp)
    have hfollow : (node.commitTo candidate).followUp.Configs p := by
      intro config hconfig
      cases hconfig
      rw [commitTo_currentConfig]
      exact hplain _ hcurrent
    have hpush := hcommit.appends ((node.commitTo candidate).push_appends
      (node.commitTo candidate).followUp) (by simpa using hfollow)
    exact ((hpush.appends (commitTo_appends _ candidate') (by simp)).appends
      (retireIfExcluded_appends _) (by simp)).appends
      (retireIfExcluded_appends _) (by simp)

theorem currentConfig_push (node : Node) {entry : LogEntry}
    {config : ClusterConfig} (hconfig : entry.payload = .configuration config) :
    (node.push entry).recomputeConfig.currentConfig = config := by
  simp [recomputeConfig, push, latestConfigurationIn, List.zipIdx_append,
    hconfig]

theorem Configs.appendOwn
    (hplain : ∀ config, p config → p ⟨config.voters, none⟩)
    (h : node.Configs p) {entry : LogEntry} (hentry : entry.Configs p)
    {index : Nat} (hown : node.appendOwn entry = some (node', index, effects)) :
    node'.Configs p := by
  obtain ⟨⟨last, rest⟩, hadvance, hown⟩ := Option.bind_eq_some_iff.mp hown
  cases hown
  have hpush := h.appends (node.push_appends entry) (by simpa using hentry)
  exact hpush.advanceCommitIndex hplain
    (hpush.current (configCurrent_recomputeConfig _)) hadvance

/-- A response either leaves the log alone or is progress of its sender, on
which the commit index is advanced. -/
theorem onAppendEntriesResponse_cases {sender : NodeId}
    {response : AppendEntriesResponse}
    (h : node.onAppendEntriesResponse sender response = some (node', effects)) :
    (Appends node [] node' ∧ node'.commitIndex = node.commitIndex) ∨
      (node.role = .leader ∧ response.term = node.currentTerm ∧
        response.success = true ∧ ∃ matchIndex first,
          node.matchIndex[sender]? = some matchIndex ∧
          (node.trackProgress sender
            (max matchIndex response.matchIndex)).advanceCommitIndex =
              some (node', first)) := by
  unfold onAppendEntriesResponse at h
  split at h
  · cases h
    exact Or.inl ⟨.none rfl rfl rfl rfl rfl, rfl⟩
  rename_i hnewer
  split at h
  · cases h
    exact Or.inl ⟨.none rfl rfl rfl rfl rfl, rfl⟩
  rename_i hcurrent
  simp only [not_or, ne_eq, not_not] at hcurrent
  split at h
  · rename_i hsuccess
    obtain ⟨matchIndex, hmatch, h⟩ := Option.bind_eq_some_iff.mp h
    obtain ⟨⟨last, first⟩, hadvance, h⟩ := Option.bind_eq_some_iff.mp h
    obtain ⟨more, -, h⟩ := Option.bind_eq_some_iff.mp h
    cases h
    exact Or.inr ⟨hcurrent.2, by omega, hsuccess, matchIndex, first, hmatch,
      hadvance⟩
  · obtain ⟨nextIndex, -, h⟩ := Option.bind_eq_some_iff.mp h
    obtain ⟨more, -, h⟩ := Option.bind_eq_some_iff.mp h
    cases h
    exact Or.inl ⟨.none rfl rfl rfl rfl rfl, rfl⟩

theorem onInstallSnapshotResponse_cases {sender : NodeId}
    {response : InstallSnapshotResponse}
    (h : node.onInstallSnapshotResponse sender response =
      some (node', effects)) :
    (Appends node [] node' ∧ node'.commitIndex = node.commitIndex) ∨
      (node.role = .leader ∧ response.term = node.currentTerm ∧
        ∃ matchIndex first, node.matchIndex[sender]? = some matchIndex ∧
          (node.trackProgress sender (max matchIndex
            response.lastIncludedIndex)).advanceCommitIndex =
              some (node', first)) := by
  unfold onInstallSnapshotResponse at h
  split at h
  · cases h
    exact Or.inl ⟨.none rfl rfl rfl rfl rfl, rfl⟩
  rename_i hnewer
  split at h
  · cases h
    exact Or.inl ⟨.none rfl rfl rfl rfl rfl, rfl⟩
  rename_i hcurrent
  simp only [not_or, ne_eq, not_not] at hcurrent
  obtain ⟨matchIndex, hmatch, h⟩ := Option.bind_eq_some_iff.mp h
  obtain ⟨⟨last, first⟩, hadvance, h⟩ := Option.bind_eq_some_iff.mp h
  obtain ⟨more, -, h⟩ := Option.bind_eq_some_iff.mp h
  cases h
  exact Or.inr ⟨hcurrent.2, by omega, matchIndex, first, hmatch, hadvance⟩

theorem trackProgress_appends (node : Node) (peer : NodeId) (matchIndex : Nat) :
    Appends node [] (node.trackProgress peer matchIndex) :=
  .none rfl rfl rfl rfl rfl

theorem Configs.receive
    (hplain : ∀ config, p config → p ⟨config.voters, none⟩)
    (h : node.Configs p) (hcurrent : node.ConfigCurrent) {sender : NodeId}
    {message : Message} (hmessage : message.Configs p)
    (hstep : node.step (.step sender message) = some (node', effects)) :
    node'.Configs p := by
  have hsame : Appends node [] node' → node'.Configs p :=
    fun hadded => h.appends hadded (by simp)
  have hprogress : ∀ matchIndex first,
      (node.trackProgress sender matchIndex).advanceCommitIndex =
        some (node', first) → node'.Configs p := by
    intro matchIndex first hadvance
    have htrack := node.trackProgress_appends sender matchIndex
    exact (h.appends htrack (by simp)).advanceCommitIndex hplain
      (h.current hcurrent) hadvance
  have hignored : some (node, []) = some (node', effects) → node'.Configs p := by
    intro heq
    cases heq
    exact h
  cases message with
  | requestVote request =>
      simp only [step] at hstep
      split at hstep
      · exact hignored hstep
      split at hstep
      · exact hignored hstep
      · exact hsame (onRequestVote_appends hstep)
  | requestVoteResponse response =>
      simp only [step] at hstep
      split at hstep
      · exact hignored hstep
      · exact hsame (onRequestVoteResponse_appends hstep)
  | appendEntries request =>
      simp only [step] at hstep
      split at hstep
      · exact hignored hstep
      · exact h.onAppendEntries hmessage hstep
  | appendEntriesResponse response =>
      simp only [step] at hstep
      split at hstep
      · exact hignored hstep
      · rcases onAppendEntriesResponse_cases hstep with ⟨hadded, -⟩ |
          ⟨-, -, -, matchIndex, first, -, hadvance⟩
        · exact hsame hadded
        · exact hprogress _ first hadvance
  | installSnapshot request =>
      simp only [step] at hstep
      split at hstep
      · exact hignored hstep
      · rcases onInstallSnapshot_cases hstep with hadded | ⟨hempty, hconfig, -⟩
        · exact hsame hadded
        · refine ⟨by simp [hempty], ?_⟩
          rw [hconfig]
          exact hmessage
  | installSnapshotResponse response =>
      simp only [step] at hstep
      split at hstep
      · exact hignored hstep
      · rcases onInstallSnapshotResponse_cases hstep with ⟨hadded, -⟩ |
          ⟨-, -, matchIndex, first, -, hadvance⟩
        · exact hsame hadded
        · exact hprogress _ first hadvance

theorem Configs.perform
    (hplain : ∀ config, p config → p ⟨config.voters, none⟩)
    (h : node.Configs p) (hcurrent : node.ConfigCurrent)
    {operation : Operation} (hbrings : node.Brings p operation)
    (hperform : node.perform operation = some (node', effects)) :
    node'.Configs p := by
  cases operation with
  | tick nextTimeout =>
      have htick : node.onTick nextTimeout = some (node', effects) := hperform
      exact h.appends (onTick_appends htick) (by simp)
  | receive sender message =>
      exact h.receive hplain hcurrent hbrings hperform
  | propose command =>
      obtain ⟨answer, hanswer, hperform⟩ := Option.bind_eq_some_iff.mp hperform
      unfold propose at hanswer
      split at hanswer
      · cases hanswer
        cases hperform
        exact h
      · obtain ⟨_, happended, hanswer⟩ := Option.bind_eq_some_iff.mp hanswer
        cases hanswer
        cases hperform
        have hcommand : LogEntry.Configs p
            ⟨node.currentTerm, .command command⟩ := by
          intro config hconfig
          cases hconfig
        exact h.appendOwn hplain hcommand happended
  | proposeConfigChange newVoters =>
      obtain ⟨answer, hanswer, hperform⟩ := Option.bind_eq_some_iff.mp hperform
      unfold proposeConfigChange at hanswer
      split at hanswer
      · cases hanswer
        cases hperform
        exact h
      · rename_i hserves
        simp only [not_or, ne_eq, not_not, List.isEmpty_iff] at hserves
        have hdropped : (node.dropPromoted newVoters).1.Configs p :=
          ⟨h.log, h.snapshotConfig⟩
        have hentry : ((node.dropPromoted newVoters).1.jointEntry
            newVoters).Configs p := hbrings hserves.1 hserves.2
        generalize node.dropPromoted newVoters = dropped at *
        obtain ⟨remaining, persist⟩ := dropped
        obtain ⟨_, happended, hanswer⟩ := Option.bind_eq_some_iff.mp hanswer
        cases hanswer
        cases hperform
        exact hdropped.appendOwn hplain hentry happended
  | addLearner id =>
      obtain rfl := congrArg Prod.fst (Option.some.inj hperform)
      unfold addLearner
      split <;> exact ⟨h.log, h.snapshotConfig⟩
  | removeLearner id =>
      obtain rfl := congrArg Prod.fst (Option.some.inj hperform)
      unfold removeLearner
      split <;> exact ⟨h.log, h.snapshotConfig⟩
  | compact upToIndex snapshotData =>
      obtain ⟨answer, hanswer, hperform⟩ := Option.bind_eq_some_iff.mp hperform
      rcases answer with _ | ⟨last, rest⟩
      · cases hperform
        exact h
      · cases hperform
        exact h.compact hanswer

/-! ### The configuration in force -/

theorem ConfigCurrent.receive (h : node.ConfigCurrent) {sender : NodeId}
    {message : Message}
    (hstep : node.step (.step sender message) = some (node', effects)) :
    node'.ConfigCurrent := by
  have hsame : Appends node [] node' → node'.ConfigCurrent :=
    fun hadded => hadded.current h
  have hmore : (∃ added, Appends node added node' ∧ NoneJoint added) →
      node'.ConfigCurrent := by
    rintro ⟨added, hadded, -⟩
    exact hadded.current h
  have hignored : some (node, []) = some (node', effects) →
      node'.ConfigCurrent := by
    intro heq
    cases heq
    exact h
  cases message with
  | requestVote request =>
      simp only [step] at hstep
      split at hstep
      · exact hignored hstep
      split at hstep
      · exact hignored hstep
      · exact hsame (onRequestVote_appends hstep)
  | requestVoteResponse response =>
      simp only [step] at hstep
      split at hstep
      · exact hignored hstep
      · exact hsame (onRequestVoteResponse_appends hstep)
  | appendEntries request =>
      simp only [step] at hstep
      split at hstep
      · exact hignored hstep
      · rcases onAppendEntries_cases hstep with ⟨-, rfl⟩ |
          ⟨-, -, -, -, hcurrent, -⟩
        · exact h
        · exact hcurrent h
  | appendEntriesResponse response =>
      simp only [step] at hstep
      split at hstep
      · exact hignored hstep
      · exact hmore (onAppendEntriesResponse_appends hstep)
  | installSnapshot request =>
      simp only [step] at hstep
      split at hstep
      · exact hignored hstep
      · rcases onInstallSnapshot_cases hstep with hadded | ⟨-, -, hcurrent⟩
        · exact hsame hadded
        · exact hcurrent
  | installSnapshotResponse response =>
      simp only [step] at hstep
      split at hstep
      · exact hignored hstep
      · exact hmore (onInstallSnapshotResponse_appends hstep)

/-- A node always works by the latest configuration it holds. -/
theorem ConfigCurrent.perform (h : node.ConfigCurrent) {operation : Operation}
    (hperform : node.perform operation = some (node', effects)) :
    node'.ConfigCurrent := by
  cases operation with
  | tick nextTimeout =>
      have htick : node.onTick nextTimeout = some (node', effects) := hperform
      exact (onTick_appends htick).current h
  | receive sender message => exact h.receive hperform
  | propose command =>
      obtain ⟨answer, hanswer, hperform⟩ := Option.bind_eq_some_iff.mp hperform
      rcases answer with _ | ⟨last, index, rest⟩
      · cases hperform
        exact h
      · cases hperform
        obtain ⟨-, more, hadded, -⟩ := propose_appends hanswer
        exact hadded.current h
  | proposeConfigChange newVoters =>
      obtain ⟨answer, hanswer, hperform⟩ := Option.bind_eq_some_iff.mp hperform
      rcases answer with _ | ⟨last, index, rest⟩
      · cases hperform
        exact h
      · cases hperform
        obtain ⟨-, -, -, more, hadded, -⟩ := proposeConfigChange_appends hanswer
        exact hadded.current h
  | addLearner id =>
      obtain rfl := congrArg Prod.fst (Option.some.inj hperform)
      unfold addLearner
      split <;> exact h
  | removeLearner id =>
      obtain rfl := congrArg Prod.fst (Option.some.inj hperform)
      unfold removeLearner
      split <;> exact h
  | compact upToIndex snapshotData =>
      obtain ⟨answer, hanswer, hperform⟩ := Option.bind_eq_some_iff.mp hperform
      rcases answer with _ | ⟨last, rest⟩
      · cases hperform
        exact h
      · cases hperform
        rcases compact_cases hanswer with ⟨-, rfl, -⟩ |
          ⟨term, config, log, -, -, -, -, -, rfl, -⟩
        · exact h
        · exact configCurrent_recomputeConfig _

end Node

end Kurogane.Raft
