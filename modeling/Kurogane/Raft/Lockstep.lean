import Kurogane.Raft.Configurations

/-!
The configuration in force is cached, with its index, and refreshed by every
operation that touches the log or the snapshot. Over a whole run it stays what
a fresh scan would find: the last `configuration` entry the node holds, or the
one of its snapshot.
-/

namespace Kurogane.Raft

/-! ### The scan -/

theorem latestConfigurationIn_concat (log : List LogEntry) (entry : LogEntry)
    (boundary : Nat) :
    latestConfigurationIn (log ++ [entry]) boundary =
      match entry.payload with
      | .configuration config => some (config, boundary + log.length + 1)
      | .command _ => latestConfigurationIn log boundary := by
  unfold latestConfigurationIn
  cases hpayload : entry.payload <;> simp [List.zipIdx_append, hpayload]

/-- The entry found is in the log, and every later one is a command. -/
theorem latestConfigurationIn_some {log : List LogEntry} {boundary index : Nat}
    {config : ClusterConfig}
    (h : latestConfigurationIn log boundary = some (config, index)) :
    ∃ offset term, index = boundary + offset + 1 ∧
      log[offset]? = some ⟨term, .configuration config⟩ ∧
      ∀ later entry, offset < later → log[later]? = some entry →
        ∀ other, entry.payload ≠ .configuration other := by
  induction log using List.reverseRecOn with
  | nil => cases h
  | append_singleton log last ih =>
      rw [latestConfigurationIn_concat] at h
      cases hpayload : last.payload with
      | configuration found =>
          rw [hpayload] at h
          cases h
          refine ⟨log.length, last.term, rfl, ?_, ?_⟩
          · rw [List.getElem?_concat_length, ← hpayload]
          · intro later entry hlater hentry
            have hinside := (List.getElem?_eq_some_iff.mp hentry).1
            rw [List.length_append, List.length_singleton] at hinside
            omega
      | command bytes =>
          rw [hpayload] at h
          obtain ⟨offset, term, hindex, hoffset, hafter⟩ := ih h
          have hinside := (List.getElem?_eq_some_iff.mp hoffset).1
          refine ⟨offset, term, hindex, ?_, ?_⟩
          · rw [List.getElem?_append_left hinside, hoffset]
          · intro later entry hlater hentry other
            rcases Nat.lt_or_ge later log.length with hold | hnew
            · rw [List.getElem?_append_left hold] at hentry
              exact hafter later entry hlater hentry other
            · rw [List.getElem?_append_right hnew] at hentry
              have hmem := List.mem_of_getElem? hentry
              rw [List.mem_singleton.mp hmem, hpayload]
              nofun

theorem latestConfigurationIn_none {log : List LogEntry} {boundary : Nat}
    (h : latestConfigurationIn log boundary = none) :
    ∀ entry ∈ log, ∀ config, entry.payload ≠ .configuration config := by
  induction log using List.reverseRecOn with
  | nil => exact fun _ hmem => absurd hmem List.not_mem_nil
  | append_singleton log last ih =>
      rw [latestConfigurationIn_concat] at h
      cases hpayload : last.payload with
      | configuration found =>
          rw [hpayload] at h
          cases h
      | command bytes =>
          rw [hpayload] at h
          intro entry hmem
          rcases List.mem_append.mp hmem with hold | hnew
          · exact ih h entry hold
          · rw [List.mem_singleton.mp hnew, hpayload]
            nofun

namespace Node

/-- A node as its three constructors build it. -/
inductive Built (node : Node) : Prop
  | new {id : NodeId} {peers : List NodeId} {electionTimeout heartbeatInterval : Nat} :
      new id peers electionTimeout heartbeatInterval = .ok node → Built node
  | recover {id : NodeId} {peers : List NodeId} {electionTimeout heartbeatInterval : Nat}
      {hardState : HardState} {log : List LogEntry} {snapshot : Snapshot}
      {learners : List NodeId} :
      recover id peers electionTimeout heartbeatInterval hardState log snapshot
        learners = .ok node → Built node
  | newLearner {id : NodeId} {electionTimeout heartbeatInterval : Nat} :
      newLearner id electionTimeout heartbeatInterval = .ok node → Built node

/-- The last `configuration` entry of the log is at `index` and holds `config`. -/
def LatestAt (node : Node) (index : Nat) (config : ClusterConfig) : Prop :=
  (∃ term, node.entryAt index = some ⟨term, .configuration config⟩) ∧
    ∀ later entry, index < later → node.entryAt later = some entry →
      ∀ other, entry.payload ≠ .configuration other

/-- The log holds commands only. -/
def HoldsNone (node : Node) : Prop :=
  ∀ index entry, node.entryAt index = some entry →
    ∀ config, entry.payload ≠ .configuration config

variable {node : Node}

theorem Built.current (h : Built node) : node.ConfigCurrent := by
  have hrecovered : ∀ {id peers electionTimeout heartbeatInterval hardState log snapshot
      learners}, Node.recover id peers electionTimeout heartbeatInterval hardState log
        snapshot learners = .ok node → node.ConfigCurrent := by
    intro id peers electionTimeout heartbeatInterval hardState log snapshot learners hbuilt
    obtain ⟨-, -, -, -, -, -, hcurrent⟩ := recover_ok hbuilt
    exact hcurrent
  cases h with
  | new hnew => exact hrecovered hnew
  | recover hbuilt => exact hrecovered hbuilt
  | newLearner hlearner =>
      unfold Node.newLearner at hlearner
      split at hlearner
      · cases hlearner
      split at hlearner
      · cases hlearner
      split at hlearner
      · cases hlearner
      cases hlearner
      rfl

theorem entryAt_eq_some {index : Nat} {entry : LogEntry} :
    node.entryAt index = some entry ↔
      ∃ offset, index = node.snapshot.lastIncludedIndex + offset + 1 ∧
        node.log[offset]? = some entry := by
  unfold entryAt vecIndex
  constructor
  · intro h
    split at h
    · cases h
    · exact ⟨index - node.snapshot.lastIncludedIndex - 1, by omega, h⟩
  · rintro ⟨offset, rfl, h⟩
    rw [if_neg (by omega), ← h]
    congr 1
    omega

/-- What the scan finds, read off the entries. -/
theorem latest_of_scan :
    (∃ config index, latestConfigurationIn node.log node.snapshot.lastIncludedIndex =
        some (config, index) ∧ node.LatestAt index config) ∨
      (latestConfigurationIn node.log node.snapshot.lastIncludedIndex = none ∧
        node.HoldsNone) := by
  cases hscan : latestConfigurationIn node.log node.snapshot.lastIncludedIndex with
  | none =>
      refine Or.inr ⟨rfl, ?_⟩
      intro index entry hentry
      obtain ⟨offset, -, hoffset⟩ := entryAt_eq_some.mp hentry
      exact latestConfigurationIn_none hscan entry (List.mem_of_getElem? hoffset)
  | some found =>
      obtain ⟨config, index⟩ := found
      obtain ⟨offset, term, hindex, hoffset, hafter⟩ := latestConfigurationIn_some hscan
      refine Or.inl ⟨config, index, rfl, ?_, ?_⟩
      · exact ⟨term, entryAt_eq_some.mpr ⟨offset, hindex, hoffset⟩⟩
      · intro later entry hlater hentry
        obtain ⟨offset', hindex', hoffset'⟩ := entryAt_eq_some.mp hentry
        exact hafter offset' entry (by omega) hoffset'

/-- The last `configuration` entry is at one index only. -/
theorem LatestAt.unique {first second : Nat} {config config' : ClusterConfig}
    (hfirst : node.LatestAt first config) (hsecond : node.LatestAt second config') :
    first = second ∧ config = config' := by
  obtain ⟨⟨term, hentry⟩, hafter⟩ := hfirst
  obtain ⟨⟨term', hentry'⟩, hafter'⟩ := hsecond
  rcases Nat.lt_trichotomy first second with hlt | rfl | hgt
  · exact absurd rfl (hafter second _ hlt hentry' config')
  · rw [hentry] at hentry'
    cases hentry'
    exact ⟨rfl, rfl⟩
  · exact absurd rfl (hafter' first _ hgt hentry config)

/-- However a node was built and whatever it has served since, the cached
configuration and index are those of a fresh scan. -/
theorem configuration_in_lockstep {start : Node} {operations : List Operation}
    {batches : List (List Effect)} (hstart : Built start)
    (hrun : start.performAll operations = some (node, batches)) :
    (node.currentConfig, node.currentConfigIndex) =
        (latestConfigurationIn node.log node.snapshot.lastIncludedIndex).getD
          (node.snapshotConfig, node.snapshot.lastIncludedIndex) ∧
      (∀ index config, node.LatestAt index config →
        node.currentConfig = config ∧ node.currentConfigIndex = index) ∧
      (node.HoldsNone → node.currentConfig = node.snapshotConfig ∧
        node.currentConfigIndex = node.snapshot.lastIncludedIndex) := by
  have hcurrent : node.ConfigCurrent :=
    performAll_invariant ConfigCurrent
      (fun _ _ _ _ hnode hperform => hnode.perform hperform) hstart.current hrun
  have hpair := hcurrent
  unfold ConfigCurrent at hpair
  refine ⟨hcurrent, ?_, ?_⟩
  · intro index config hlatest
    rcases node.latest_of_scan with ⟨found, place, hscan, hfound⟩ | ⟨-, hnone⟩
    · obtain ⟨rfl, rfl⟩ := hlatest.unique hfound
      rw [hscan] at hpair
      exact Prod.mk.inj hpair
    · obtain ⟨term, hentry⟩ := hlatest.1
      exact absurd rfl (hnone index _ hentry config)
  · intro hnone
    rcases node.latest_of_scan with ⟨found, place, -, hfound⟩ | ⟨hscan, -⟩
    · obtain ⟨term, hentry⟩ := hfound.1
      exact absurd rfl (hnone place _ hentry found)
    · rw [hscan] at hpair
      exact Prod.mk.inj hpair

/-- One of three servers leads, opens a change of membership and is told by the
next leader that the index is a command's. -/
def changeUndone : List Operation :=
  [.tick 1, .receive ⟨2⟩ (.requestVoteResponse ⟨1, true⟩),
    .proposeConfigChange [⟨1⟩, ⟨2⟩],
    .receive ⟨3⟩ (.appendEntries ⟨2, ⟨3⟩, 0, 0, [⟨2, .command [7]⟩], 1⟩),
    .compact 1 [9]]

theorem undone_change_in_lockstep :
    ∃ start node batches, new ⟨1⟩ [⟨1⟩, ⟨2⟩, ⟨3⟩] 1 1 = .ok start ∧
      start.performAll changeUndone = some (node, batches) ∧
      node.snapshot.lastIncludedIndex = 1 ∧
      node.currentConfig = ⟨[⟨1⟩, ⟨2⟩, ⟨3⟩], none⟩ ∧
      (node.currentConfig, node.currentConfigIndex) =
        (latestConfigurationIn node.log node.snapshot.lastIncludedIndex).getD
          (node.snapshotConfig, node.snapshot.lastIncludedIndex) := by
  obtain ⟨start, node, batches, hnew, hrun, hboundary, hconfig⟩ :=
    performAll_of_check ⟨1⟩ [⟨1⟩, ⟨2⟩, ⟨3⟩] 1 1 changeUndone
      (fun node => node.snapshot.lastIncludedIndex = 1 ∧
        node.currentConfig = ⟨[⟨1⟩, ⟨2⟩, ⟨3⟩], none⟩) (by decide +kernel)
  exact ⟨start, node, batches, hnew, hrun, hboundary, hconfig,
    (configuration_in_lockstep (.new hnew) hrun).1⟩

end Node

end Kurogane.Raft
