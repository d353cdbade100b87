import Kurogane.Raft.Transitions

/-!
Durable storage of one node: the record every `Persist*` effect updates, and
the abstract durable state of a node it stands for. `Durable.record` is the
meaning of one effect; `Storage.apply` refines it, whatever order the learners
are listed in and whatever configuration is stored before the first snapshot.
-/

namespace Kurogane.Raft

/-- Everything of a node that survives a crash. -/
structure Durable where
  hardState : HardState
  log : List LogEntry
  snapshot : Snapshot
  learners : NodeSet
deriving DecidableEq

namespace Node

def durable (node : Node) : Durable where
  hardState := ⟨node.currentTerm, node.votedFor⟩
  log := node.log
  snapshot := ⟨node.snapshot, node.snapshotData, node.snapshotConfig⟩
  learners := node.learners

/-- What `recover` builds, when it accepts its arguments. -/
theorem recover_ok {node : Node} {id : NodeId} {peers : List NodeId}
    {electionTimeout heartbeatInterval : Nat} {hardState : HardState}
    {log : List LogEntry} {snapshot : Snapshot} {learners : List NodeId}
    (hrecover : recover id peers electionTimeout heartbeatInterval
      hardState log snapshot learners = .ok node) :
    id ∈ peers ∧ node.id = id ∧ node.role = .follower ∧ node.nextIndex = ∅ ∧
      node.commitIndex = snapshot.metadata.lastIncludedIndex ∧
      node.durable = ⟨hardState, log, ⟨snapshot.metadata, snapshot.data,
        if snapshot.metadata.lastIncludedIndex > 0 then snapshot.config
        else ⟨peers, none⟩⟩, .ofList learners⟩ ∧
      (node.currentConfig, node.currentConfigIndex) =
        (latestConfigurationIn node.log node.snapshot.lastIncludedIndex).getD
          (node.snapshotConfig, node.snapshot.lastIncludedIndex) := by
  unfold recover at hrecover
  split at hrecover
  · cases hrecover
  split at hrecover
  · cases hrecover
  split at hrecover
  · cases hrecover
  rename_i hmember
  split at hrecover
  · cases hrecover
  split at hrecover
  · cases hrecover
  split at hrecover
  · cases hrecover
  cases hrecover
  exact ⟨by simpa using hmember, rfl, rfl, rfl, rfl, rfl, rfl⟩

/-- What `new_learner` builds, when it accepts its arguments. -/
theorem newLearner_ok {node : Node} {id : NodeId}
    {electionTimeout heartbeatInterval : Nat}
    (hnew : newLearner id electionTimeout heartbeatInterval = .ok node) :
    node.id = id ∧ node.role = .follower ∧
      node.durable = ⟨.default, [], .default, ∅⟩ := by
  unfold newLearner at hnew
  split at hnew
  · cases hnew
  split at hnew
  · cases hnew
  split at hnew
  · cases hnew
  cases hnew
  exact ⟨rfl, rfl, rfl⟩

end Node

namespace Durable

/-- The index just below the first entry of the log. -/
def boundary (durable : Durable) : Nat :=
  durable.snapshot.metadata.lastIncludedIndex

/-- The meaning of one effect. A log splice at or below the boundary has no
meaning: the offset of its first entry would be negative. -/
def record (durable : Durable) : Effect → Option Durable
  | .send _ _ => some durable
  | .persistHardState term votedFor =>
      some { durable with hardState := ⟨term, votedFor⟩ }
  | .persistLog fromIndex entries =>
      if fromIndex ≤ durable.boundary then none
      else some { durable with
        log := durable.log.take (fromIndex - durable.boundary - 1) ++ entries }
  | .persistSnapshot lastIncludedIndex lastIncludedTerm data config =>
      some { durable with
        snapshot := ⟨⟨lastIncludedIndex, lastIncludedTerm⟩, data, config⟩ }
  | .persistLearners learners =>
      some { durable with learners := .ofList learners }

def recordAll (durable : Durable) (effects : List Effect) : Option Durable :=
  effects.foldlM record durable

@[simp] theorem recordAll_nil (durable : Durable) :
    durable.recordAll [] = some durable := rfl

@[simp] theorem recordAll_cons (durable : Durable) (effect : Effect)
    (rest : List Effect) :
    durable.recordAll (effect :: rest) =
      (durable.record effect).bind (fun next => next.recordAll rest) := rfl

theorem recordAll_append (durable : Durable) (first second : List Effect) :
    durable.recordAll (first ++ second) =
      (durable.recordAll first).bind (fun next => next.recordAll second) := by
  simp only [recordAll, List.foldlM_append]
  rfl

/-- If a batch can be recorded, so can every part of it a crash leaves. -/
theorem recordAll_take {durable durable' : Durable} {effects : List Effect}
    (h : durable.recordAll effects = some durable') (written : Nat) :
    ∃ partly, durable.recordAll (effects.take written) = some partly := by
  rw [← List.take_append_drop written effects, recordAll_append] at h
  obtain ⟨partly, hpartly, -⟩ := Option.bind_eq_some_iff.mp h
  exact ⟨partly, hpartly⟩

theorem record_persistLog (durable : Durable) {fromIndex : Nat}
    (entries : List LogEntry) (h : durable.boundary < fromIndex) :
    durable.record (.persistLog fromIndex entries) = some { durable with
      log := durable.log.take (fromIndex - durable.boundary - 1) ++ entries } :=
  if_neg (Nat.not_le.mpr h)

/-- A new snapshot followed by the splice just above it replaces the log. -/
theorem recordAll_snapshot (durable : Durable) (lastIncludedIndex
    lastIncludedTerm : Nat) (data : Bytes) (config : ClusterConfig)
    (entries : List LogEntry) :
    durable.recordAll
      [.persistSnapshot lastIncludedIndex lastIncludedTerm data config,
        .persistLog (lastIncludedIndex + 1) entries] =
      some { durable with
        log := entries
        snapshot := ⟨⟨lastIncludedIndex, lastIncludedTerm⟩, data, config⟩ } := by
  have hsplice := record_persistLog { durable with
    snapshot := ⟨⟨lastIncludedIndex, lastIncludedTerm⟩, data, config⟩ }
    entries (Nat.lt_succ_self lastIncludedIndex)
  rw [recordAll_cons, record, Option.bind_some, recordAll_cons, hsplice]
  simp [boundary]

theorem record_send (durable : Durable) {effect : Effect}
    (heffect : effect.isSend = true) :
    durable.record effect = some durable := by
  cases effect <;> simp_all [Effect.isSend, record]

theorem recordAll_sends (durable : Durable) {effects : List Effect}
    (hsends : ∀ effect ∈ effects, effect.isSend = true) :
    durable.recordAll effects = some durable := by
  induction effects with
  | nil => rfl
  | cons effect rest ih =>
      rw [recordAll_cons, record_send durable (hsends effect (by simp))]
      exact ih (fun e he => hsends e (List.mem_cons_of_mem _ he))

end Durable

end Kurogane.Raft

namespace Kurogane.Runtime

open Kurogane.Raft

/-- The in-memory part of the storage of one node. -/
structure Storage where
  hardState : HardState
  log : List LogEntry
  snapshot : SnapshotMetadata
  snapshotData : Bytes
  snapshotConfig : ClusterConfig
  learners : List NodeId
deriving DecidableEq

namespace Storage

/-- What a missing file stands for. -/
def fresh : Storage where
  hardState := .default
  log := []
  snapshot := .default
  snapshotData := []
  snapshotConfig := .default
  learners := []

/-- The update `apply` makes before it flushes. `none` is the panic of a
subtraction that underflows, in a build that checks it. -/
def apply (storage : Storage) : Effect → Option Storage
  | .persistHardState term votedFor =>
      some { storage with hardState := ⟨term, votedFor⟩ }
  | .persistLog fromIndex entries =>
      if fromIndex < storage.snapshot.lastIncludedIndex + 1 then none
      else some { storage with
        log := storage.log.take
          (fromIndex - storage.snapshot.lastIncludedIndex - 1) ++ entries }
  | .persistSnapshot lastIncludedIndex lastIncludedTerm data config =>
      some { storage with
        snapshot := ⟨lastIncludedIndex, lastIncludedTerm⟩
        snapshotData := data
        snapshotConfig := config }
  | .send _ _ => some storage
  | .persistLearners learners => some { storage with learners }

def applyAll (storage : Storage) (effects : List Effect) : Option Storage :=
  effects.foldlM apply storage

/-- `storage` holds `durable`. The configuration only counts once a snapshot
exists, and the learners are a set. -/
structure Mirrors (storage : Storage) (durable : Durable) : Prop where
  hardState : storage.hardState = durable.hardState
  log : storage.log = durable.log
  snapshot : storage.snapshot = durable.snapshot.metadata
  snapshotData : storage.snapshotData = durable.snapshot.data
  snapshotConfig : 0 < durable.boundary →
    storage.snapshotConfig = durable.snapshot.config
  learners : Std.ExtTreeSet.ofList storage.learners = durable.learners

/-- A write-ahead effect moves the storage exactly as it moves the durable
state it mirrors. -/
theorem Mirrors.apply {storage : Storage} {durable durable' : Durable}
    (h : storage.Mirrors durable) {effect : Effect}
    (hrecord : durable.record effect = some durable') :
    ∃ storage', storage.apply effect = some storage' ∧
      storage'.Mirrors durable' := by
  cases effect with
  | send receiver message =>
      cases hrecord
      exact ⟨storage, rfl, h⟩
  | persistHardState term votedFor =>
      cases hrecord
      exact ⟨_, rfl, rfl, h.log, h.snapshot, h.snapshotData,
        h.snapshotConfig, h.learners⟩
  | persistLog fromIndex entries =>
      simp only [Durable.record, Option.ite_none_left_eq_some] at hrecord
      obtain ⟨hfrom, hrecord⟩ := hrecord
      cases hrecord
      have hindex : storage.snapshot.lastIncludedIndex = durable.boundary := by
        rw [h.snapshot]
        rfl
      refine ⟨_, if_neg ?_, h.hardState, ?_, h.snapshot, h.snapshotData,
        h.snapshotConfig, h.learners⟩
      · omega
      · simp only [hindex, h.log]
  | persistSnapshot lastIncludedIndex lastIncludedTerm data config =>
      cases hrecord
      exact ⟨_, rfl, h.hardState, h.log, rfl, rfl, fun _ => rfl, h.learners⟩
  | persistLearners learners =>
      cases hrecord
      exact ⟨_, rfl, h.hardState, h.log, h.snapshot, h.snapshotData,
        h.snapshotConfig, rfl⟩

theorem Mirrors.applyAll {storage : Storage} {durable durable' : Durable}
    (h : storage.Mirrors durable) {effects : List Effect}
    (hrecord : durable.recordAll effects = some durable') :
    ∃ storage', storage.applyAll effects = some storage' ∧
      storage'.Mirrors durable' := by
  induction effects generalizing storage durable with
  | nil =>
      cases hrecord
      exact ⟨storage, rfl, h⟩
  | cons effect rest ih =>
      rw [Durable.recordAll_cons] at hrecord
      obtain ⟨next, hnext, hrest⟩ := Option.bind_eq_some_iff.mp hrecord
      obtain ⟨storage₁, happly, h₁⟩ := h.apply hnext
      obtain ⟨storage₂, hall, h₂⟩ := ih h₁ hrest
      refine ⟨storage₂, ?_, h₂⟩
      simp only [Storage.applyAll, List.foldlM_cons, happly]
      exact hall

/-- Only a snapshot effect changes the snapshot that is stored. -/
theorem applyAll_snapshot {effects : List Effect} :
    ∀ {storage storage' : Storage}, storage.applyAll effects = some storage' →
      storage'.snapshot = storage.snapshot ∨
        ∃ index term data config,
          .persistSnapshot index term data config ∈ effects ∧
            storage'.snapshot = ⟨index, term⟩ := by
  induction effects with
  | nil =>
      intro storage storage' h
      cases h
      exact Or.inl rfl
  | cons effect rest ih =>
      intro storage storage' h
      obtain ⟨next, hnext, hrest⟩ := Option.bind_eq_some_iff.mp h
      rcases ih hrest with hsame | ⟨index, term, data, config, hmem, hlast⟩
      · cases effect with
        | persistSnapshot index term data config =>
            cases hnext
            exact Or.inr ⟨index, term, data, config, List.mem_cons_self, hsame⟩
        | persistLog fromIndex entries =>
            simp only [apply, Option.ite_none_left_eq_some] at hnext
            cases hnext.2
            exact Or.inl hsame
        | send receiver message =>
            cases hnext
            exact Or.inl hsame
        | persistHardState term votedFor =>
            cases hnext
            exact Or.inl hsame
        | persistLearners learners =>
            cases hnext
            exact Or.inl hsame
      · exact Or.inr ⟨index, term, data, config,
          List.mem_cons_of_mem _ hmem, hlast⟩

end Storage

end Kurogane.Runtime
