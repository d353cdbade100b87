import Kurogane.Runtime.Storage
import Kurogane.Wire.Format

/-!
The record a storage file holds, the conversions between it and the storage in
memory, and its encoding on the wire. An empty list of old voters stands for
no old voters at all, so the conversion is only faithful to configurations in
which the old voters, if there are any, are not empty.
-/

namespace Kurogane.Raft

/-- Configurations as they are decoded from the wire. -/
def ClusterConfig.OnWire (config : ClusterConfig) : Prop :=
  config.oldVoters ≠ some []

def LogEntry.OnWire (entry : LogEntry) : Prop :=
  ∀ config, entry.payload = .configuration config → config.OnWire

end Kurogane.Raft

namespace Kurogane.Runtime.Proto

open Kurogane.Raft

structure Configuration where
  voters : List Nat
  oldVoters : List Nat
deriving DecidableEq, Repr

/-- The `oneof payload` of a log entry. -/
inductive Payload where
  | command (bytes : Bytes)
  | configuration (configuration : Configuration)
deriving DecidableEq, Repr

structure LogEntry where
  term : Nat
  payload : Option Payload
deriving DecidableEq, Repr

structure StorageState where
  currentTerm : Nat
  votedFor : Option Nat
  log : List LogEntry
  snapshotLastIncludedIndex : Nat
  snapshotLastIncludedTerm : Nat
  snapshotData : Bytes
  learners : List Nat
  snapshotConfig : Option Configuration
deriving DecidableEq, Repr

end Kurogane.Runtime.Proto

namespace Kurogane.Runtime

open Kurogane.Raft

/-- Why a storage file is refused. -/
inductive InvalidData where
  | malformedRecord
  | missingLogEntryPayload
deriving DecidableEq, Repr

def configurationFromProto (proto : Proto.Configuration) : ClusterConfig where
  voters := proto.voters.map NodeId.mk
  oldVoters :=
    if proto.oldVoters.isEmpty then none
    else some (proto.oldVoters.map NodeId.mk)

def configurationToProto (value : ClusterConfig) : Proto.Configuration where
  voters := value.voters.map NodeId.id
  oldVoters := (value.oldVoters.getD []).map NodeId.id

def logEntryFromProto (proto : Proto.LogEntry) : Except InvalidData LogEntry :=
  match proto.payload with
  | none => .error .missingLogEntryPayload
  | some (.command bytes) => .ok ⟨proto.term, .command bytes⟩
  | some (.configuration configuration) =>
      .ok ⟨proto.term, .configuration (configurationFromProto configuration)⟩

def logEntryToProto (value : LogEntry) : Proto.LogEntry where
  term := value.term
  payload :=
    match value.payload with
    | .command bytes => some (.command bytes)
    | .configuration configuration =>
        some (.configuration (configurationToProto configuration))

theorem configurationFromProto_onWire (proto : Proto.Configuration) :
    (configurationFromProto proto).OnWire := by
  unfold configurationFromProto ClusterConfig.OnWire
  dsimp only
  split
  · nofun
  · rename_i hnonempty
    simpa using hnonempty

theorem logEntryFromProto_onWire {proto : Proto.LogEntry} {entry : LogEntry}
    (h : logEntryFromProto proto = .ok entry) : entry.OnWire := by
  unfold logEntryFromProto at h
  intro config hconfig
  split at h
  · cases h
  · cases h
    cases hconfig
  · cases h
    cases hconfig
    exact configurationFromProto_onWire _

@[simp] theorem mk_comp_id : NodeId.mk ∘ NodeId.id = id := rfl

theorem configuration_round_trip {config : ClusterConfig}
    (hwire : config.OnWire) :
    configurationFromProto (configurationToProto config) = config := by
  obtain ⟨voters, oldVoters⟩ := config
  rw [configurationFromProto, configurationToProto]
  rcases oldVoters with _ | oldVoters
  · simp
  · have hne : oldVoters ≠ [] := fun hnil => hwire (congrArg some hnil)
    simp [hne]

theorem logEntry_round_trip {entry : LogEntry} (hwire : entry.OnWire) :
    logEntryFromProto (logEntryToProto entry) = .ok entry := by
  obtain ⟨term, payload⟩ := entry
  cases payload with
  | command bytes => rfl
  | configuration config =>
      rw [logEntryFromProto, logEntryToProto]
      dsimp only
      rw [configuration_round_trip (hwire config rfl)]

theorem log_round_trip {log : List LogEntry}
    (hwire : ∀ entry ∈ log, entry.OnWire) :
    (log.map logEntryToProto).mapM logEntryFromProto = .ok log := by
  induction log with
  | nil => rfl
  | cons entry rest ih =>
      obtain ⟨hentry, hrest⟩ := List.forall_mem_cons.mp hwire
      rw [List.map_cons, List.mapM_cons, logEntry_round_trip hentry, ih hrest]
      rfl

theorem mapM_logEntryFromProto_onWire {protos : List Proto.LogEntry} :
    ∀ {log : List LogEntry}, protos.mapM logEntryFromProto = .ok log →
      ∀ entry ∈ log, entry.OnWire := by
  induction protos with
  | nil =>
      intro log h
      cases h
      simp
  | cons proto rest ih =>
      intro log h
      rw [List.mapM_cons] at h
      cases hentry : logEntryFromProto proto with
      | error e =>
          rw [hentry] at h
          cases h
      | ok entry =>
          cases hlog : rest.mapM logEntryFromProto with
          | error e =>
              rw [hentry, hlog] at h
              cases h
          | ok log' =>
              rw [hentry, hlog] at h
              cases h
              exact List.forall_mem_cons.mpr
                ⟨logEntryFromProto_onWire hentry, ih hlog⟩

namespace Storage

/-- What `flush` writes. -/
def toProto (storage : Storage) : Proto.StorageState where
  currentTerm := storage.hardState.currentTerm
  votedFor := storage.hardState.votedFor.map NodeId.id
  log := storage.log.map logEntryToProto
  snapshotLastIncludedIndex := storage.snapshot.lastIncludedIndex
  snapshotLastIncludedTerm := storage.snapshot.lastIncludedTerm
  snapshotData := storage.snapshotData
  learners := storage.learners.map NodeId.id
  snapshotConfig := some (configurationToProto storage.snapshotConfig)

/-- What `open` makes of a record. -/
def fromProto (record : Proto.StorageState) : Except InvalidData Storage := do
  let log ← record.log.mapM logEntryFromProto
  .ok {
    hardState := ⟨record.currentTerm, record.votedFor.map NodeId.mk⟩
    log
    snapshot :=
      ⟨record.snapshotLastIncludedIndex, record.snapshotLastIncludedTerm⟩
    snapshotData := record.snapshotData
    snapshotConfig :=
      (record.snapshotConfig.map configurationFromProto).getD .default
    learners := record.learners.map NodeId.mk }

/-- All configurations of `storage` are ones the wire can carry. -/
structure OnWire (storage : Storage) : Prop where
  log : ∀ entry ∈ storage.log, entry.OnWire
  snapshotConfig : storage.snapshotConfig.OnWire

theorem fresh_onWire : fresh.OnWire :=
  ⟨by simp [fresh], nofun⟩

theorem fromProto_onWire {record : Proto.StorageState} {storage : Storage}
    (h : fromProto record = .ok storage) : storage.OnWire := by
  unfold fromProto at h
  cases hlog : record.log.mapM logEntryFromProto with
  | error e =>
      rw [hlog] at h
      cases h
  | ok log =>
      rw [hlog] at h
      cases h
      refine ⟨mapM_logEntryFromProto_onWire hlog, ?_⟩
      cases record.snapshotConfig with
      | none => exact fresh_onWire.snapshotConfig
      | some config => exact configurationFromProto_onWire config

theorem round_trip {storage : Storage} (hwire : storage.OnWire) :
    fromProto storage.toProto = .ok storage := by
  have hvoted : (storage.hardState.votedFor.map NodeId.id).map NodeId.mk =
      storage.hardState.votedFor := by
    cases storage.hardState.votedFor <;> rfl
  rw [fromProto, toProto]
  dsimp only
  rw [log_round_trip hwire.log, hvoted, List.map_map, mk_comp_id, List.map_id,
    Option.map_some, configuration_round_trip hwire.snapshotConfig]
  rfl

end Storage

end Kurogane.Runtime
