import Kurogane.Runtime.Records

/-!
Storage with its file. Every write flushes the whole record, so the file is
either missing or holds the last storage. How a record becomes bytes is left
to a codec; the protocol buffer encoding of the record is one.
-/

namespace Kurogane.Runtime

open Kurogane.Raft

/-- How records are encoded. -/
structure Codec where
  encode : Proto.StorageState → Bytes
  decode : Bytes → Option Proto.StorageState

/-- Decoding inverts encoding. -/
def Codec.Inverts (codec : Codec) : Prop :=
  ∀ record, codec.decode (codec.encode record) = some record

/-- A storage and the contents of the file at its path. -/
structure Disk where
  storage : Storage
  file : Option Bytes
deriving DecidableEq

namespace Codec

variable (codec : Codec)

/-- A missing file means a fresh node. -/
def openFile (file : Option Bytes) : Except InvalidData Disk :=
  match file with
  | none => .ok ⟨.fresh, none⟩
  | some bytes =>
      match codec.decode bytes with
      | none => .error .malformedRecord
      | some record => do
          let storage ← Storage.fromProto record
          .ok ⟨storage, some bytes⟩

def flush (storage : Storage) : Disk :=
  ⟨storage, some (codec.encode storage.toProto)⟩

/-- Records one effect. A message is not persistence and is not flushed. -/
def apply (disk : Disk) (effect : Effect) : Option Disk := do
  let storage ← disk.storage.apply effect
  if effect.isSend then some disk else some (codec.flush storage)

def applyAll (disk : Disk) (effects : List Effect) : Option Disk :=
  effects.foldlM codec.apply disk

variable {codec}

/-- The file is still the one the storage was opened from, or has been written
since. -/
def Synced (codec : Codec) (disk : Disk) : Prop :=
  codec.openFile disk.file = .ok disk ∨ disk = codec.flush disk.storage

theorem openFile_onWire {file : Option Bytes} {disk : Disk}
    (h : codec.openFile file = .ok disk) :
    disk.storage.OnWire ∧ codec.Synced disk := by
  have hopen := h
  unfold openFile at h
  split at h
  · cases h
    exact ⟨Storage.fresh_onWire, Or.inl rfl⟩
  · split at h
    · cases h
    · rename_i record hdecode
      cases hstorage : Storage.fromProto record with
      | error e =>
          rw [hstorage] at h
          cases h
      | ok storage =>
          rw [hstorage] at h
          cases h
          exact ⟨Storage.fromProto_onWire hstorage, Or.inl hopen⟩

/-- A file that is up to date reads as the storage in memory. -/
theorem Synced.reopens (hcodec : codec.Inverts) {disk : Disk}
    (h : codec.Synced disk) (hwire : disk.storage.OnWire) :
    codec.openFile disk.file = .ok disk := by
  rcases h with hopen | hflush
  · exact hopen
  · rw [hflush, flush, openFile, hcodec]
    dsimp only
    rw [Storage.round_trip hwire]
    rfl

theorem Synced.apply {disk disk' : Disk} (h : codec.Synced disk)
    {effect : Effect} (happly : codec.apply disk effect = some disk') :
    codec.Synced disk' := by
  obtain ⟨storage, -, happly⟩ := Option.bind_eq_some_iff.mp happly
  split at happly
  · cases happly
    exact h
  · cases happly
    exact Or.inr rfl

/-- Applying an effect acts on the storage as `Storage.apply` does. -/
theorem apply_storage {disk : Disk} {effect : Effect} {storage : Storage}
    (happly : disk.storage.apply effect = some storage) :
    ∃ disk', codec.apply disk effect = some disk' ∧
      disk'.storage = storage := by
  rw [Codec.apply, happly, Option.bind_eq_bind, Option.bind_some]
  cases effect with
  | send receiver message =>
      cases happly
      exact ⟨disk, rfl, rfl⟩
  | persistHardState term votedFor => exact ⟨_, rfl, rfl⟩
  | persistLog fromIndex entries => exact ⟨_, rfl, rfl⟩
  | persistSnapshot index term data config => exact ⟨_, rfl, rfl⟩
  | persistLearners learners => exact ⟨_, rfl, rfl⟩

theorem applyAll_storage {effects : List Effect} :
    ∀ {disk : Disk} {storage : Storage}, codec.Synced disk →
      disk.storage.applyAll effects = some storage →
      ∃ disk', codec.applyAll disk effects = some disk' ∧
        disk'.storage = storage ∧ codec.Synced disk' := by
  induction effects with
  | nil =>
      intro disk storage h happly
      cases happly
      exact ⟨disk, rfl, rfl, h⟩
  | cons effect rest ih =>
      intro disk storage h happly
      obtain ⟨next, hnext, happly⟩ := Option.bind_eq_some_iff.mp happly
      obtain ⟨disk₁, hdisk₁, rfl⟩ := @apply_storage codec _ _ _ hnext
      obtain ⟨disk₂, hdisk₂, hstorage, hsynced⟩ := ih (h.apply hdisk₁) happly
      exact ⟨disk₂, Option.bind_eq_some_iff.mpr ⟨disk₁, hdisk₁, hdisk₂⟩,
        hstorage, hsynced⟩

theorem applyAll_append {disk disk₁ disk₂ : Disk} {first second : List Effect}
    (h₁ : codec.applyAll disk first = some disk₁)
    (h₂ : codec.applyAll disk₁ second = some disk₂) :
    codec.applyAll disk (first ++ second) = some disk₂ := by
  rw [applyAll, List.foldlM_append]
  exact Option.bind_eq_some_iff.mpr ⟨disk₁, h₁, h₂⟩

end Codec

namespace Proto

open Wire hiding Bytes

def varint? : Value → Option Nat
  | .varint n => some n
  | .delimited _ => none

def payload? : Value → Option Bytes
  | .delimited payload => some payload
  | .varint _ => none

/-- A repeated number is read packed or one by one. -/
def appendNumbers (ns : List Nat) : Value → Option (List Nat)
  | .varint n => some (ns ++ [n])
  | .delimited payload => (getPacked payload).map (ns ++ ·)

def Configuration.empty : Configuration := ⟨[], []⟩

def Configuration.fields (config : Configuration) : List Field :=
  packed 1 config.voters ++ packed 2 config.oldVoters

/-- Fields of an unknown number are skipped. -/
def Configuration.update (config : Configuration) (field : Field) :
    Option Configuration :=
  match field.number with
  | 1 => (appendNumbers config.voters field.value).map
      (fun voters => { config with voters })
  | 2 => (appendNumbers config.oldVoters field.value).map
      (fun oldVoters => { config with oldVoters })
  | _ => some config

def LogEntry.empty : LogEntry := ⟨0, none⟩

def Payload.fields : Payload → List Field
  | .command bytes => [⟨2, .delimited bytes⟩]
  | .configuration config => [message 3 config.fields]

def LogEntry.fields (entry : LogEntry) : List Field :=
  scalar 1 entry.term ++ (entry.payload.map Payload.fields).getD []

/-- A second occurrence of a configuration is merged into the first. -/
def LogEntry.configuration (entry : LogEntry) : Configuration :=
  match entry.payload with
  | some (.configuration config) => config
  | _ => .empty

def readInto {μ : Type} (update : μ → Field → Option μ) (partly : μ)
    (value : Value) : Option μ := do
  let payload ← payload? value
  let fields ← getFields payload
  fields.foldlM update partly

def LogEntry.update (entry : LogEntry) (field : Field) : Option LogEntry :=
  match field.number with
  | 1 => (varint? field.value).map (fun term => { entry with term })
  | 2 => (payload? field.value).map
      (fun bytes => { entry with payload := some (.command bytes) })
  | 3 => (readInto Configuration.update entry.configuration field.value).map
      (fun config => { entry with payload := some (.configuration config) })
  | _ => some entry

def StorageState.empty : StorageState := ⟨0, none, [], 0, 0, [], [], none⟩

def StorageState.fields (state : StorageState) : List Field :=
  scalar 1 state.currentTerm ++ (optional 2 state.votedFor ++
    (state.log.map (fun entry => message 3 entry.fields) ++
      (scalar 4 state.snapshotLastIncludedIndex ++
        (scalar 5 state.snapshotLastIncludedTerm ++
          (blob 6 state.snapshotData ++ (packed 7 state.learners ++
            (state.snapshotConfig.map
              (fun config => [message 8 config.fields])).getD []))))))

def StorageState.update (state : StorageState) (field : Field) :
    Option StorageState :=
  match field.number with
  | 1 => (varint? field.value).map
      (fun currentTerm => { state with currentTerm })
  | 2 => (varint? field.value).map
      (fun votedFor => { state with votedFor := some votedFor })
  | 3 => (readInto LogEntry.update .empty field.value).map
      (fun entry => { state with log := state.log ++ [entry] })
  | 4 => (varint? field.value).map
      (fun index => { state with snapshotLastIncludedIndex := index })
  | 5 => (varint? field.value).map
      (fun term => { state with snapshotLastIncludedTerm := term })
  | 6 => (payload? field.value).map
      (fun snapshotData => { state with snapshotData })
  | 7 => (appendNumbers state.learners field.value).map
      (fun learners => { state with learners })
  | 8 => (readInto Configuration.update
      (state.snapshotConfig.getD .empty) field.value).map
      (fun config => { state with snapshotConfig := some config })
  | _ => some state

theorem readInto_message {μ : Type} {update : μ → Field → Option μ}
    {partly whole : μ} {number : Nat} {fields : List Field}
    (h : fields.foldlM update partly = some whole) :
    readInto update partly (message number fields).value = some whole := by
  rw [readInto, message, payload?, Option.bind_eq_bind, Option.bind_some,
    getFields_putFields]
  exact h

theorem Configuration.read_fields (config : Configuration) :
    config.fields.foldlM Configuration.update .empty = some config := by
  obtain ⟨voters, oldVoters⟩ := config
  have hvoters : (packed 1 voters).foldlM Configuration.update .empty =
      some ⟨voters, []⟩ := by
    refine foldlM_packed ?_ ?_
    · rintro rfl
      rfl
    · simp [Configuration.update, appendNumbers, Configuration.empty]
  refine foldlM_fields hvoters (foldlM_packed ?_ ?_)
  · rintro rfl
    rfl
  · simp [Configuration.update, appendNumbers]

theorem LogEntry.read_fields (entry : LogEntry) :
    entry.fields.foldlM LogEntry.update .empty = some entry := by
  obtain ⟨term, payload⟩ := entry
  have hterm : (scalar 1 term).foldlM LogEntry.update .empty =
      some ⟨term, none⟩ := by
    refine foldlM_scalar ?_ rfl
    rintro rfl
    rfl
  refine foldlM_fields hterm ?_
  cases payload with
  | none => rfl
  | some payload =>
      cases payload with
      | command bytes => rfl
      | configuration config =>
          have hread := @readInto_message _ _ _ _ 3 _ config.read_fields
          refine foldlM_field ?_
          exact Option.map_eq_some_iff.mpr ⟨config, hread, rfl⟩

/-- The entries of a log are read one after the other. -/
theorem read_log (state : StorageState) (log : List LogEntry) :
    (log.map (fun entry => message 3 entry.fields)).foldlM
      StorageState.update state =
        some { state with log := state.log ++ log } := by
  induction log generalizing state with
  | nil => simp
  | cons entry rest ih =>
      have hread := @readInto_message _ _ _ _ 3 _ entry.read_fields
      have hnext : state.update (message 3 entry.fields) =
          some { state with log := state.log ++ [entry] } :=
        Option.map_eq_some_iff.mpr ⟨entry, hread, rfl⟩
      rw [List.map_cons, List.foldlM_cons, hnext, Option.bind_eq_bind,
        Option.bind_some, ih, List.append_assoc]
      rfl

theorem StorageState.read_fields (state : StorageState) :
    state.fields.foldlM StorageState.update .empty = some state := by
  obtain ⟨term, votedFor, log, index, last, data, learners, config⟩ := state
  have hterm : (scalar 1 term).foldlM StorageState.update .empty =
      some ⟨term, none, [], 0, 0, [], [], none⟩ := by
    refine foldlM_scalar ?_ rfl
    rintro rfl
    rfl
  have hvoted : (optional 2 votedFor).foldlM StorageState.update
      ⟨term, none, [], 0, 0, [], [], none⟩ =
        some ⟨term, votedFor, [], 0, 0, [], [], none⟩ := by
    refine foldlM_optional ?_ ?_
    · rintro rfl
      rfl
    · rintro vote rfl
      rfl
  have hlog := read_log ⟨term, votedFor, [], 0, 0, [], [], none⟩ log
  have hindex : (scalar 4 index).foldlM StorageState.update
      ⟨term, votedFor, log, 0, 0, [], [], none⟩ =
        some ⟨term, votedFor, log, index, 0, [], [], none⟩ := by
    refine foldlM_scalar ?_ rfl
    rintro rfl
    rfl
  have hlast : (scalar 5 last).foldlM StorageState.update
      ⟨term, votedFor, log, index, 0, [], [], none⟩ =
        some ⟨term, votedFor, log, index, last, [], [], none⟩ := by
    refine foldlM_scalar ?_ rfl
    rintro rfl
    rfl
  have hdata : (blob 6 data).foldlM StorageState.update
      ⟨term, votedFor, log, index, last, [], [], none⟩ =
        some ⟨term, votedFor, log, index, last, data, [], none⟩ := by
    refine foldlM_blob ?_ rfl
    rintro rfl
    rfl
  have hlearners : (packed 7 learners).foldlM StorageState.update
      ⟨term, votedFor, log, index, last, data, [], none⟩ =
        some ⟨term, votedFor, log, index, last, data, learners, none⟩ := by
    refine foldlM_packed ?_ ?_
    · rintro rfl
      rfl
    · simp [StorageState.update, appendNumbers]
  refine foldlM_fields hterm (foldlM_fields hvoted (foldlM_fields hlog
    (foldlM_fields hindex (foldlM_fields hlast (foldlM_fields hdata
      (foldlM_fields hlearners ?_))))))
  cases config with
  | none => rfl
  | some config =>
      have hread := @readInto_message _ _ _ _ 8 _ config.read_fields
      refine foldlM_field ?_
      exact Option.map_eq_some_iff.mpr ⟨config, hread, rfl⟩

end Proto

/-- The protocol buffer encoding of the record. It stands for the real one on what is
written of records, whole or cut off; other bytes the real decoder may treat otherwise. -/
def protobuf : Codec where
  encode record := Wire.putFields record.fields
  decode bytes := do
    let fields ← Wire.getFields bytes
    fields.foldlM Proto.StorageState.update .empty

theorem protobuf_inverts : protobuf.Inverts := by
  intro record
  simp only [protobuf, Wire.getFields_putFields, Option.bind_eq_bind,
    Option.bind_some]
  exact record.read_fields

end Kurogane.Runtime
