import Kurogane.Runtime.Disk
import Kurogane.Wire.Truncation

/-!
A crash in the middle of a flush. The file is emptied first and then written from the
front. Of the codec this asks that it writes a record field by field: bytes that end
inside a field are refused, and bytes that end between two fields, none at all among
them, are read as the record that has the first of them.
-/

namespace Kurogane.Runtime

open Kurogane.Raft

/-- Where a crash stops a flush: before `create`, or with so many bytes written. -/
inductive CrashPoint where
  | beforeCreate
  | written (count : Nat)
deriving DecidableEq, Repr

/-- The file that such a flush of `storage` leaves. -/
def Codec.interruptedFlush (codec : Codec) (file : Option Bytes) (storage : Storage) :
    CrashPoint → Option Bytes
  | .beforeCreate => file
  | .written count => some ((codec.encode storage.toProto).take count)

/-- The storage that `apply` had in memory, and the file at the crash. -/
def Codec.interruptedApply (codec : Codec) (disk : Disk) (effect : Effect)
    (crash : CrashPoint) : Option (Storage × Option Bytes) := do
  let storage ← disk.storage.apply effect
  if effect.isSend then some (storage, disk.file)
  else some (storage, codec.interruptedFlush disk.file storage crash)

/-- What is opened, if anything, is one of two storages. -/
def Remembers (before after : Storage) : Except InvalidData Disk → Prop
  | .error _ => True
  | .ok disk => disk.storage = before ∨ disk.storage = after

/-! ### The fields of a record -/

namespace Proto

/-- A field of a storage record as it is written. A repeated message is written once
for each entry, a repeated number as one field. -/
inductive StorageField where
  | currentTerm (term : Nat)
  | votedFor (id : Nat)
  | log (entry : LogEntry)
  | snapshotLastIncludedIndex (index : Nat)
  | snapshotLastIncludedTerm (term : Nat)
  | snapshotData (data : Bytes)
  | learners (ids : List Nat)
  | snapshotConfig (config : Configuration)
deriving DecidableEq, Repr

/-- The field of a number, which is left out when it is zero. -/
def ofNumber (field : Nat → StorageField) (n : Nat) : List StorageField :=
  if n = 0 then [] else [field n]

/-- The field of a list, which is left out when it is empty. -/
def ofItems {α : Type} (field : List α → StorageField) (items : List α) :
    List StorageField :=
  if items = [] then [] else [field items]

/-- The fields that are written of a record, in the order of their numbers. -/
def StorageState.present (record : StorageState) : List StorageField :=
  ofNumber .currentTerm record.currentTerm ++
    ((record.votedFor.map .votedFor).toList ++
      (record.log.map .log ++
        (ofNumber .snapshotLastIncludedIndex record.snapshotLastIncludedIndex ++
          (ofNumber .snapshotLastIncludedTerm record.snapshotLastIncludedTerm ++
            (ofItems .snapshotData record.snapshotData ++
              (ofItems .learners record.learners ++
                (record.snapshotConfig.map .snapshotConfig).toList))))))

/-- What reading one more field makes of a record. -/
def StorageState.put (record : StorageState) : StorageField → StorageState
  | .currentTerm term => { record with currentTerm := term }
  | .votedFor id => { record with votedFor := some id }
  | .log entry => { record with log := record.log ++ [entry] }
  | .snapshotLastIncludedIndex index =>
      { record with snapshotLastIncludedIndex := index }
  | .snapshotLastIncludedTerm term =>
      { record with snapshotLastIncludedTerm := term }
  | .snapshotData data => { record with snapshotData := data }
  | .learners ids => { record with learners := ids }
  | .snapshotConfig config => { record with snapshotConfig := some config }

/-- The record that has the given fields. -/
def StorageState.ofFields (fields : List StorageField) : StorageState :=
  fields.foldl StorageState.put .empty

theorem foldl_ofNumber {field : Nat → StorageField} {record : StorageState} {n : Nat}
    (hzero : n = 0 → record = record.put (field n)) :
    (ofNumber field n).foldl StorageState.put record = record.put (field n) := by
  unfold ofNumber
  split
  · rename_i hn
    exact hzero hn
  · rfl

theorem foldl_ofItems {α : Type} {field : List α → StorageField}
    {record : StorageState} {items : List α}
    (hnil : items = [] → record = record.put (field items)) :
    (ofItems field items).foldl StorageState.put record = record.put (field items) := by
  unfold ofItems
  split
  · rename_i hitems
    exact hnil hitems
  · rfl

theorem foldl_log (log : List LogEntry) (record : StorageState) :
    (log.map StorageField.log).foldl StorageState.put record =
      { record with log := record.log ++ log } := by
  induction log generalizing record with
  | nil => simp
  | cons entry rest ih =>
      rw [List.map_cons, List.foldl_cons, ih, StorageState.put, List.append_assoc]
      rfl

/-- A record is the one that has its fields. -/
theorem StorageState.ofFields_present (record : StorageState) :
    ofFields record.present = record := by
  obtain ⟨term, votedFor, log, index, last, data, learners, config⟩ := record
  have hvoted : (votedFor.map StorageField.votedFor).toList.foldl put
      ⟨term, none, [], 0, 0, [], [], none⟩ =
        ⟨term, votedFor, [], 0, 0, [], [], none⟩ := by
    cases votedFor <;> rfl
  unfold ofFields present
  rw [List.foldl_append, foldl_ofNumber (by rintro rfl; rfl), List.foldl_append]
  refine (congrArg (List.foldl put · _) hvoted).trans ?_
  rw [List.foldl_append, foldl_log, List.foldl_append,
    foldl_ofNumber (by rintro rfl; rfl), List.foldl_append,
    foldl_ofNumber (by rintro rfl; rfl), List.foldl_append,
    foldl_ofItems (by rintro rfl; rfl), List.foldl_append,
    foldl_ofItems (by rintro rfl; rfl)]
  cases config <;> rfl

theorem StorageState.present_inj {record record' : StorageState}
    (h : record.present = record'.present) : record = record' := by
  rw [← ofFields_present record, h, ofFields_present]

/-- A group of at most one field is there or not after a cut. -/
theorem take_group {μ : Type} (put : μ → List StorageField) (nothing : μ)
    (hnothing : put nothing = []) {whole : μ} (hgroup : (put whole).length ≤ 1)
    (count : Nat) : ∃ partly, (put whole).take count = put partly := by
  cases count with
  | zero => exact ⟨nothing, hnothing.symm⟩
  | succ count =>
      refine ⟨whole, List.take_of_length_le ?_⟩
      exact hgroup.trans (Nat.le_add_left 1 count)

theorem length_ofNumber (field : Nat → StorageField) (n : Nat) :
    (ofNumber field n).length ≤ 1 := by
  unfold ofNumber
  split
  · exact Nat.zero_le 1
  · exact Nat.le_refl 1

theorem length_ofItems {α : Type} (field : List α → StorageField) (items : List α) :
    (ofItems field items).length ≤ 1 := by
  unfold ofItems
  split
  · exact Nat.zero_le 1
  · exact Nat.le_refl 1

theorem length_toList {α : Type} (option : Option α) : option.toList.length ≤ 1 := by
  cases option with
  | none => exact Nat.zero_le 1
  | some item => exact Nat.le_refl 1

/-- The first fields of a record are those of a record. -/
theorem StorageState.present_take (record : StorageState) (count : Nat) :
    ∃ partly : StorageState, record.present.take count = partly.present ∧
      partly.log <+: record.log := by
  obtain ⟨term, votedFor, log, index, last, data, learners, config⟩ := record
  obtain ⟨term', hterm⟩ := take_group (ofNumber .currentTerm) 0 rfl
    (length_ofNumber _ term) count
  generalize hfirst : count - (ofNumber .currentTerm term).length = first
  obtain ⟨votedFor', hvoted⟩ := take_group
    (fun voted : Option Nat => (voted.map StorageField.votedFor).toList) none rfl
    (length_toList (votedFor.map StorageField.votedFor)) first
  generalize hsecond :
    first - (votedFor.map StorageField.votedFor).toList.length = second
  generalize hthird : second - (log.map StorageField.log).length = third
  obtain ⟨index', hindex⟩ := take_group (ofNumber .snapshotLastIncludedIndex) 0 rfl
    (length_ofNumber _ index) third
  generalize hfourth :
    third - (ofNumber .snapshotLastIncludedIndex index).length = fourth
  obtain ⟨last', hlast⟩ := take_group (ofNumber .snapshotLastIncludedTerm) 0 rfl
    (length_ofNumber _ last) fourth
  generalize hfifth :
    fourth - (ofNumber .snapshotLastIncludedTerm last).length = fifth
  obtain ⟨data', hdata⟩ := take_group (ofItems .snapshotData) [] rfl
    (length_ofItems _ data) fifth
  generalize hsixth : fifth - (ofItems .snapshotData data).length = sixth
  obtain ⟨learners', hlearners⟩ := take_group (ofItems .learners) [] rfl
    (length_ofItems _ learners) sixth
  generalize hseventh : sixth - (ofItems .learners learners).length = seventh
  obtain ⟨config', hconfig⟩ := take_group
    (fun config : Option Configuration => (config.map StorageField.snapshotConfig).toList)
    none rfl (length_toList (config.map StorageField.snapshotConfig)) seventh
  refine ⟨⟨term', votedFor', log.take second, index', last', data', learners', config'⟩,
    ?_, List.take_prefix _ _⟩
  unfold StorageState.present
  rw [List.take_append, hfirst, hterm, List.take_append, hsecond, hvoted,
    List.take_append, hthird, ← List.map_take, List.take_append, hfourth, hindex,
    List.take_append, hfifth, hlast, List.take_append, hsixth, hdata, List.take_append,
    hseventh, hlearners, hconfig]

/-- The record with the first fields of another has these and no other ones. -/
theorem StorageState.ofFields_take (record : StorageState) (count : Nat) :
    (ofFields (record.present.take count)).present = record.present.take count ∧
      (ofFields (record.present.take count)).log <+: record.log := by
  obtain ⟨partly, htake, hlog⟩ := record.present_take count
  rw [htake, ofFields_present]
  exact ⟨rfl, hlog⟩

/-- A last field is what a record without it lacks. -/
theorem StorageState.present_snapshotConfig (record : StorageState)
    (config : Configuration) :
    { record with snapshotConfig := some config }.present =
      { record with snapshotConfig := none }.present ++ [.snapshotConfig config] := by
  simp [present]

end Proto

/-! ### Codecs that write field by field -/

/-- So many bytes of the record are its first fields, and nothing else. -/
def Codec.EndsAfter (codec : Codec) (record : Proto.StorageState) (count fields : Nat) :
    Prop :=
  (codec.encode record).take count =
    codec.encode (.ofFields (record.present.take fields))

instance (codec : Codec) (record : Proto.StorageState) (count fields : Nat) :
    Decidable (codec.EndsAfter record count fields) :=
  inferInstanceAs (Decidable (_ = _))

/-- Decoding inverts encoding, refuses a record that ends inside a field, and reads no
bytes as the default record. -/
structure Codec.Fieldwise (codec : Codec) : Prop where
  inverts : codec.Inverts
  inside : ∀ record count, (∀ fields, ¬ codec.EndsAfter record count fields) →
    codec.decode ((codec.encode record).take count) = none
  empty : codec.decode [] = some .empty

/-- The fields are those of the record of `storage`, all of them or all but an empty
configuration at the end. -/
def Storage.HasFields (storage : Storage) (fields : List Proto.StorageField) : Prop :=
  storage.OnWire ∧ (fields = storage.toProto.present ∨
    fields ++ [.snapshotConfig .empty] = storage.toProto.present)

/-! ### Back to the record -/

theorem configurationToProto_fromProto (config : Proto.Configuration) :
    configurationToProto (configurationFromProto config) = config := by
  obtain ⟨voters, oldVoters⟩ := config
  have hid : NodeId.id ∘ NodeId.mk = id := rfl
  unfold configurationToProto configurationFromProto
  cases oldVoters with
  | nil => simp [hid]
  | cons voter rest => simp [hid]

theorem logEntryToProto_fromProto {proto : Proto.LogEntry} {entry : LogEntry}
    (h : logEntryFromProto proto = .ok entry) : logEntryToProto entry = proto := by
  obtain ⟨term, payload⟩ := proto
  unfold logEntryFromProto at h
  rcases payload with _ | bytes | config
  · cases h
  · cases h
    rfl
  · cases h
    unfold logEntryToProto
    dsimp only
    rw [configurationToProto_fromProto]

theorem logToProto_fromProto {protos : List Proto.LogEntry} {log : List LogEntry}
    (h : protos.mapM logEntryFromProto = .ok log) : log.map logEntryToProto = protos := by
  induction protos generalizing log with
  | nil =>
      cases h
      rfl
  | cons proto rest ih =>
      rw [List.mapM_cons] at h
      obtain ⟨entry, hentry, h⟩ := bind_eq_ok h
      obtain ⟨later, hlater, h⟩ := bind_eq_ok h
      cases h
      rw [List.map_cons, logEntryToProto_fromProto hentry, ih hlater]

/-- The records that read as `storage`. -/
theorem fromProto_ok_iff {record : Proto.StorageState} {storage : Storage} :
    Storage.fromProto record = .ok storage ↔ storage.OnWire ∧
      (record = storage.toProto ∨ (storage.snapshotConfig = .default ∧
        record = { storage.toProto with snapshotConfig := none })) := by
  constructor
  · intro h
    refine ⟨Storage.fromProto_onWire h, ?_⟩
    obtain ⟨term, votedFor, protos, index, last, data, learners, config⟩ := record
    obtain ⟨log, hlog, h⟩ := bind_eq_ok h
    cases h
    have hback := logToProto_fromProto hlog
    have hid : NodeId.id ∘ NodeId.mk = id := rfl
    cases config with
    | none =>
        refine Or.inr ⟨rfl, ?_⟩
        simp [Storage.toProto, hback, hid]
    | some config =>
        refine Or.inl ?_
        simp [Storage.toProto, hback, hid, configurationToProto_fromProto]
  · rintro ⟨hwire, rfl | ⟨hdefault, rfl⟩⟩
    · exact Storage.round_trip hwire
    · have hread := Storage.round_trip hwire
      obtain ⟨log, hlog, hread⟩ := bind_eq_ok hread
      have hconfig : (storage.toProto.snapshotConfig.map configurationFromProto).getD
          .default = .default := by
        show configurationFromProto (configurationToProto storage.snapshotConfig) = .default
        rw [configuration_round_trip hwire.snapshotConfig, hdefault]
      rw [hconfig] at hread
      rw [← hread]
      refine (congrArg (· >>= _) hlog).trans ?_
      rfl

theorem configurationToProto_eq_empty {config : ClusterConfig} (hwire : config.OnWire) :
    configurationToProto config = .empty ↔ config = .default := by
  constructor
  · intro h
    rw [← configuration_round_trip hwire, h]
    rfl
  · rintro rfl
    rfl

/-- A record with some of the fields of another reads as the storages whose fields
these are. -/
theorem hasFields_iff {record : Proto.StorageState} {storage : Storage} :
    storage.HasFields record.present ↔ Storage.fromProto record = .ok storage := by
  have hconfig : storage.toProto = { storage.toProto with
      snapshotConfig := some (configurationToProto storage.snapshotConfig) } := rfl
  rw [fromProto_ok_iff]
  refine and_congr_right fun hwire => or_congr ⟨Proto.StorageState.present_inj,
    congrArg _⟩ ?_
  rw [hconfig, Proto.StorageState.present_snapshotConfig]
  constructor
  · intro h
    obtain ⟨hfields, hlast⟩ := List.append_inj' h rfl
    have hempty : configurationToProto storage.snapshotConfig = .empty := by
      simpa using hlast.symm
    exact ⟨(configurationToProto_eq_empty hwire.snapshotConfig).mp hempty,
      Proto.StorageState.present_inj hfields⟩
  · rintro ⟨hdefault, rfl⟩
    rw [(configurationToProto_eq_empty hwire.snapshotConfig).mpr hdefault]

/-! ### Reopening -/

/-- Entries that have been written are read, whatever their configurations. -/
theorem mapM_logEntryFromProto_ok {protos : List Proto.LogEntry} {log : List LogEntry}
    (h : protos <+: log.map logEntryToProto) :
    ∃ read, protos.mapM logEntryFromProto = .ok read := by
  induction protos generalizing log with
  | nil => exact ⟨[], rfl⟩
  | cons proto rest ih =>
      cases log with
      | nil => exact absurd (List.prefix_nil.mp h) (List.cons_ne_nil _ _)
      | cons entry log =>
          rw [List.map_cons, List.cons_prefix_cons] at h
          obtain ⟨rfl, hrest⟩ := h
          obtain ⟨later, hlater⟩ := ih hrest
          have hentry : ∃ read, logEntryFromProto (logEntryToProto entry) = .ok read := by
            obtain ⟨term, payload⟩ := entry
            cases payload with
            | command bytes => exact ⟨_, rfl⟩
            | configuration config => exact ⟨_, rfl⟩
          obtain ⟨read, hread⟩ := hentry
          refine ⟨read :: later, ?_⟩
          rw [List.mapM_cons, hread, hlater]
          rfl

section

variable {codec : Codec} (hcodec : codec.Fieldwise)
include hcodec

/-- What is opened of a record cut off: an error, or the storage that has its fields up
to the cut. -/
theorem open_cut (storage : Storage) (count : Nat) :
    ((∀ fields, ¬ codec.EndsAfter storage.toProto count fields) ∧
        codec.openFile (some ((codec.encode storage.toProto).take count)) =
          .error .malformedRecord) ∨
      ∃ opened, codec.openFile (some ((codec.encode storage.toProto).take count)) =
          .ok ⟨opened, some ((codec.encode storage.toProto).take count)⟩ ∧
        (∃ fields, codec.EndsAfter storage.toProto count fields) ∧
        ∀ fields, codec.EndsAfter storage.toProto count fields → ∀ other : Storage,
          other.HasFields (storage.toProto.present.take fields) ↔ opened = other := by
  by_cases hends : ∃ fields, codec.EndsAfter storage.toProto count fields
  · refine Or.inr ?_
    obtain ⟨fields, hfields⟩ := hends
    obtain ⟨-, hlog⟩ := storage.toProto.ofFields_take fields
    obtain ⟨log, hread⟩ := mapM_logEntryFromProto_ok hlog
    have hopened : ∃ opened, Storage.fromProto
        (.ofFields (storage.toProto.present.take fields)) = .ok opened := by
      unfold Storage.fromProto
      rw [hread]
      exact ⟨_, rfl⟩
    obtain ⟨opened, hopened⟩ := hopened
    refine ⟨opened, ?_, ⟨fields, hfields⟩, fun fields' hfields' other => ?_⟩
    · unfold Codec.openFile
      dsimp only
      rw [hfields, hcodec.inverts]
      dsimp only
      rw [hopened]
      rfl
    · -- Both cuts are the same bytes, so they leave the same record.
      have hsame : Proto.StorageState.ofFields (storage.toProto.present.take fields') =
          .ofFields (storage.toProto.present.take fields) := by
        have hdecode := hcodec.inverts
          (.ofFields (storage.toProto.present.take fields'))
        rw [← hfields', hfields, hcodec.inverts] at hdecode
        exact (Option.some.inj hdecode).symm
      rw [← (storage.toProto.ofFields_take fields').1, hasFields_iff, hsame, hopened]
      exact ⟨fun heq => Except.ok.inj heq, congrArg Except.ok⟩
  · rw [not_exists] at hends
    refine Or.inl ⟨hends, ?_⟩
    unfold Codec.openFile
    dsimp only
    rw [hcodec.inside _ _ hends]

/-- A file that has been emptied opens as that of a server that has never run. -/
theorem open_emptied : codec.openFile (some []) = .ok ⟨.fresh, some []⟩ := by
  unfold Codec.openFile
  dsimp only
  rw [hcodec.empty]
  rfl

end

/-- A crash while an effect is recorded loses nothing unless the bytes written so far
end between two fields of the new record and these are neither the fields of the old
state nor those of the new. An emptied file always opens as a new server's. -/
theorem interrupted_flush_iff {codec : Codec} (hcodec : codec.Fieldwise) {disk : Disk}
    {effect : Effect} {after : Storage} {file : Option Bytes} {crash : CrashPoint}
    (hheld : codec.openFile disk.file = .ok disk) (hpersists : effect.isSend = false)
    (hcrash : codec.interruptedApply disk effect crash = some (after, file)) :
    (Remembers disk.storage after (codec.openFile file) ↔
      ∀ count fields, crash = .written count →
        codec.EndsAfter after.toProto count fields →
        disk.storage.HasFields (after.toProto.present.take fields) ∨
          after.HasFields (after.toProto.present.take fields)) ∧
    (crash = .written 0 → codec.openFile file = .ok ⟨.fresh, some []⟩) := by
  obtain ⟨storage, -, hcrash⟩ := Option.bind_eq_some_iff.mp hcrash
  rw [hpersists] at hcrash
  cases hcrash
  cases crash with
  | beforeCreate =>
      have hbefore : Remembers disk.storage after (codec.openFile disk.file) := by
        rw [hheld]
        exact Or.inl rfl
      refine ⟨⟨fun _ count fields hcount => ?_, fun _ => hbefore⟩, fun hcount => ?_⟩
      · cases hcount
      · cases hcount
  | written count =>
      refine ⟨?_, fun hcount => ?_⟩
      · show Remembers _ _ (codec.openFile (some _)) ↔ _
        rcases open_cut hcodec after count with
          ⟨hinside, herror⟩ | ⟨opened, hopened, ⟨fields, hfields⟩, hreads⟩
        · rw [herror]
          refine ⟨fun _ other fields hother hends => ?_, fun _ => trivial⟩
          cases hother
          exact absurd hends (hinside fields)
        · rw [hopened]
          constructor
          · intro hsame other fields' hother hends
            cases hother
            exact hsame.imp (hreads fields' hends _).mpr (hreads fields' hends _).mpr
          · intro hencoded
            exact (hencoded count fields rfl hfields).imp (hreads fields hfields _).mp
              (hreads fields hfields _).mp
      · cases hcount
        exact open_emptied hcodec

/-! ### The protocol buffer encoding -/

namespace Proto

/-- How a field is put on the wire. -/
def StorageField.onWire : StorageField → Wire.Field
  | .currentTerm term => ⟨1, .varint term⟩
  | .votedFor id => ⟨2, .varint id⟩
  | .log entry => Wire.message 3 entry.fields
  | .snapshotLastIncludedIndex index => ⟨4, .varint index⟩
  | .snapshotLastIncludedTerm term => ⟨5, .varint term⟩
  | .snapshotData data => ⟨6, .delimited data⟩
  | .learners ids => ⟨7, .delimited (Wire.putPacked ids)⟩
  | .snapshotConfig config => Wire.message 8 config.fields

theorem StorageState.fields_eq_map (record : StorageState) :
    record.fields = record.present.map StorageField.onWire := by
  obtain ⟨term, votedFor, log, index, last, data, learners, config⟩ := record
  have hscalar : ∀ (number n : Nat) (field : Nat → StorageField),
      (field n).onWire = ⟨number, .varint n⟩ →
        Wire.scalar number n = (ofNumber field n).map StorageField.onWire := by
    intro number n field hfield
    unfold Wire.scalar ofNumber
    split
    · rfl
    · rw [List.map_singleton, hfield]
  have hvoted : Wire.optional 2 votedFor =
      (votedFor.map StorageField.votedFor).toList.map StorageField.onWire := by
    cases votedFor <;> rfl
  have hdata : Wire.blob 6 data =
      (ofItems StorageField.snapshotData data).map StorageField.onWire := by
    unfold Wire.blob ofItems
    split <;> rfl
  have hlearners : Wire.packed 7 learners =
      (ofItems StorageField.learners learners).map StorageField.onWire := by
    unfold Wire.packed Wire.blob ofItems
    cases learners with
    | nil => rfl
    | cons id rest =>
        rw [if_neg (fun hnil => absurd (Wire.putPacked_eq_nil hnil) (List.cons_ne_nil _ _)),
          if_neg (List.cons_ne_nil _ _)]
        rfl
  have hconfig : (config.map (fun config => [Wire.message 8 config.fields])).getD [] =
      (config.map StorageField.snapshotConfig).toList.map StorageField.onWire := by
    cases config <;> rfl
  unfold fields present
  rw [hscalar 1 term .currentTerm rfl, hvoted, hscalar 4 index .snapshotLastIncludedIndex rfl,
    hscalar 5 last .snapshotLastIncludedTerm rfl, hdata, hlearners, hconfig]
  simp only [List.map_append, List.map_map]
  rfl

end Proto

theorem protobuf_fieldwise : protobuf.Fieldwise where
  inverts := protobuf_inverts
  inside record count hinside := by
    have hbytes : (protobuf.encode record).take count <+: Wire.putFields record.fields :=
      List.take_prefix count _
    rcases Wire.getFields_cut hbytes with ⟨fields, hfields⟩ | ⟨-, hnone⟩
    · refine absurd ?_ (hinside fields)
      show _ = Wire.putFields (Proto.StorageState.fields _)
      rw [hfields, Proto.StorageState.fields_eq_map, Proto.StorageState.fields_eq_map,
        (record.ofFields_take fields).1, List.map_take]
    · show (Wire.getFields _).bind _ = none
      rw [hnone]
      rfl
  empty := rfl

/-- A server that has voted for server 2 in term 3, and its file. -/
def votedDisk : Disk := protobuf.flush { Storage.fresh with hardState := ⟨3, some ⟨2⟩⟩ }

/-- The crash comes after the file has been emptied: the server comes back as a new
one, without its term and its vote. -/
theorem emptied_file_forgets : protobuf.openFile votedDisk.file = .ok votedDisk ∧
    ∃ after file, protobuf.interruptedApply votedDisk (.persistHardState 4 none)
        (.written 0) = some (after, file) ∧
      protobuf.openFile file = .ok ⟨.fresh, some []⟩ ∧
      ¬ Remembers votedDisk.storage after (protobuf.openFile file) := by
  refine ⟨by decide +kernel, _, some [], rfl, by decide +kernel, ?_⟩
  have hfresh : protobuf.openFile (some []) = .ok ⟨.fresh, some []⟩ := by decide +kernel
  rw [hfresh]
  rintro (hbefore | hafter)
  · revert hbefore
    decide +kernel
  · revert hafter
    decide +kernel

/-- The crash comes after the only field of the record that differs from a new
server's. What is missing is an empty configuration. -/
theorem missing_configuration_is_read : ∃ after file,
    protobuf.interruptedApply votedDisk (.persistHardState 4 none) (.written 2) =
        some (after, file) ∧
      after.hardState = ⟨4, none⟩ ∧
      Remembers votedDisk.storage after (protobuf.openFile file) := by
  have hcrash : protobuf.interruptedApply votedDisk (.persistHardState 4 none)
      (.written 2) =
        some ({ votedDisk.storage with hardState := ⟨4, none⟩ }, some [8, 4]) := by
    decide +kernel
  refine ⟨_, _, hcrash, rfl, (interrupted_flush_iff protobuf_fieldwise
    (by decide +kernel) rfl hcrash).1.mpr ?_⟩
  intro count fields hcount hends
  cases hcount
  rcases fields with _ | _ | fields
  · exact absurd hends (by decide +kernel)
  · exact Or.inr ⟨⟨Storage.fresh_onWire.log, Storage.fresh_onWire.snapshotConfig⟩,
      Or.inr rfl⟩
  · have hall : ∀ record : Proto.StorageState, record.present.length = 2 →
        record.present.take (fields + 2) = record.present :=
      fun record hlength => List.take_of_length_le (hlength ▸ Nat.le_add_left 2 fields)
    rw [Codec.EndsAfter, hall _ (by decide +kernel),
      Proto.StorageState.ofFields_present] at hends
    exact absurd hends (by decide +kernel)

end Kurogane.Runtime
