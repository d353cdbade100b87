import Kurogane.Kv.Codec

/-!
The whole map as bytes, and back. A snapshot lists the entries in key order;
restoring reads until the input ends and replaces the map only then, so that an
input cut short changes nothing.
-/

namespace Kurogane.Kv

open Kurogane.Raft (Bytes)

def encodeEntry (entry : Bytes × Bytes) : Bytes :=
  encodeBytes entry.1 ++ encodeBytes entry.2

def readEntry (reader : ByteReader) :
    Except DecodeError ((Bytes × Bytes) × ByteReader) := do
  let (key, reader) ← reader.readBytes
  let (value, reader) ← reader.readBytes
  .ok ((key, value), reader)

/-- The loop of `restore`, for at most `rounds` entries. `none` stands for a
loop that has not ended by then. -/
def readEntries : Nat → ByteReader → Entries → Option (Except DecodeError Entries)
  | rounds, reader, entries =>
      if reader.isAtEnd then some (.ok entries)
      else
        match rounds with
        | 0 => none
        | rounds + 1 =>
            match readEntry reader with
            | .error error => some (.error error)
            | .ok ((key, value), next) =>
                readEntries rounds next (entries.insert key value)

namespace StateMachine

/-- For a committed entry that carries no command. -/
def skip (machine : StateMachine) : StateMachine :=
  { machine with lastApplied := machine.lastApplied + 1 }

def snapshot (machine : StateMachine) : Bytes :=
  machine.entries.toList.flatMap encodeEntry

/-- Every entry takes bytes, so the loop gets as many rounds as there are. -/
def restore (machine : StateMachine) (lastApplied : Nat) (bytes : Bytes) :
    Option (StateMachine × Except DecodeError Unit) :=
  match readEntries bytes.length (ByteReader.new bytes) ∅ with
  | none => none
  | some (.error error) => some (machine, .error error)
  | some (.ok entries) => some (⟨entries, lastApplied⟩, .ok ())

/-- All keys and values have a length that fits its prefix. -/
def Fits (machine : StateMachine) : Prop :=
  ∀ entry ∈ machine.entries.toList,
    entry.1.length < 4294967296 ∧ entry.2.length < 4294967296

instance (machine : StateMachine) : Decidable machine.Fits :=
  inferInstanceAs (Decidable (∀ _ ∈ _, _))

end StateMachine

/-! ### One entry -/

section Entry

variable {reader next : ByteReader} {entry : Bytes × Bytes} {tail : Bytes}

theorem readEntry_of_rest (hkey : entry.1.length < 4294967296)
    (hvalue : entry.2.length < 4294967296) (h : reader.rest = encodeEntry entry ++ tail) :
    ∃ next, readEntry reader = .ok (entry, next) ∧ next.rest = tail := by
  rw [encodeEntry, List.append_assoc] at h
  obtain ⟨middle, hfirst, hmiddle⟩ := ByteReader.readBytes_of_rest hkey h
  obtain ⟨next, hsecond, hnext⟩ := ByteReader.readBytes_of_rest hvalue hmiddle
  refine ⟨next, ?_, hnext⟩
  rw [readEntry, hfirst]
  simp only [bind, Except.bind]
  rw [hsecond]

theorem readEntry_ok (h : readEntry reader = .ok (entry, next)) :
    reader.rest = encodeEntry entry ++ next.rest := by
  unfold readEntry at h
  cases hkey : reader.readBytes with
  | error error =>
      rw [hkey] at h
      cases h
  | ok first =>
      obtain ⟨key, middle⟩ := first
      rw [hkey] at h
      simp only [bind, Except.bind] at h
      cases hvalue : middle.readBytes with
      | error error =>
          rw [hvalue] at h
          cases h
      | ok second =>
          rw [hvalue] at h
          cases h
          rw [(ByteReader.readBytes_ok hkey).1, (ByteReader.readBytes_ok hvalue).1,
            encodeEntry, List.append_assoc]

theorem length_encodeEntry_pos (entry : Bytes × Bytes) : 0 < (encodeEntry entry).length := by
  rw [encodeEntry, encodeBytes, List.length_append, List.length_append, length_lengthBytes]
  omega

end Entry

/-! ### The loop -/

section Loop

variable {reader next : ByteReader} {entries : Entries} {rounds : Nat}

theorem readEntries_atEnd (hend : reader.rest = []) :
    readEntries rounds reader entries = some (.ok entries) := by
  unfold readEntries
  rw [if_pos (ByteReader.isAtEnd_iff.mpr hend)]

theorem readEntries_step {key value : Bytes}
    (h : readEntry reader = .ok ((key, value), next)) :
    readEntries (rounds + 1) reader entries =
      readEntries rounds next (entries.insert key value) := by
  have hmore : reader.isAtEnd ≠ true := by
    intro hend
    have hrest := readEntry_ok h
    rw [ByteReader.isAtEnd_iff.mp hend] at hrest
    have hpos := length_encodeEntry_pos (key, value)
    rw [(List.append_eq_nil_iff.mp hrest.symm).1] at hpos
    exact Nat.lt_irrefl 0 hpos
  conv_lhs => unfold readEntries
  rw [if_neg hmore, h]

/-- Each round consumes bytes, so that as many rounds as bytes are enough. -/
theorem readEntries_isSome (henough : reader.rest.length ≤ rounds) :
    (readEntries rounds reader entries).isSome = true := by
  induction rounds generalizing reader entries with
  | zero =>
      have hend : reader.rest = [] := List.length_eq_zero_iff.mp (Nat.le_zero.mp henough)
      rw [readEntries_atEnd hend]
      rfl
  | succ rounds ih =>
      cases hread : readEntry reader with
      | error error =>
          unfold readEntries
          split
          · rfl
          · rw [hread]
            rfl
      | ok found =>
          obtain ⟨⟨key, value⟩, next⟩ := found
          rw [readEntries_step hread]
          apply ih
          have hpos := length_encodeEntry_pos (key, value)
          rw [readEntry_ok hread, List.length_append] at henough
          omega

/-- The entries of a snapshot are inserted one after another. -/
theorem readEntries_of_rest {list : List (Bytes × Bytes)}
    (hfits : ∀ entry ∈ list, entry.1.length < 4294967296 ∧ entry.2.length < 4294967296)
    (hrest : reader.rest = list.flatMap encodeEntry) (henough : reader.rest.length ≤ rounds) :
    readEntries rounds reader entries = some (.ok (entries.insertMany list)) := by
  induction list generalizing reader entries rounds with
  | nil =>
      rw [readEntries_atEnd hrest]
      simp only [Std.ExtTreeMap.insertMany_nil]
  | cons entry list ih =>
      rw [List.flatMap_cons] at hrest
      obtain ⟨hkey, hvalue⟩ := hfits entry List.mem_cons_self
      obtain ⟨next, hread, hnext⟩ := readEntry_of_rest hkey hvalue hrest
      have hpos := length_encodeEntry_pos entry
      rw [hrest, ← hnext, List.length_append] at henough
      cases rounds with
      | zero => omega
      | succ rounds =>
          rw [readEntries_step hread,
            ih (fun later hlater => hfits later (List.mem_cons_of_mem _ hlater)) hnext
              (by omega),
            ← Std.ExtTreeMap.insertMany_cons]

end Loop

/-- A map is rebuilt from the list of its entries. -/
theorem insertMany_toList (entries : Entries) :
    (∅ : Entries).insertMany entries.toList = entries := by
  apply Std.ExtTreeMap.ext_getElem?
  intro key
  cases hkey : entries[key]? with
  | some value =>
      have hmem := Std.ExtTreeMap.mem_toList_iff_getElem?_eq_some.mpr hkey
      exact Std.ExtTreeMap.getElem?_insertMany_list_of_mem
        Std.ReflCmp.compare_self Std.ExtTreeMap.distinct_keys_toList hmem
  | none =>
      have hno : (entries.toList.map Prod.fst).contains key = false := by
        apply Bool.eq_false_iff.mpr
        intro hmem
        obtain ⟨⟨found, value⟩, hentry, rfl⟩ :=
          List.mem_map.mp (List.contains_iff_mem.mp hmem)
        rw [Std.ExtTreeMap.mem_toList_iff_getElem?_eq_some.mp hentry] at hkey
        cases hkey
      rw [Std.ExtTreeMap.getElem?_insertMany_list_of_contains_eq_false hno]
      exact Std.ExtTreeMap.getElem?_empty

namespace StateMachine

theorem restore_snapshot (start : StateMachine) {machine : StateMachine}
    (hfits : machine.Fits) (lastApplied : Nat) :
    start.restore lastApplied machine.snapshot =
      some (⟨machine.entries, lastApplied⟩, .ok ()) := by
  have hread : readEntries machine.snapshot.length (ByteReader.new machine.snapshot) ∅ =
      some (.ok ((∅ : Entries).insertMany machine.entries.toList)) :=
    readEntries_of_rest hfits (Command.rest_new machine.snapshot) (Nat.le_refl _)
  rw [insertMany_toList] at hread
  rw [restore, hread]

/-- Different maps have different snapshots. -/
theorem snapshot_inj {first second : StateMachine} (hfirst : first.Fits)
    (hsecond : second.Fits) (hsame : first.snapshot = second.snapshot) :
    first.entries = second.entries := by
  have hread := restore_snapshot new hfirst 0
  rw [hsame, restore_snapshot new hsecond 0] at hread
  have hrestored := (Prod.mk.inj (Option.some.inj hread)).1
  exact (StateMachine.mk.inj hrestored).1.symm

theorem restore_isSome (machine : StateMachine) (lastApplied : Nat) (bytes : Bytes) :
    (machine.restore lastApplied bytes).isSome = true := by
  have hends : (readEntries bytes.length (ByteReader.new bytes) ∅).isSome = true :=
    readEntries_isSome (Nat.le_refl _)
  unfold restore
  split
  · rename_i hnone
    rw [hnone] at hends
    cases hends
  · rfl
  · rfl

/-- Restoring either replaces the whole state machine or leaves it alone. -/
theorem restore_cases {machine next : StateMachine} {lastApplied : Nat} {bytes : Bytes}
    {outcome : Except DecodeError Unit}
    (h : machine.restore lastApplied bytes = some (next, outcome)) :
    (∃ error, outcome = .error error ∧ next = machine) ∨
      (outcome = .ok () ∧ next.lastApplied = lastApplied) := by
  unfold restore at h
  split at h
  · cases h
  · rename_i error _
    cases h
    exact Or.inl ⟨error, rfl, rfl⟩
  · cases h
    exact Or.inr ⟨rfl, rfl⟩

/-- A snapshot brings back exactly its map; different maps have different
snapshots; restoring ends on every input, and one that is refused changes
nothing. -/
theorem snapshots_restore :
    (∀ (machine start : StateMachine) (lastApplied : Nat), machine.Fits →
      start.restore lastApplied machine.snapshot =
        some (⟨machine.entries, lastApplied⟩, .ok ())) ∧
    (∀ first second : StateMachine, first.Fits → second.Fits →
      first.snapshot = second.snapshot → first.entries = second.entries) ∧
    (∀ (start : StateMachine) (lastApplied : Nat) (bytes : Bytes),
      (start.restore lastApplied bytes).isSome = true) ∧
    ∀ (start next : StateMachine) (lastApplied : Nat) (bytes : Bytes) (error : DecodeError),
      start.restore lastApplied bytes = some (next, .error error) → next = start := by
  refine ⟨?_, ?_, restore_isSome, ?_⟩
  · intro machine start lastApplied hfits
    exact restore_snapshot start hfits lastApplied
  · intro first second hfirst hsecond hsame
    exact snapshot_inj hfirst hsecond hsame
  · intro start next lastApplied bytes error h
    rcases restore_cases h with ⟨-, -, hnext⟩ | ⟨hok, -⟩
    · exact hnext
    · cases hok

/-- Four entries, among them an empty key and an empty value. -/
def mixedEntries : StateMachine :=
  ⟨(∅ : Entries).insertMany [([1], [2, 3]), ([], [9]), ([255, 0], []), ([1, 0], [0, 0, 7])], 4⟩

/-- The same entries put together otherwise have the same bytes, and bytes that end before
a value are refused. -/
theorem snapshots_restore_entries :
    let rewritten : StateMachine := ⟨(mixedEntries.entries.insert [] []).insert [] [9], 6⟩
    new.restore 4 mixedEntries.snapshot = some (⟨mixedEntries.entries, 4⟩, .ok ()) ∧
    rewritten.entries = mixedEntries.entries ∧
    mixedEntries.restore 9 (mixedEntries.snapshot.take 14) =
      some (mixedEntries, .error .truncated) := by
  intro rewritten
  have hfits : mixedEntries.Fits := by decide +kernel
  have hrewritten : rewritten.Fits := by decide +kernel
  have hsame : rewritten.snapshot = mixedEntries.snapshot := by decide +kernel
  have herror : (mixedEntries.restore 9 (mixedEntries.snapshot.take 14)).map Prod.snd =
      some (.error .truncated) := by decide +kernel
  obtain ⟨⟨next, outcome⟩, hrestore, rfl⟩ := Option.map_eq_some_iff.mp herror
  obtain ⟨hrestored, hinj, -, hrefused⟩ := snapshots_restore
  refine ⟨hrestored mixedEntries new 4 hfits,
    hinj rewritten mixedEntries hrewritten hfits hsame, ?_⟩
  rw [hrestore, hrefused _ _ _ _ _ hrestore]

end StateMachine

end Kurogane.Kv
