import Mathlib.Data.List.Basic

/-!
The wire format of protocol buffers: numbers as base-128 varints, messages as
sequences of numbered fields, each a varint or a length-delimited payload.
Whatever is written is read back, so a message type only has to say how its
fields are listed and how one field updates a partly read message.
-/

namespace Kurogane.Wire

abbrev Bytes := List UInt8

/-- Seven bits a byte, lowest first; all bytes but the last have the high bit
set. -/
def putVarint (n : Nat) : Bytes :=
  if n < 128 then [n.toUInt8]
  else (n % 128 + 128).toUInt8 :: putVarint (n / 128)

def getVarint : Bytes → Option (Nat × Bytes)
  | [] => none
  | byte :: rest =>
      if byte.toNat < 128 then some (byte.toNat, rest)
      else do
        let (high, rest) ← getVarint rest
        some (byte.toNat - 128 + 128 * high, rest)

inductive Value where
  | varint (n : Nat)
  | delimited (payload : Bytes)
deriving DecidableEq, Repr

structure Field where
  number : Nat
  value : Value
deriving DecidableEq, Repr

/-- The low three bits of the key are the wire type of the value. -/
def putField (field : Field) : Bytes :=
  match field.value with
  | .varint n => putVarint (field.number * 8) ++ putVarint n
  | .delimited payload =>
      putVarint (field.number * 8 + 2) ++
        (putVarint payload.length ++ payload)

def getField (bytes : Bytes) : Option (Field × Bytes) := do
  let (key, rest) ← getVarint bytes
  if key % 8 = 0 then
    let (n, rest) ← getVarint rest
    some (⟨key / 8, .varint n⟩, rest)
  else if key % 8 = 2 then
    let (length, rest) ← getVarint rest
    if length ≤ rest.length then
      some (⟨key / 8, .delimited (rest.take length)⟩, rest.drop length)
    else none
  else none

/-- Reads items until nothing is left. An item takes a byte at least, so the
number of bytes is fuel enough. -/
def getAllWithin {α : Type} (get : Bytes → Option (α × Bytes)) :
    Nat → Bytes → Option (List α)
  | _, [] => some []
  | 0, _ :: _ => none
  | fuel + 1, bytes => do
      let (item, rest) ← get bytes
      let items ← getAllWithin get fuel rest
      some (item :: items)

def getAll {α : Type} (get : Bytes → Option (α × Bytes)) (bytes : Bytes) :
    Option (List α) :=
  getAllWithin get bytes.length bytes

def putPacked (ns : List Nat) : Bytes := ns.flatMap putVarint

def getPacked : Bytes → Option (List Nat) := getAll getVarint

def putFields (fields : List Field) : Bytes := fields.flatMap putField

def getFields : Bytes → Option (List Field) := getAll getField

/-! ### Items are read back -/

theorem toNat_toUInt8 {n : Nat} (hsmall : n < 256) : n.toUInt8.toNat = n := by
  simp [Nat.mod_eq_of_lt hsmall]

theorem getVarint_putVarint (n : Nat) (rest : Bytes) :
    getVarint (putVarint n ++ rest) = some (n, rest) := by
  induction n using Nat.strongRecOn with
  | ind n ih =>
      rw [putVarint]
      split
      · rename_i hlast
        have hbyte : n.toUInt8.toNat = n := toNat_toUInt8 (by omega)
        rw [List.singleton_append, getVarint, hbyte, if_pos hlast]
      · have hbyte : (n % 128 + 128).toUInt8.toNat = n % 128 + 128 :=
          toNat_toUInt8 (by omega)
        rw [List.cons_append, getVarint, hbyte, if_neg (by omega),
          ih (n / 128) (by omega), Option.bind_eq_bind, Option.bind_some]
        have hvalue : n % 128 + 128 - 128 + 128 * (n / 128) = n := by omega
        simp only [hvalue]

theorem putVarint_ne_nil (n : Nat) : putVarint n ≠ [] := by
  rw [putVarint]
  split <;> exact List.cons_ne_nil _ _

theorem getField_putField (field : Field) (rest : Bytes) :
    getField (putField field ++ rest) = some (field, rest) := by
  obtain ⟨number, value⟩ := field
  cases value with
  | varint n =>
      rw [putField, List.append_assoc, getField, getVarint_putVarint,
        Option.bind_eq_bind, Option.bind_some]
      dsimp only
      rw [if_pos (Nat.mul_mod_left number 8), getVarint_putVarint,
        Option.bind_some, Nat.mul_div_cancel _ (by decide)]
  | delimited payload =>
      rw [putField, List.append_assoc, getField, getVarint_putVarint,
        Option.bind_eq_bind, Option.bind_some]
      dsimp only
      rw [if_neg (by omega), if_pos (by omega), List.append_assoc,
        getVarint_putVarint, Option.bind_some]
      dsimp only
      rw [if_pos (by simp), List.take_left, List.drop_left,
        show (number * 8 + 2) / 8 = number by omega]

theorem putField_ne_nil (field : Field) : putField field ≠ [] := by
  unfold putField
  split <;> exact List.append_ne_nil_of_left_ne_nil (putVarint_ne_nil _) _

/-! ### Sequences of items are read back -/

section GetAll

variable {α : Type} {put : α → Bytes} {get : Bytes → Option (α × Bytes)}

theorem getAllWithin_flatMap
    (hget : ∀ item rest, get (put item ++ rest) = some (item, rest))
    (hput : ∀ item, put item ≠ []) (items : List α) :
    ∀ fuel, items.length ≤ fuel →
      getAllWithin get fuel (items.flatMap put) = some items := by
  induction items with
  | nil =>
      intro fuel _
      cases fuel <;> rfl
  | cons item rest ih =>
      intro fuel hfuel
      cases fuel with
      | zero => cases hfuel
      | succ fuel =>
          obtain ⟨byte, bytes, hbytes⟩ := List.exists_cons_of_ne_nil (hput item)
          have hread := hget item (rest.flatMap put)
          rw [hbytes, List.cons_append] at hread
          rw [List.flatMap_cons, hbytes, List.cons_append]
          refine Option.bind_eq_some_iff.mpr ⟨_, hread, ?_⟩
          have hrest := ih fuel (Nat.le_of_succ_le_succ hfuel)
          exact Option.bind_eq_some_iff.mpr ⟨rest, hrest, rfl⟩

theorem length_le_flatMap (hput : ∀ item, put item ≠ []) (items : List α) :
    items.length ≤ (items.flatMap put).length := by
  induction items with
  | nil => exact Nat.zero_le _
  | cons item rest ih =>
      have hpos : 0 < (put item).length := List.length_pos_iff.mpr (hput item)
      rw [List.flatMap_cons, List.length_append, List.length_cons]
      omega

theorem getAll_flatMap
    (hget : ∀ item rest, get (put item ++ rest) = some (item, rest))
    (hput : ∀ item, put item ≠ []) (items : List α) :
    getAll get (items.flatMap put) = some items :=
  getAllWithin_flatMap hget hput items _ (length_le_flatMap hput items)

end GetAll

@[simp] theorem getPacked_putPacked (ns : List Nat) :
    getPacked (putPacked ns) = some ns :=
  getAll_flatMap getVarint_putVarint putVarint_ne_nil ns

@[simp] theorem getFields_putFields (fields : List Field) :
    getFields (putFields fields) = some fields :=
  getAll_flatMap getField_putField putField_ne_nil fields

/-! ### Field groups -/

/-- A number without presence: zero is not written. -/
def scalar (number n : Nat) : List Field :=
  if n = 0 then [] else [⟨number, .varint n⟩]

def optional (number : Nat) : Option Nat → List Field
  | none => []
  | some n => [⟨number, .varint n⟩]

/-- Bytes without presence: nothing is written for none. -/
def blob (number : Nat) (payload : Bytes) : List Field :=
  if payload = [] then [] else [⟨number, .delimited payload⟩]

def packed (number : Nat) (ns : List Nat) : List Field :=
  blob number (putPacked ns)

def message (number : Nat) (fields : List Field) : Field :=
  ⟨number, .delimited (putFields fields)⟩

theorem putPacked_eq_nil {ns : List Nat} (h : putPacked ns = []) : ns = [] := by
  cases ns with
  | nil => rfl
  | cons n rest =>
      rw [putPacked, List.flatMap_cons] at h
      exact absurd (List.append_eq_nil_iff.mp h).1 (putVarint_ne_nil n)

section Fold

variable {μ : Type} {update : μ → Field → Option μ} {before partly whole : μ}

theorem foldlM_fields {first second : List Field}
    (hfirst : first.foldlM update before = some partly)
    (hsecond : second.foldlM update partly = some whole) :
    (first ++ second).foldlM update before = some whole := by
  rw [List.foldlM_append]
  exact Option.bind_eq_some_iff.mpr ⟨partly, hfirst, hsecond⟩

theorem foldlM_field {field : Field} (h : update partly field = some whole) :
    [field].foldlM update partly = some whole :=
  Option.bind_eq_some_iff.mpr ⟨whole, h, rfl⟩

theorem foldlM_scalar {number n : Nat} (hnone : n = 0 → partly = whole)
    (hsome : update partly ⟨number, .varint n⟩ = some whole) :
    (scalar number n).foldlM update partly = some whole := by
  unfold scalar
  split
  · rename_i hzero
    rw [hnone hzero]
    rfl
  · exact foldlM_field hsome

theorem foldlM_optional {number : Nat} {value : Option Nat}
    (hnone : value = none → partly = whole)
    (hsome : ∀ n, value = some n →
      update partly ⟨number, .varint n⟩ = some whole) :
    (optional number value).foldlM update partly = some whole := by
  cases value with
  | none =>
      rw [hnone rfl]
      rfl
  | some n => exact foldlM_field (hsome n rfl)

theorem foldlM_blob {number : Nat} {payload : Bytes}
    (hnone : payload = [] → partly = whole)
    (hsome : update partly ⟨number, .delimited payload⟩ = some whole) :
    (blob number payload).foldlM update partly = some whole := by
  unfold blob
  split
  · rename_i hnil
    rw [hnone hnil]
    rfl
  · exact foldlM_field hsome

theorem foldlM_packed {number : Nat} {ns : List Nat}
    (hnone : ns = [] → partly = whole)
    (hsome : update partly ⟨number, .delimited (putPacked ns)⟩ =
      some whole) :
    (packed number ns).foldlM update partly = some whole :=
  foldlM_blob (fun hnil => hnone (putPacked_eq_nil hnil)) hsome

end Fold

end Kurogane.Wire
