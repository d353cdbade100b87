import Mathlib.Algebra.Group.Nat.Defs
import Mathlib.Data.List.Basic
import Mathlib.Data.List.Nodup

/-!
Text of lines with a name and a value each: how it is split, how decimal numbers stand in
it, and how a name finds its value whatever the order of the lines is.
-/

namespace Kurogane.Wire

abbrev Text := List Char

/-- What stands before the first `separator`, and what after it. -/
def splitOnce (separator : Char) : Text → Option (Text × Text)
  | [] => none
  | first :: rest =>
      if first = separator then some ([], rest)
      else (splitOnce separator rest).map (fun (before, after) => (first :: before, after))

def dropReturn (line : Text) : Text :=
  if line.getLast? = some '\r' then line.dropLast else line

/-- A line ends in a line feed, before which a carriage return is dropped. The last one may
end with the text. -/
def lines (text : Text) : List Text :=
  let pieces := text.splitOn '\n'
  pieces.dropLast.map dropReturn ++ (pieces.getLast?.filter (· ≠ [])).toList

def decimal (n : Nat) : Text := Nat.toDigits 10 n

def dropPlus : Text → Text
  | '+' :: rest => rest
  | text => text

/-- A number of 64 bits. -/
def parseU64 (text : Text) : Option Nat :=
  let digits := dropPlus text
  if digits.isEmpty || !digits.all Char.isDigit then none
  else
    let n := Nat.ofDigitChars 10 digits 0
    if n < 2 ^ 64 then some n else none

/-! ### Splitting -/

theorem splitOnce_append {separator : Char} {before : Text} (h : separator ∉ before)
    (after : Text) : splitOnce separator (before ++ separator :: after) = some (before, after) := by
  induction before with
  | nil =>
      show (if separator = separator then some ([], after) else _) = _
      rw [if_pos rfl]
  | cons first rest ih =>
      rw [List.mem_cons, not_or] at h
      rw [List.cons_append, splitOnce, if_neg (Ne.symm h.1), ih h.2]
      rfl

theorem splitOn_terminated {separator : Char} {pieces : List Text}
    (h : ∀ piece ∈ pieces, separator ∉ piece) :
    (pieces.flatMap (fun piece => piece ++ [separator])).splitOn separator = pieces ++ [[]] := by
  induction pieces with
  | nil => rfl
  | cons piece rest ih =>
      obtain ⟨hpiece, hrest⟩ := List.forall_mem_cons.mp h
      rw [List.flatMap_cons, List.append_assoc, List.singleton_append,
        List.splitOn_append_cons_self_of_not_mem hpiece, ih hrest]
      rfl

/-- Lines that were written one after the other are read as they are. -/
theorem lines_terminated {written : List Text}
    (h : ∀ line ∈ written, '\n' ∉ line ∧ '\r' ∉ line) :
    lines (written.flatMap (fun line => line ++ ['\n'])) = written := by
  have hkept : written.map dropReturn = written := by
    refine (List.map_congr_left fun line hline => ?_).trans (List.map_id written)
    exact if_neg fun hlast => (h line hline).2 (List.mem_of_getLast? hlast)
  unfold lines
  rw [splitOn_terminated fun line hline => (h line hline).1]
  simp only [List.dropLast_concat, List.getLast?_concat, hkept]
  exact List.append_nil written

theorem mem_intercalate {separator c : Char} {pieces : List Text}
    (h : c ∈ [separator].intercalate pieces) : c = separator ∨ ∃ piece ∈ pieces, c ∈ piece := by
  induction pieces with
  | nil => cases h
  | cons piece rest ih =>
      by_cases hlast : rest = []
      · rw [hlast, List.intercalate_singleton] at h
        exact Or.inr ⟨piece, List.mem_cons_self, h⟩
      · rw [List.intercalate_cons_of_ne_nil hlast, List.mem_append, List.mem_append,
          List.mem_singleton] at h
        rcases h with (hpiece | hseparator) | hrest
        · exact Or.inr ⟨piece, List.mem_cons_self, hpiece⟩
        · exact Or.inl hseparator
        · rcases ih hrest with hseparator | ⟨other, hmem, hc⟩
          · exact Or.inl hseparator
          · exact Or.inr ⟨other, List.mem_cons_of_mem _ hmem, hc⟩

/-! ### Numbers -/

theorem isDigit_of_mem_decimal {n : Nat} {c : Char} (h : c ∈ decimal n) : c.isDigit = true :=
  Nat.isDigit_of_mem_toDigits (by decide) (by decide) h

theorem not_mem_decimal {n : Nat} {c : Char} (h : c.isDigit = false) : c ∉ decimal n := by
  intro hmem
  rw [isDigit_of_mem_decimal hmem] at h
  cases h

theorem dropPlus_decimal (n : Nat) : dropPlus (decimal n) = decimal n := by
  unfold dropPlus
  split
  · rename_i rest hplus
    have hmem : '+' ∈ decimal n := by
      rw [hplus]
      exact List.mem_cons_self
    exact absurd hmem (not_mem_decimal (by decide))
  · rfl

theorem parseU64_decimal {n : Nat} (h : n < 2 ^ 64) : parseU64 (decimal n) = some n := by
  have hdigits : (decimal n).all Char.isDigit = true :=
    List.all_eq_true.mpr fun c hmem => isDigit_of_mem_decimal hmem
  have hsome : (decimal n).isEmpty = false :=
    List.isEmpty_eq_false_iff.mpr Nat.toDigits_ne_nil
  have hvalue : Nat.ofDigitChars 10 (decimal n) 0 = n := Nat.ofDigitChars_ten_toDigits
  unfold parseU64
  simp only [dropPlus_decimal, hdigits, hsome, hvalue, Bool.not_true, Bool.or_self,
    Bool.false_eq_true, if_false, if_pos h]

/-! ### Names and values -/

theorem mapM_eq_some_map {α β : Type} {f : α → Option β} {g : α → β} {items : List α}
    (h : ∀ item ∈ items, f item = some (g item)) : items.mapM f = some (items.map g) := by
  induction items with
  | nil => rfl
  | cons item rest ih =>
      obtain ⟨hitem, hrest⟩ := List.forall_mem_cons.mp h
      rw [List.mapM_cons, hitem, ih hrest]
      rfl

theorem lookup_of_mem {α β : Type} [BEq α] [LawfulBEq α] {fields : List (α × β)} {name : α}
    {value : β} (hdistinct : (fields.map Prod.fst).Nodup) (h : (name, value) ∈ fields) :
    fields.lookup name = some value := by
  induction fields with
  | nil => cases h
  | cons field rest ih =>
      obtain ⟨other, found⟩ := field
      obtain ⟨hnew, hrest⟩ := List.nodup_cons.mp hdistinct
      rw [List.lookup_cons]
      rcases List.mem_cons.mp h with heq | hmem
      · cases heq
        rw [beq_self_eq_true]
      · have hne : name ≠ other := by
          rintro rfl
          exact hnew (List.mem_map.mpr ⟨_, hmem, rfl⟩)
        rw [beq_false_of_ne hne]
        exact ih hrest hmem

end Kurogane.Wire
