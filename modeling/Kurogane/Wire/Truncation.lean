import Kurogane.Wire.Format

/-!
What is read of an encoding that has been cut off. A cut in the middle of a field is
noticed; one between two fields is not, and the fields before it are read.
-/

namespace Kurogane.Wire

theorem prefix_append_cases {α : Type} {first second items : List α}
    (h : items <+: first ++ second) :
    (items <+: first ∧ items ≠ first) ∨ ∃ rest, items = first ++ rest ∧ rest <+: second := by
  rcases List.prefix_or_prefix_of_prefix h (List.prefix_append first second) with
    hshort | ⟨rest, rfl⟩
  · by_cases hwhole : items = first
    · subst hwhole
      exact Or.inr ⟨[], (List.append_nil items).symm, List.nil_prefix⟩
    · exact Or.inl ⟨hshort, hwhole⟩
  · exact Or.inr ⟨rest, rfl, (List.prefix_append_right_inj first).mp h⟩

section

variable {α : Type} {put : α → Bytes} {get : Bytes → Option (α × Bytes)}

/-- What is left of an item after a cut is refused. -/
def RefusesCut (put : α → Bytes) (get : Bytes → Option (α × Bytes)) : Prop :=
  ∀ item bytes, bytes <+: put item → bytes ≠ put item → get bytes = none

theorem getAllWithin_cut
    (hget : ∀ item rest, get (put item ++ rest) = some (item, rest))
    (hcut : RefusesCut put get) (items : List α) :
    ∀ fuel bytes, bytes <+: items.flatMap put →
      (∀ count, bytes ≠ (items.take count).flatMap put) →
      getAllWithin get fuel bytes = none := by
  induction items with
  | nil =>
      intro fuel bytes hbytes hmiddle
      exact absurd (List.prefix_nil.mp hbytes) (hmiddle 0)
  | cons item rest ih =>
      intro fuel bytes hbytes hmiddle
      obtain ⟨byte, tail, rfl⟩ := List.exists_cons_of_ne_nil (hmiddle 0)
      cases fuel with
      | zero => rfl
      | succ fuel =>
          rw [List.flatMap_cons] at hbytes
          unfold getAllWithin
          rcases prefix_append_cases hbytes with ⟨hshort, hpart⟩ | ⟨later, hlater, hrest⟩
          · rw [hcut item _ hshort hpart]
            rfl
          · have hnone := ih fuel later hrest (fun count hcount => by
              refine hmiddle (count + 1) ?_
              rw [List.take_succ_cons, List.flatMap_cons, ← hcount, hlater])
            rw [hlater, hget item later, Option.bind_eq_bind, Option.bind_some]
            dsimp only
            rw [hnone]
            rfl

end

theorem refusesCut_varint : RefusesCut putVarint getVarint := by
  intro n
  induction n using Nat.strongRecOn with
  | ind n ih =>
      intro bytes hbytes hcut
      rw [putVarint] at hbytes hcut
      cases bytes with
      | nil => rfl
      | cons byte tail =>
          split at hbytes
          · rename_i hlast
            rw [if_pos hlast] at hcut
            obtain ⟨rfl, htail⟩ := List.cons_prefix_cons.mp hbytes
            rw [List.prefix_nil.mp htail] at hcut
            exact absurd rfl hcut
          · rename_i hmore
            rw [if_neg hmore] at hcut
            obtain ⟨rfl, htail⟩ := List.cons_prefix_cons.mp hbytes
            have hnone := ih (n / 128) (by omega) tail htail (fun hwhole =>
              hcut (congrArg _ hwhole))
            rw [getVarint, toNat_toUInt8 (by omega), if_neg (by omega), hnone]
            rfl

theorem refusesCut_field : RefusesCut putField getField := by
  rintro ⟨number, value⟩ bytes hbytes hcut
  unfold getField
  cases value with
  | varint n =>
      rw [putField] at hbytes hcut
      rcases prefix_append_cases hbytes with ⟨hshort, hpart⟩ | ⟨rest, rfl, hrest⟩
      · rw [refusesCut_varint _ bytes hshort hpart]
        rfl
      · have hnone := refusesCut_varint n rest hrest (fun hwhole =>
          hcut (congrArg _ hwhole))
        rw [getVarint_putVarint, Option.bind_eq_bind, Option.bind_some]
        dsimp only
        rw [if_pos (Nat.mul_mod_left number 8), hnone]
        rfl
  | delimited payload =>
      rw [putField] at hbytes hcut
      rcases prefix_append_cases hbytes with ⟨hshort, hpart⟩ | ⟨rest, rfl, hrest⟩
      · rw [refusesCut_varint _ bytes hshort hpart]
        rfl
      rw [getVarint_putVarint, Option.bind_eq_bind, Option.bind_some]
      dsimp only
      rw [if_neg (by omega), if_pos (by omega)]
      rcases prefix_append_cases hrest with ⟨hshort, hpart⟩ | ⟨tail, rfl, htail⟩
      · rw [refusesCut_varint _ rest hshort hpart]
        rfl
      · -- All of the length is there, but not all of the payload.
        have hlt : tail.length < payload.length := by
          refine Nat.lt_of_le_of_ne htail.length_le (fun hlength => hcut ?_)
          rw [htail.eq_of_length hlength]
        rw [getVarint_putVarint, Option.bind_some]
        dsimp only
        rw [if_neg (Nat.not_le.mpr hlt)]

/-- A cut between two fields leaves the first ones, and any other is refused. -/
theorem getFields_cut {fields : List Field} {bytes : Bytes}
    (hbytes : bytes <+: putFields fields) :
    (∃ count, bytes = putFields (fields.take count)) ∨
      (∀ count, bytes ≠ putFields (fields.take count)) ∧ getFields bytes = none := by
  by_cases hwhole : ∃ count, bytes = putFields (fields.take count)
  · exact Or.inl hwhole
  · rw [not_exists] at hwhole
    exact Or.inr ⟨hwhole,
      getAllWithin_cut getField_putField refusesCut_field fields _ bytes hbytes hwhole⟩

end Kurogane.Wire
