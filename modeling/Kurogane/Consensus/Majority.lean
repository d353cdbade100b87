import Mathlib.Data.List.Sort
import Mathlib.Data.List.Nodup
import Mathlib.Tactic.Common

/-!
Strict majorities of a list of members. Members are counted with their
multiplicity, so nothing has to be assumed about repeated ones.
-/

namespace Kurogane.Consensus

variable {α : Type*}

open Classical in
/-- `P` holds of more than half of `members`. -/
def Majority (members : List α) (P : α → Prop) : Prop :=
  members.length < 2 * members.countP (fun v => decide (P v))

theorem majority_iff (members : List α) (P : α → Prop) [DecidablePred P] :
    Majority members P ↔
      members.length < 2 * members.countP (fun v => decide (P v)) := by
  unfold Majority
  refine iff_of_eq (congrArg (fun count => members.length < 2 * count) ?_)
  exact List.countP_congr (fun v _ => by simp)

instance (members : List α) (P : α → Prop) [DecidablePred P] :
    Decidable (Majority members P) :=
  decidable_of_iff _ (majority_iff members P).symm

theorem Majority.mono {members : List α} {P Q : α → Prop}
    (h : Majority members P) (hPQ : ∀ v, P v → Q v) : Majority members Q := by
  classical
  have hle : members.countP (fun v => decide (P v)) ≤
      members.countP (fun v => decide (Q v)) :=
    List.countP_mono_left (fun v _ hv => by simpa using hPQ v (by simpa using hv))
  unfold Majority at h ⊢
  omega

/-- Only what holds of the members matters. -/
theorem Majority.congr {members : List α} {P Q : α → Prop}
    (hPQ : ∀ v ∈ members, P v ↔ Q v) : Majority members P ↔ Majority members Q := by
  classical
  rw [majority_iff, majority_iff, List.countP_congr]
  intro v hv
  simpa using hPQ v hv

theorem countP_add_le_of_disjoint (members : List α) (p q : α → Bool)
    (h : ∀ v, ¬ (p v = true ∧ q v = true)) :
    members.countP p + members.countP q ≤ members.length := by
  induction members with
  | nil => simp
  | cons v rest ih =>
      have hv := h v
      simp only [List.countP_cons, List.length_cons]
      by_cases hp : p v = true <;> by_cases hq : q v = true <;>
        simp_all <;> omega

/-- Two majorities of the same members share a member. -/
theorem Majority.overlap {members : List α} {P Q : α → Prop}
    (hP : Majority members P) (hQ : Majority members Q) :
    ∃ v, P v ∧ Q v := by
  classical
  by_contra hnone
  have hle := countP_add_le_of_disjoint members (fun v => decide (P v))
    (fun v => decide (Q v)) (fun v hv => hnone ⟨v, by simpa using hv⟩)
  unfold Majority at hP hQ
  omega

/-- The `len - (len / 2 + 1)`-th smallest value is reached by a majority. -/
theorem majority_of_sorted_threshold {members : List α} {f : α → Nat}
    {i x : Nat}
    (hget : ((members.map f).insertionSort (· ≤ ·))[
      members.length - (members.length / 2 + 1)]? = some x)
    (hx : i ≤ x) : Majority members (fun v => i ≤ f v) := by
  classical
  have hsorted := List.pairwise_insertionSort (· ≤ ·) (members.map f)
  have hperm := List.perm_insertionSort (· ≤ ·) (members.map f)
  generalize hs : (members.map f).insertionSort (· ≤ ·) = sorted at *
  have hlength : sorted.length = members.length := by
    simpa using hperm.length_eq
  obtain ⟨hlt, hx'⟩ := List.getElem?_eq_some_iff.mp hget
  set k := members.length - (members.length / 2 + 1) with hk
  have htail : ∀ y ∈ sorted.drop k, i ≤ y := by
    intro y hy
    obtain ⟨j, hj, rfl⟩ := List.mem_iff_getElem.mp hy
    rw [List.getElem_drop]
    refine hx.trans ?_
    rw [← hx']
    rcases Nat.eq_zero_or_pos j with rfl | hpos
    · exact le_rfl
    · exact List.pairwise_iff_getElem.mp hsorted k (k + j) hlt _ (by omega)
  have hcount : (sorted.drop k).length ≤
      sorted.countP (fun y => decide (i ≤ y)) := by
    have hall : (sorted.drop k).countP (fun y => decide (i ≤ y)) =
        (sorted.drop k).length :=
      List.countP_eq_length.mpr (fun y hy => by simpa using htail y hy)
    rw [← hall]
    exact (List.drop_sublist k sorted).countP_le
  have hmap : sorted.countP (fun y => decide (i ≤ y)) =
      members.countP (fun v => decide (i ≤ f v)) := by
    rw [hperm.countP_eq, List.countP_map]
    rfl
  rw [List.length_drop] at hcount
  have hk' : k < sorted.length := hlt
  rw [majority_iff]
  omega

/-- A value reached by a majority is at most the `len - (len / 2 + 1)`-th
smallest one. -/
theorem le_sorted_threshold {members : List α} {f : α → Nat} {i x : Nat}
    (hget : ((members.map f).insertionSort (· ≤ ·))[
      members.length - (members.length / 2 + 1)]? = some x)
    (hmajority : Majority members (fun v => i ≤ f v)) : i ≤ x := by
  classical
  have hsorted := List.pairwise_insertionSort (· ≤ ·) (members.map f)
  have hperm := List.perm_insertionSort (· ≤ ·) (members.map f)
  generalize hs : (members.map f).insertionSort (· ≤ ·) = sorted at *
  have hlength : sorted.length = members.length := by
    simpa using hperm.length_eq
  obtain ⟨hlt, hx⟩ := List.getElem?_eq_some_iff.mp hget
  set k := members.length - (members.length / 2 + 1) with hk
  by_contra hbelow
  -- Nothing up to position `k` reaches `i`, so too little is left above it.
  have hhead : ∀ y ∈ sorted.take (k + 1), ¬ i ≤ y := by
    intro y hy
    obtain ⟨j, hj, rfl⟩ := List.mem_iff_getElem.mp hy
    rw [List.length_take] at hj
    rw [List.getElem_take]
    have hle : sorted[j] ≤ sorted[k] := by
      rcases Nat.lt_or_ge j k with hjk | hjk
      · exact List.pairwise_iff_getElem.mp hsorted j k _ hlt hjk
      · have hsame : j = k := by omega
        subst hsame
        exact le_rfl
    rw [hx] at hle
    omega
  have hnone : (sorted.take (k + 1)).countP (fun y => decide (i ≤ y)) = 0 :=
    List.countP_eq_zero.mpr (fun y hy => by simpa using hhead y hy)
  have hrest : (sorted.drop (k + 1)).countP (fun y => decide (i ≤ y)) ≤
      (sorted.drop (k + 1)).length := List.countP_le_length
  have hcount : sorted.countP (fun y => decide (i ≤ y)) ≤
      sorted.length - (k + 1) := by
    rw [← List.take_append_drop (k + 1) sorted, List.countP_append, hnone,
      List.take_append_drop]
    rw [List.length_drop] at hrest
    omega
  have hmap : sorted.countP (fun y => decide (i ≤ y)) =
      members.countP (fun v => decide (i ≤ f v)) := by
    rw [hperm.countP_eq, List.countP_map]
    rfl
  rw [majority_iff] at hmajority
  omega

/-- Members counted by a duplicate-free list of `set` are counted by
`members` when `set` lies in `members`. -/
theorem length_le_countP_of_subset [DecidableEq α] {set members : List α}
    (hnodup : set.Nodup) (hsub : ∀ v ∈ set, v ∈ members) :
    set.length ≤ members.countP (fun v => decide (v ∈ set)) := by
  have hsubset : set ⊆ members.filter (fun v => decide (v ∈ set)) := by
    intro v hv
    exact List.mem_filter.mpr ⟨hsub v hv, by simpa using hv⟩
  rw [List.countP_eq_length_filter]
  exact (List.subperm_of_subset hnodup hsubset).length_le

end Kurogane.Consensus
