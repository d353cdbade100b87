import Mathlib.Data.Finset.Card
import Mathlib.Data.List.Nodup
import Mathlib.Data.List.Perm.Basic
import Mathlib.Tactic.Common

/-!
Linearizations of concurrent operations on one sequential object, and the rule
a backtracking search for one goes by: some operation that nothing pending has
to precede comes first, or is left out if it may be.
-/

namespace Kurogane.Verify

/-- Operations `ι` on an object with states `σ`. An operation that replays with
another answer than the one recorded has no next state; an `optional` one may
have had no effect, and never has to precede another. -/
structure Task (σ ι : Type*) where
  optional : ι → Prop
  precedes : ι → ι → Prop
  replay : σ → ι → Option σ
  definite : ∀ i j, precedes i j → ¬ optional i

namespace Task

variable {σ ι : Type*} (T : Task σ ι)

/-- All operations of `order` replay one after the other. -/
def Replays (s : σ) : List ι → Prop
  | [] => True
  | i :: rest => ∃ next, T.replay s i = some next ∧ Replays next rest

/-- `order` accounts for the operations `pending` from state `s` on. -/
structure Linearizes (pending : Finset ι) (s : σ) (order : List ι) : Prop where
  nodup : order.Nodup
  subset : ∀ i ∈ order, i ∈ pending
  complete : ∀ i ∈ pending, ¬ T.optional i → i ∈ order
  ordered : order.Pairwise (fun first second => ¬ T.precedes second first)
  replays : T.Replays s order

def Solvable (pending : Finset ι) (s : σ) : Prop :=
  ∃ order, T.Linearizes pending s order

variable {T} {pending : Finset ι} {s : σ}

/-! ### Renaming the operations -/

/-- Two tasks that are the same but for the names of their operations, which
`R` pairs off. -/
structure Alike {κ : Type*} (T : Task σ ι) (U : Task σ κ) (R : ι → κ → Prop)
    (pending : Finset ι) (renamed : Finset κ) : Prop where
  total : ∀ i ∈ pending, ∃ k ∈ renamed, R i k
  onto : ∀ k ∈ renamed, ∃ i ∈ pending, R i k
  unique : ∀ i k j l, R i k → R j l → (i = j ↔ k = l)
  optional : ∀ i k, R i k → (T.optional i ↔ U.optional k)
  precedes : ∀ i k j l, R i k → R j l → (T.precedes i j ↔ U.precedes k l)
  replay : ∀ i k s, R i k → T.replay s i = U.replay s k

namespace Alike

variable {κ : Type*} {U : Task σ κ} {R : ι → κ → Prop} {renamed : Finset κ}

theorem symm (h : T.Alike U R pending renamed) :
    U.Alike T (flip R) renamed pending where
  total := h.onto
  onto := h.total
  unique i k j l hik hjl := (h.unique k i l j hik hjl).symm
  optional i k hik := (h.optional k i hik).symm
  precedes i k j l hik hjl := (h.precedes k i l j hik hjl).symm
  replay i k s hik := (h.replay k i s hik).symm

theorem replays (h : T.Alike U R pending renamed)
    (rename : ∀ i ∈ pending, κ) (hrename : ∀ i hi, R i (rename i hi)) :
    ∀ (order : List ι) (s : σ) (hsubset : ∀ i ∈ order, i ∈ pending),
      T.Replays s order → U.Replays s (order.pmap rename hsubset)
  | [], _, _, _ => trivial
  | i :: rest, s, hsubset, ⟨next, hreplay, hrest⟩ => by
      have hi := hsubset i List.mem_cons_self
      refine ⟨next, (h.replay i _ s (hrename i hi)).symm.trans hreplay, ?_⟩
      exact h.replays rename hrename rest next _ hrest

theorem solvable (h : T.Alike U R pending renamed) (hsolvable : T.Solvable pending s) :
    U.Solvable renamed s := by
  obtain ⟨order, hnodup, hsubset, hcomplete, hordered, hreplays⟩ := hsolvable
  choose rename hmem hrename using h.total
  refine ⟨order.pmap rename hsubset, ?_, ?_, ?_, ?_, h.replays rename hrename order s _ hreplays⟩
  · apply List.Nodup.pmap _ hnodup
    intro i hi j hj heq
    exact (h.unique _ _ _ _ (hrename i hi) (hrename j hj)).mpr heq
  · intro k hk
    obtain ⟨i, hi, rfl⟩ := List.mem_pmap.mp hk
    exact hmem i _
  · intro k hk hdefinite
    obtain ⟨i, hi, hik⟩ := h.onto k hk
    have hin := hcomplete i hi fun hoptional => hdefinite ((h.optional i k hik).mp hoptional)
    refine List.mem_pmap.mpr ⟨i, hin, ?_⟩
    exact (h.unique _ _ _ _ (hrename i hi) hik).mp rfl
  · apply hordered.pmap
    intro i hi j hj hfree hprecedes
    exact hfree ((h.precedes _ _ _ _ (hrename j hj) (hrename i hi)).mpr hprecedes)

theorem solvable_iff (h : T.Alike U R pending renamed) :
    T.Solvable pending s ↔ U.Solvable renamed s :=
  ⟨h.solvable, h.symm.solvable⟩

end Alike

/-! ### The search rule -/

theorem solvable_empty (s : σ) : T.Solvable ∅ s :=
  ⟨[], List.nodup_nil, by simp, by simp, .nil, trivial⟩

variable [DecidableEq ι]

theorem Linearizes.skip {i : ι} {order : List ι} (hi : T.optional i)
    (h : T.Linearizes (pending.erase i) s order) : T.Linearizes pending s order where
  nodup := h.nodup
  subset j hj := Finset.mem_of_mem_erase (h.subset j hj)
  complete j hj hdefinite := by
    refine h.complete j (Finset.mem_erase.mpr ⟨?_, hj⟩) hdefinite
    rintro rfl
    exact hdefinite hi
  ordered := h.ordered
  replays := h.replays

theorem Linearizes.cons {i : ι} {next : σ} {order : List ι} (hi : i ∈ pending)
    (hfree : ∀ j ∈ pending, j ≠ i → ¬ T.precedes j i)
    (hreplay : T.replay s i = some next)
    (h : T.Linearizes (pending.erase i) next order) :
    T.Linearizes pending s (i :: order) where
  nodup := List.nodup_cons.mpr
    ⟨fun hmem => Finset.notMem_erase i pending (h.subset i hmem), h.nodup⟩
  subset := List.forall_mem_cons.mpr
    ⟨hi, fun j hj => Finset.mem_of_mem_erase (h.subset j hj)⟩
  complete j hj hdefinite := by
    by_cases heq : j = i
    · exact heq ▸ List.mem_cons_self
    · exact List.mem_cons_of_mem _
        (h.complete j (Finset.mem_erase.mpr ⟨heq, hj⟩) hdefinite)
  ordered := List.pairwise_cons.mpr ⟨fun j hj => by
    have hpending := h.subset j hj
    exact hfree j (Finset.mem_of_mem_erase hpending)
      (Finset.ne_of_mem_erase hpending), h.ordered⟩
  replays := ⟨next, hreplay, h.replays⟩

/-- What a search tries, one pending operation after the other. -/
theorem solvable_iff (hpending : pending.Nonempty) :
    T.Solvable pending s ↔ ∃ i ∈ pending,
      (∀ j ∈ pending, j ≠ i → ¬ T.precedes j i) ∧
      (T.optional i ∧ T.Solvable (pending.erase i) s ∨
        ∃ next, T.replay s i = some next ∧ T.Solvable (pending.erase i) next) := by
  constructor
  · rintro ⟨order, h⟩
    cases order with
    | nil =>
        -- Nothing definite is pending, so any operation can be left out.
        obtain ⟨i, hi⟩ := hpending
        have hoptional : ∀ j ∈ pending, T.optional j := by
          intro j hj
          by_contra hdefinite
          cases h.complete j hj hdefinite
        refine ⟨i, hi, fun j hj _ hprecedes =>
          T.definite j i hprecedes (hoptional j hj), Or.inl ⟨hoptional i hi, [], ?_⟩⟩
        refine ⟨List.nodup_nil, by simp, fun j hj hdefinite => ?_, .nil, trivial⟩
        exact (hdefinite (hoptional j (Finset.mem_of_mem_erase hj))).elim
    | cons i rest =>
        obtain ⟨hfresh, hnodup⟩ := List.nodup_cons.mp h.nodup
        obtain ⟨hi, hrest⟩ := List.forall_mem_cons.mp h.subset
        obtain ⟨hfirst, hordered⟩ := List.pairwise_cons.mp h.ordered
        obtain ⟨next, hreplay, hreplays⟩ := h.replays
        refine ⟨i, hi, ?_, Or.inr ⟨next, hreplay, rest, hnodup, ?_, ?_, hordered,
          hreplays⟩⟩
        · intro j hj hne hprecedes
          have hmem := h.complete j hj (T.definite j i hprecedes)
          exact hfirst j ((List.mem_cons.mp hmem).resolve_left hne) hprecedes
        · intro j hj
          exact Finset.mem_erase.mpr ⟨fun heq => hfresh (heq ▸ hj), hrest j hj⟩
        · intro j hj hdefinite
          have hmem := h.complete j (Finset.mem_of_mem_erase hj) hdefinite
          exact (List.mem_cons.mp hmem).resolve_left (Finset.ne_of_mem_erase hj)
  · rintro ⟨i, hi, hfree, ⟨hoptional, order, h⟩ | ⟨next, hreplay, order, h⟩⟩
    · exact ⟨order, h.skip hoptional⟩
    · exact ⟨i :: order, h.cons hi hfree hreplay⟩

end Task

end Kurogane.Verify
