import Mathlib.Algebra.Group.Nat.Defs
import Mathlib.Data.List.Basic
import Mathlib.Tactic.Common

/-!
Counters of a bounded machine word. What a program makes of a sum that does not fit
depends on how it was built: with overflow checks it stops, without them it goes on
with the remainder. A program written over an `Arithmetic` can be run as either, and
over numbers without a bound. As long as the checked run does not stop, all of them
take the same steps.
-/

namespace Kurogane.Words

/-- How a program adds and subtracts. `none` is a panic. -/
structure Arithmetic where
  add : Nat → Nat → Option Nat
  sub : Nat → Nat → Option Nat

namespace Arithmetic

/-- Numbers without a bound; nothing is below zero. -/
def exact : Arithmetic where
  add x y := some (x + y)
  sub x y := some (x - y)

/-- Words below `bound`, with overflow checks. -/
def checked (bound : Nat) : Arithmetic where
  add x y := if x + y < bound then some (x + y) else none
  sub x y := if y ≤ x then some (x - y) else none

/-- Words below `bound`, without overflow checks. -/
def wrapping (bound : Nat) : Arithmetic where
  add x y := some ((x + y) % bound)
  sub x y := some (if y ≤ x then x - y else x + bound - y)

end Arithmetic

/-- Where `first` has a result, `second` has the same. -/
def Narrows {α : Type} (first second : Option α) : Prop :=
  ∀ result, first = some result → second = some result

namespace Narrows

variable {α β : Type} {first second : Option α}

theorem refl (first : Option α) : Narrows first first := fun _ h => h

theorem bind_of {next next' : α → Option β} (h : Narrows first second)
    (hnext : ∀ a, first = some a → Narrows (next a) (next' a)) :
    Narrows (first >>= next) (second >>= next') := by
  intro result hresult
  obtain ⟨a, ha, hresult⟩ := Option.bind_eq_some_iff.mp hresult
  exact Option.bind_eq_some_iff.mpr ⟨a, h a ha, hnext a ha result hresult⟩

theorem bind {next next' : α → Option β} (h : Narrows first second)
    (hnext : ∀ a, Narrows (next a) (next' a)) :
    Narrows (first >>= next) (second >>= next') :=
  h.bind_of fun a _ => hnext a

theorem ite {p : Prop} [Decidable p] {other other' : Option α}
    (h : Narrows first second) (hother : Narrows other other') :
    Narrows (if p then first else other) (if p then second else other') := by
  split
  · exact h
  · exact hother

theorem mapM {f f' : α → Option β} (hf : ∀ a, Narrows (f a) (f' a)) (items : List α) :
    Narrows (items.mapM f) (items.mapM f') := by
  induction items with
  | nil => exact refl _
  | cons item rest ih =>
      rw [List.mapM_cons, List.mapM_cons]
      exact bind (hf item) fun _ => bind ih fun _ => refl _

end Narrows

/-- What the first arithmetic computes, the second computes as well. -/
structure Arithmetic.Below (first second : Arithmetic) : Prop where
  add : ∀ x y, Narrows (first.add x y) (second.add x y)
  sub : ∀ x y, Narrows (first.sub x y) (second.sub x y)

namespace Arithmetic

theorem checked_below_exact (bound : Nat) : (checked bound).Below exact where
  add _ _ _ h := (Option.ite_none_right_eq_some.mp h).2
  sub _ _ _ h := (Option.ite_none_right_eq_some.mp h).2

theorem checked_below_wrapping (bound : Nat) : (checked bound).Below (wrapping bound) where
  add x y result h := by
    obtain ⟨hfits, hsum⟩ := Option.ite_none_right_eq_some.mp h
    show some ((x + y) % bound) = some result
    rw [Nat.mod_eq_of_lt hfits, hsum]
  sub x y result h := by
    obtain ⟨hle, hdifference⟩ := Option.ite_none_right_eq_some.mp h
    show some (if y ≤ x then x - y else x + bound - y) = some result
    rw [if_pos hle, hdifference]

end Arithmetic

end Kurogane.Words
