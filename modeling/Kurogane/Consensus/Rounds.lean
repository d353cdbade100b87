import Mathlib.Init

/-!
An exchange that goes round after round until one says that it was the last.
`none` is a round that goes wrong, or fuel that has run out.
-/

namespace Kurogane.Consensus

universe u

variable {σ : Type u} (round : σ → Option (σ × Bool))

/-- Runs rounds while they ask for another one. -/
def repeatRounds : Nat → σ → Option σ
  | 0, _ => none
  | fuel + 1, state => do
      let (next, more) ← round state
      if more then repeatRounds fuel next else some next

/-- With enough fuel the rounds come to an end, in a state that satisfies `P`. -/
def Finishes (P : σ → Prop) (state : σ) : Prop :=
  ∃ fuel last, repeatRounds round fuel state = some last ∧ P last

section

variable {round} {state next last last' : σ} {P Q : σ → Prop}

theorem repeatRounds_succ {fuel : Nat} (h : repeatRounds round fuel state = some last) :
    repeatRounds round (fuel + 1) state = some last := by
  induction fuel generalizing state with
  | zero => cases h
  | succ fuel ih =>
      obtain ⟨⟨next, more⟩, hround, h⟩ := Option.bind_eq_some_iff.mp h
      refine Option.bind_eq_some_iff.mpr ⟨(next, more), hround, ?_⟩
      cases more with
      | false => exact h
      | true => exact ih h

theorem repeatRounds_mono {fuel more : Nat} (hle : fuel ≤ more)
    (h : repeatRounds round fuel state = some last) :
    repeatRounds round more state = some last := by
  induction hle with
  | refl => exact h
  | step _ ih => exact repeatRounds_succ ih

/-- What the rounds come to does not depend on the fuel. -/
theorem repeatRounds_unique {fuel fuel' : Nat}
    (h : repeatRounds round fuel state = some last)
    (h' : repeatRounds round fuel' state = some last') : last = last' := by
  have hmax := repeatRounds_mono (Nat.le_max_left fuel fuel') h
  have hmax' := repeatRounds_mono (Nat.le_max_right fuel fuel') h'
  exact Option.some.inj (hmax.symm.trans hmax')

namespace Finishes

theorem mono (h : Finishes round P state) (hPQ : ∀ last, P last → Q last) :
    Finishes round Q state := by
  obtain ⟨fuel, last, hrun, hlast⟩ := h
  exact ⟨fuel, last, hrun, hPQ last hlast⟩

/-- The last round. -/
theorem stop (hround : round state = some (next, false)) (hlast : P next) :
    Finishes round P state :=
  ⟨1, next, Option.bind_eq_some_iff.mpr ⟨_, hround, rfl⟩, hlast⟩

/-- A round that asks for another. -/
theorem more (hround : round state = some (next, true)) (h : Finishes round P next) :
    Finishes round P state := by
  obtain ⟨fuel, last, hrun, hlast⟩ := h
  exact ⟨fuel + 1, last, Option.bind_eq_some_iff.mpr ⟨_, hround, hrun⟩, hlast⟩

/-- All that is true of one way to finish is true of every one. -/
theorem of_run (h : Finishes round P state) {fuel : Nat}
    (hrun : repeatRounds round fuel state = some last) : P last := by
  obtain ⟨fuel', last', hrun', hlast⟩ := h
  rw [repeatRounds_unique hrun hrun']
  exact hlast

/-- Each round that asks for another keeps the invariant and lowers the measure. -/
theorem of_measure {Inv : σ → Prop} (measure : σ → Nat)
    (hround : ∀ state, Inv state → ∃ next more, round state = some (next, more) ∧
      (more = false → P next) ∧
      (more = true → Inv next ∧ measure next < measure state))
    (hinv : Inv state) : Finishes round P state := by
  induction hmeasure : measure state using Nat.strongRecOn generalizing state with
  | _ bound ih =>
      obtain ⟨next, more, hstep, hstop, hmore⟩ := hround state hinv
      cases more with
      | false => exact .stop hstep (hstop rfl)
      | true =>
          obtain ⟨hnext, hlower⟩ := hmore rfl
          exact .more hstep (ih _ (hmeasure ▸ hlower) hnext rfl)

end Finishes

end

end Kurogane.Consensus
