import Mathlib.Tactic.Common

/-!
Runs of a system together with every state they pass through. A state reached
does not say how it was reached; a property of the whole past is an invariant
of the trace, which only grows.
-/

namespace Kurogane.Consensus

variable {State Label : Type*} (step : State → Label → Option State)
  (ok : State → Label → Prop)

/-- The states of a run from `start`, newest first. Every step meets `ok` in
the state it is taken in. -/
inductive Trace (start : State) : List State → Prop
  | refl : Trace start [start]
  | tail {now next : State} {past : List State} {label : Label} :
      Trace start (now :: past) → ok now label → step now label = some next →
      Trace start (next :: now :: past)

/-- Plays labels one after the other, as long as every step meets `ok`. -/
def play [∀ state, DecidablePred (ok state)] (now : State) (past : List State) :
    List Label → Option (List State)
  | [] => some (now :: past)
  | label :: rest => do
      if ok now label then
        let next ← step now label
        play next (now :: past) rest
      else none

variable {step ok}

namespace Trace

variable {start : State} {states : List State}

/-- What holds at the start and is kept by every step holds of every trace. -/
theorem invariant (Inv : List State → Prop) (hstart : Inv [start])
    (hstep : ∀ now past label next, Inv (now :: past) → ok now label →
      step now label = some next → Inv (next :: now :: past))
    (htrace : Trace step ok start states) : Inv states := by
  induction htrace with
  | refl => exact hstart
  | tail _ hok hlast ih => exact hstep _ _ _ _ ih hok hlast

theorem mono {ok' : State → Label → Prop}
    (hok : ∀ state label, ok state label → ok' state label)
    (htrace : Trace step ok start states) : Trace step ok' start states := by
  induction htrace with
  | refl => exact .refl
  | tail _ hlabel hlast ih => exact .tail ih (hok _ _ hlabel) hlast

theorem of_play [∀ state, DecidablePred (ok state)] {labels : List Label} :
    ∀ {now : State} {past : List State}, Trace step ok start (now :: past) →
      play step ok now past labels = some states →
      Trace step ok start states := by
  induction labels with
  | nil =>
      intro now past htrace h
      cases h
      exact htrace
  | cons label rest ih =>
      intro now past htrace h
      rw [play] at h
      split at h
      · rename_i hok
        obtain ⟨next, hnext, h⟩ := Option.bind_eq_some_iff.mp h
        exact ih (.tail htrace hok hnext) h
      · cases h

end Trace

end Kurogane.Consensus
