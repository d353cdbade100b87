import Mathlib.Data.List.TakeDrop
import Mathlib.Logic.Function.Basic

/-!
Operations that write at most one key, whatever is there. A state may hold later
writes than those of the operations it stands for; once the operations up to those
writes have been replayed on top of it, nothing of that is left.
-/

namespace Kurogane.Consensus

variable {Key Value : Type*}

/-- The key an operation writes, with its value; `none` if it writes none. -/
abbrev Write (Key Value : Type*) := Option (Key × Value)

def Write.Touches (write : Write Key Value) (key : Key) : Prop :=
  ∃ value, write = some (key, value)

/-- No operation from `first` to `last` writes `key`. -/
def Untouched (writes : List (Write Key Value)) (first last : Nat) (key : Key) : Prop :=
  ∀ position write, first ≤ position → position < last →
    writes[position]? = some write → ¬ write.Touches key

section

variable {writes : List (Write Key Value)} {key : Key} {first last : Nat}

theorem Untouched.succ (h : Untouched writes first last key)
    (hlast : ∀ write, writes[last]? = some write → ¬ write.Touches key) :
    Untouched writes first (last + 1) key := by
  intro position write hlow hhigh hwrite
  rcases Nat.lt_succ_iff_lt_or_eq.mp hhigh with hlt | rfl
  · exact h position write hlow hlt hwrite
  · exact hlast write hwrite

/-- The last operation that writes a key, if there is one. -/
theorem untouched_or_last (key : Key) (hle : first ≤ last) :
    Untouched writes first last key ∨ ∃ position value, first ≤ position ∧
      position < last ∧ writes[position]? = some (some (key, value)) ∧
      Untouched writes (position + 1) last key := by
  induction hle with
  | refl => exact Or.inl (fun position write hlow hhigh => absurd hlow (Nat.not_le.mpr hhigh))
  | @step last hle ih =>
      by_cases hlast : ∃ value, writes[last]? = some (some (key, value))
      · obtain ⟨value, hwrite⟩ := hlast
        refine Or.inr ⟨last, value, hle, Nat.lt_succ_self last, hwrite, ?_⟩
        exact fun position write hlow hhigh => absurd hlow (Nat.not_le.mpr hhigh)
      · have hnone : ∀ write, writes[last]? = some write → ¬ write.Touches key := by
          rintro write hwrite ⟨value, rfl⟩
          exact hlast ⟨value, hwrite⟩
        rcases ih with huntouched | ⟨position, value, hlow, hhigh, hwrite, hafter⟩
        · exact Or.inl (huntouched.succ hnone)
        · exact Or.inr ⟨position, value, hlow, Nat.lt_succ_of_lt hhigh, hwrite,
            hafter.succ hnone⟩

end

variable [DecidableEq Key]

def overwrite (state : Key → Value) : Write Key Value → Key → Value
  | none => state
  | some (key, value) => Function.update state key value

def replayWrites (start : Key → Value) (writes : List (Write Key Value)) : Key → Value :=
  writes.foldl overwrite start

/-- `state` stands for the first `reached` operations, and holds more of those up to
`taken` where it holds something else. -/
def Ahead (start : Key → Value) (writes : List (Write Key Value)) (reached taken : Nat)
    (state : Key → Value) : Prop :=
  ∀ key, Untouched writes reached taken key →
    state key = replayWrites start (writes.take reached) key

/-- Whatever keys the operations from `first` to `last` write, in the end each has
the value it had before them. -/
def Settled (start : Key → Value) (writes : List (Write Key Value)) (first last : Nat) :
    Prop :=
  ∀ position key value, first ≤ position → position < last →
    writes[position]? = some (some (key, value)) →
    Untouched writes (position + 1) last key →
    replayWrites start (writes.take first) key = value

section

variable {start state other : Key → Value} {writes : List (Write Key Value)}
  {write : Write Key Value} {key : Key} {value : Value}
  {first last position reached taken boundary : Nat}

theorem overwrite_of_not_touches (h : ¬ write.Touches key) :
    overwrite state write key = state key := by
  cases write with
  | none => rfl
  | some pair =>
      obtain ⟨written, value⟩ := pair
      apply Function.update_of_ne
      rintro rfl
      exact h ⟨value, rfl⟩

/-- What is written does not depend on the state. -/
theorem overwrite_of_touches (h : write.Touches key) :
    overwrite state write key = overwrite other write key := by
  obtain ⟨value, rfl⟩ := h
  calc Function.update state key value key
      _ = value := Function.update_self key value state
      _ = Function.update other key value key := (Function.update_self key value other).symm

theorem replayWrites_succ (h : writes[reached]? = some write) :
    replayWrites start (writes.take (reached + 1)) =
      overwrite (replayWrites start (writes.take reached)) write := by
  unfold replayWrites
  rw [List.take_add_one, h, List.foldl_append]
  rfl

theorem replayWrites_of_untouched (hle : first ≤ last)
    (h : Untouched writes first last key) :
    replayWrites start (writes.take last) key =
      replayWrites start (writes.take first) key := by
  induction hle with
  | refl => rfl
  | @step last hle ih =>
      have hbefore := ih (fun position write hlow hhigh =>
        h position write hlow (Nat.lt_succ_of_lt hhigh))
      cases hwrite : writes[last]? with
      | none =>
          have hend : writes.take (last + 1) = writes.take last := by
            rw [List.take_add_one, hwrite]
            exact List.append_nil _
          rw [hend]
          exact hbefore
      | some write =>
          rw [replayWrites_succ hwrite,
            overwrite_of_not_touches (h last write hle (Nat.lt_succ_self last) hwrite)]
          exact hbefore

theorem replayWrites_of_last (hlt : position < last)
    (hwrite : writes[position]? = some (some (key, value)))
    (hafter : Untouched writes (position + 1) last key) :
    replayWrites start (writes.take last) key = value := by
  rw [replayWrites_of_untouched hlt hafter, replayWrites_succ hwrite, overwrite,
    Function.update_self]

/-- Operations leave the state as it is exactly if their last writes do. -/
theorem settled_iff (hle : first ≤ last) : Settled start writes first last ↔
    replayWrites start (writes.take last) = replayWrites start (writes.take first) := by
  constructor
  · intro hsettled
    funext key
    rcases untouched_or_last key hle with huntouched |
      ⟨position, value, hlow, hhigh, hwrite, hafter⟩
    · exact replayWrites_of_untouched hle huntouched
    · rw [replayWrites_of_last hhigh hwrite hafter]
      exact (hsettled position key value hlow hhigh hwrite hafter).symm
  · intro hsame position key value hlow hhigh hwrite hafter
    rw [← hsame]
    exact replayWrites_of_last hhigh hwrite hafter

namespace Ahead

theorem initial : Ahead start writes 0 0 start := fun _ _ => rfl

/-- One more operation takes the state on, whether it had been written before or
not. -/
theorem next (h : Ahead start writes reached taken state)
    (hwrite : writes[reached]? = some write) :
    Ahead start writes (reached + 1) taken (overwrite state write) := by
  intro key hlater
  rw [replayWrites_succ hwrite]
  by_cases htouches : write.Touches key
  · exact overwrite_of_touches htouches
  · rw [overwrite_of_not_touches htouches, overwrite_of_not_touches htouches]
    apply h
    intro position found hlow hhigh hfound
    rcases Nat.eq_or_lt_of_le hlow with rfl | hlt
    · rw [hwrite] at hfound
      cases hfound
      exact htouches
    · exact hlater position found hlt hhigh hfound

/-- Operations behind those that are stood for change nothing. -/
theorem append (h : Ahead start writes reached taken state) (hle : reached ≤ writes.length)
    (more : List (Write Key Value)) : Ahead start (writes ++ more) reached taken state := by
  intro key huntouched
  rw [List.take_append_of_le_length hle]
  apply h
  intro position write hlow hhigh hwrite
  refine huntouched position write hlow hhigh ?_
  rw [List.getElem?_append_left (List.getElem?_eq_some_iff.mp hwrite).1, hwrite]

/-- It may be taken to be further ahead than it is. -/
theorem mono (h : Ahead start writes reached taken state) (hle : taken ≤ last) :
    Ahead start writes reached last state :=
  fun key huntouched => h key (fun position write hlow hhigh =>
    huntouched position write hlow (Nat.lt_of_lt_of_le hhigh hle))

/-- The state is let stand for fewer operations than it has seen. -/
theorem back (h : Ahead start writes reached taken state) (hle : boundary ≤ reached) :
    Ahead start writes boundary (max taken reached) state := by
  intro key huntouched
  have hreached : Untouched writes reached taken key := by
    intro position write hlow hhigh
    apply huntouched position write <;> omega
  have hbetween : Untouched writes boundary reached key := by
    intro position write hlow hhigh
    apply huntouched position write <;> omega
  rw [h key hreached, replayWrites_of_untouched hle hbetween]

/-- A state that is not ahead stands for fewer operations as well, if those in between
leave it as it is. -/
theorem settle (h : Ahead start writes reached 0 state) (hle : boundary ≤ reached)
    (hsettled : Settled start writes boundary reached) :
    Ahead start writes boundary 0 state := by
  intro key _
  rw [h key (fun position write hlow hhigh => absurd hhigh (Nat.not_lt_zero position)),
    (settled_iff hle).mp hsettled]

/-- Nothing is left of what the state was ahead. -/
theorem caught_up (h : Ahead start writes reached taken state) (hle : taken ≤ reached) :
    state = replayWrites start (writes.take reached) := by
  funext key
  apply h key
  intro position write hlow hhigh
  omega

end Ahead

end

end Kurogane.Consensus
