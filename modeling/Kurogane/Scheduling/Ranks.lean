import Mathlib.Data.List.Basic

/-!
Two kinds of events in one history. Each kind is picked out by a partial function;
where both functions list the same, the first event of one kind belongs to the first
of the other, the second to the second, and so on.
-/

namespace Kurogane.Scheduling

variable {α β : Type*} {pick : α → Option β} {events : List α} {position other : Nat}
  {item item' : β}

/-- An event that `pick` answers with `item` is at `position`. -/
def Occurs (pick : α → Option β) (events : List α) (position : Nat) (item : β) : Prop :=
  ∃ event, events[position]? = some event ∧ pick event = some item

/-- How many events of the kind come before `position`. -/
def rank (pick : α → Option β) (events : List α) (position : Nat) : Nat :=
  ((events.take position).filterMap pick).length

theorem filterMap_split (h : Occurs pick events position item) :
    events.filterMap pick = (events.take position).filterMap pick ++
      item :: (events.drop (position + 1)).filterMap pick := by
  obtain ⟨event, hevent, hpick⟩ := h
  obtain ⟨hlt, hget⟩ := List.getElem?_eq_some_iff.mp hevent
  have hsplit : events = events.take position ++ event :: events.drop (position + 1) := by
    rw [← hget, ← List.drop_eq_getElem_cons hlt, List.take_append_drop]
  conv_lhs => rw [hsplit]
  rw [List.filterMap_append, List.filterMap_cons_some hpick]

/-- The item at a position is listed at its rank. -/
theorem Occurs.listed (h : Occurs pick events position item) :
    (events.filterMap pick)[rank pick events position]? = some item := by
  rw [filterMap_split h, rank, List.getElem?_append_right (Nat.le_refl _), Nat.sub_self]
  rfl

theorem Occurs.unique (h : Occurs pick events position item)
    (h' : Occurs pick events position item') : item = item' := by
  obtain ⟨event, hevent, hpick⟩ := h
  obtain ⟨event', hevent', hpick'⟩ := h'
  rw [hevent] at hevent'
  cases hevent'
  exact Option.some.inj (hpick.symm.trans hpick')

/-- A later event of the kind has a higher rank. -/
theorem Occurs.rank_lt (h : Occurs pick events position item) (hlt : position < other) :
    rank pick events position < rank pick events other := by
  obtain ⟨event, hevent, hpick⟩ := h
  have hwithin : Occurs pick (events.take other) position item := by
    refine ⟨event, ?_, hpick⟩
    rw [List.getElem?_take_of_lt hlt]
    exact hevent
  have hsplit := congrArg List.length (filterMap_split hwithin)
  rw [List.take_take, Nat.min_eq_left (Nat.le_of_lt hlt), List.length_append, List.length_cons] at hsplit
  unfold rank
  omega

/-- Two events of the kind with one rank are the same. -/
theorem Occurs.rank_inj (h : Occurs pick events position item)
    (h' : Occurs pick events other item')
    (hsame : rank pick events position = rank pick events other) : position = other := by
  rcases Nat.lt_trichotomy position other with hlt | heq | hgt
  · exact absurd hsame (Nat.ne_of_lt (h.rank_lt hlt))
  · exact heq
  · exact absurd hsame (Nat.ne_of_gt (h'.rank_lt hgt))

/-- All that is listed occurs. -/
theorem exists_occurs {index : Nat} (h : (events.filterMap pick)[index]? = some item) :
    ∃ position, Occurs pick events position item ∧ rank pick events position = index := by
  induction events generalizing index with
  | nil => cases h
  | cons event rest ih =>
      have hshift : ∀ {position}, Occurs pick rest position item →
          Occurs pick (event :: rest) (position + 1) item := by
        rintro position ⟨found, hfound, hpick⟩
        exact ⟨found, hfound, hpick⟩
      cases hpick : pick event with
      | none =>
          rw [List.filterMap_cons_none hpick] at h
          obtain ⟨position, hoccurs, hrank⟩ := ih h
          refine ⟨position + 1, hshift hoccurs, ?_⟩
          rw [← hrank, rank, List.take_succ_cons, List.filterMap_cons_none hpick]
          rfl
      | some first =>
          rw [List.filterMap_cons_some hpick] at h
          cases index with
          | zero =>
              cases h
              exact ⟨0, ⟨event, rfl, hpick⟩, rfl⟩
          | succ index =>
              obtain ⟨position, hoccurs, hrank⟩ := ih h
              refine ⟨position + 1, hshift hoccurs, ?_⟩
              rw [← hrank, rank, List.take_succ_cons, List.filterMap_cons_some hpick,
                List.length_cons]
              rfl

end Kurogane.Scheduling
