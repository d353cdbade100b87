import Kurogane.Scheduling.Ranks
import Mathlib.Logic.Function.Basic

/-!
A calendar of items, each filed under the tick it falls due at. The batch of a
tick is taken out as the tick begins and handed over item by item; meanwhile
new items are filed. An item filed without delay goes under the tick whose
batch is out already, so it is never handed over.
-/

namespace Kurogane.Scheduling

variable {α : Type*}

inductive Entry (α : Type*) where
  | sent (tick delay : Nat) (item : α)
  | handed (tick : Nat) (item : α)
  | other (tick : Nat)

def Entry.tick : Entry α → Nat
  | .sent tick _ _ | .handed tick _ | .other tick => tick

@[ext]
structure Calendar (α : Type*) where
  clock : Nat
  filed : Nat → List α
  /-- What is left of the batch of the current tick. -/
  due : List α
  log : List (Entry α)

/-- The items sent, with a delay, to be handed over at `tick`. -/
def dueAt (tick : Nat) : Entry α → Option α
  | .sent start delay item => if 0 < delay ∧ start + delay = tick then some item else none
  | _ => none

def handedAt (tick : Nat) : Entry α → Option α
  | .handed start item => if start = tick then some item else none
  | _ => none

theorem dueAt_eq_some {tick : Nat} {entry : Entry α} {item : α} :
    dueAt tick entry = some item ↔
      ∃ start delay, entry = .sent start delay item ∧ 0 < delay ∧ start + delay = tick := by
  cases entry with
  | sent start delay sentItem =>
      simp only [dueAt, Option.ite_none_right_eq_some, Option.some.injEq, Entry.sent.injEq]
      constructor
      · rintro ⟨hdue, rfl⟩
        exact ⟨start, delay, ⟨rfl, rfl, rfl⟩, hdue⟩
      · rintro ⟨_, _, ⟨rfl, rfl, rfl⟩, hdue⟩
        exact ⟨hdue, rfl⟩
  | handed start handedItem => simp [dueAt]
  | other start => simp [dueAt]

theorem handedAt_eq_some {tick : Nat} {entry : Entry α} {item : α} :
    handedAt tick entry = some item ↔ entry = .handed tick item := by
  cases entry with
  | sent start delay sentItem => simp [handedAt]
  | handed start handedItem => simp [handedAt]
  | other start => simp [handedAt]

namespace Calendar

variable {calendar : Calendar α}

def empty : Calendar α := ⟨0, fun _ => [], [], []⟩

def send (calendar : Calendar α) (delay : Nat) (item : α) : Calendar α :=
  let tick := calendar.clock + delay
  { calendar with
    filed := Function.update calendar.filed tick (calendar.filed tick ++ [item])
    log := calendar.log ++ [.sent calendar.clock delay item] }

/-- Hands over the first item due and leaves `rest`. -/
def hand (calendar : Calendar α) (item : α) (rest : List α) : Calendar α :=
  { calendar with
    due := rest
    log := calendar.log ++ [.handed calendar.clock item] }

def note (calendar : Calendar α) : Calendar α :=
  { calendar with log := calendar.log ++ [.other calendar.clock] }

def advance (calendar : Calendar α) : Calendar α :=
  let clock := calendar.clock + 1
  { calendar with
    clock
    filed := Function.update calendar.filed clock []
    due := calendar.filed clock }

/-- What was handed over at a tick is what was due then, in the order it was
sent: all of it at the ticks gone by, a first part at the current one. -/
structure Balanced (calendar : Calendar α) : Prop where
  ordered : calendar.log.Pairwise (fun earlier later => earlier.tick ≤ later.tick)
  past : ∀ entry ∈ calendar.log, entry.tick ≤ calendar.clock
  settled : ∀ tick, tick < calendar.clock →
    calendar.log.filterMap (handedAt tick) = calendar.log.filterMap (dueAt tick)
  current : calendar.log.filterMap (handedAt calendar.clock) ++ calendar.due =
    calendar.log.filterMap (dueAt calendar.clock)
  awaited : ∀ tick, calendar.clock < tick →
    calendar.filed tick = calendar.log.filterMap (dueAt tick)

theorem Balanced.empty : (empty : Calendar α).Balanced where
  ordered := List.Pairwise.nil
  past := fun _ hentry => absurd hentry List.not_mem_nil
  settled := fun tick htick => absurd htick (Nat.not_lt_zero tick)
  current := rfl
  awaited := fun _ _ => rfl

/-- Nothing has been handed over at a tick to come. -/
theorem Balanced.not_handed (h : calendar.Balanced) {tick : Nat}
    (htick : calendar.clock < tick) : calendar.log.filterMap (handedAt tick) = [] := by
  rw [List.filterMap_eq_nil_iff]
  intro entry hentry
  by_contra hsome
  obtain ⟨item, hitem⟩ := Option.ne_none_iff_exists'.mp hsome
  have hlate := h.past entry hentry
  rw [handedAt_eq_some.mp hitem] at hlate
  exact absurd htick (Nat.not_lt.mpr hlate)

section Entries

variable {log : List (Entry α)} {entry : Entry α} {clock : Nat}

theorem pairwise_snoc
    (hordered : log.Pairwise (fun earlier later => earlier.tick ≤ later.tick))
    (hpast : ∀ entry ∈ log, entry.tick ≤ clock) (htick : entry.tick = clock) :
    (log ++ [entry]).Pairwise (fun earlier later => earlier.tick ≤ later.tick) := by
  rw [List.pairwise_append]
  refine ⟨hordered, List.pairwise_singleton _ _, ?_⟩
  intro earlier hearlier later hlater
  rw [List.mem_singleton.mp hlater, htick]
  exact hpast earlier hearlier

theorem past_snoc (hpast : ∀ entry ∈ log, entry.tick ≤ clock)
    (htick : entry.tick = clock) : ∀ found ∈ log ++ [entry], found.tick ≤ clock := by
  intro found hfound
  rcases List.mem_append.mp hfound with hold | hnew
  · exact hpast found hold
  · rw [List.mem_singleton.mp hnew]
    exact Nat.le_of_eq htick

theorem filterMap_snoc {β : Type*} (pick : Entry α → Option β) :
    (log ++ [entry]).filterMap pick = log.filterMap pick ++ (pick entry).toList := by
  rw [List.filterMap_append]
  cases hpick : pick entry with
  | none => rw [List.filterMap_cons_none hpick]; rfl
  | some item => rw [List.filterMap_cons_some hpick]; rfl

end Entries

theorem Balanced.send (h : calendar.Balanced) (delay : Nat) (item : α) :
    (calendar.send delay item).Balanced := by
  have hhanded : ∀ tick, (calendar.send delay item).log.filterMap (handedAt tick) =
      calendar.log.filterMap (handedAt tick) := by
    intro tick
    rw [Calendar.send, filterMap_snoc]
    exact List.append_nil _
  have hdue : ∀ tick, tick ≠ calendar.clock + delay ∨ delay = 0 →
      (calendar.send delay item).log.filterMap (dueAt tick) =
        calendar.log.filterMap (dueAt tick) := by
    intro tick hother
    have hnone : dueAt tick (.sent calendar.clock delay item) = none :=
      if_neg (by omega)
    rw [Calendar.send, filterMap_snoc, hnone]
    exact List.append_nil _
  constructor
  · exact pairwise_snoc h.ordered h.past rfl
  · exact past_snoc h.past rfl
  · intro tick htick
    have htick : tick < calendar.clock := htick
    rw [hhanded, hdue tick (by omega)]
    exact h.settled tick htick
  · have hclock : (calendar.send delay item).clock = calendar.clock := rfl
    rw [hclock, hhanded, hdue calendar.clock (by omega)]
    exact h.current
  · intro tick htick
    have htick : calendar.clock < tick := htick
    by_cases hfiled : tick = calendar.clock + delay
    · subst hfiled
      have hsome : dueAt (calendar.clock + delay) (.sent calendar.clock delay item) =
          some item := if_pos ⟨by omega, rfl⟩
      rw [Calendar.send, filterMap_snoc, hsome, ← h.awaited _ htick]
      exact Function.update_self _ _ _
    · rw [hdue tick (.inl hfiled), ← h.awaited tick htick]
      exact Function.update_of_ne hfiled _ _

theorem Balanced.hand (h : calendar.Balanced) {item : α} {rest : List α}
    (hrest : calendar.due = item :: rest) : (calendar.hand item rest).Balanced := by
  have hdue : ∀ tick, (calendar.hand item rest).log.filterMap (dueAt tick) =
      calendar.log.filterMap (dueAt tick) := by
    intro tick
    rw [Calendar.hand, filterMap_snoc]
    exact List.append_nil _
  constructor
  · exact pairwise_snoc h.ordered h.past rfl
  · exact past_snoc h.past rfl
  · intro tick htick
    have htick : tick < calendar.clock := htick
    have hnone : handedAt tick (.handed calendar.clock item) = none :=
      if_neg (by omega)
    rw [hdue, ← h.settled tick htick, Calendar.hand, filterMap_snoc, hnone]
    exact List.append_nil _
  · have hsome : handedAt calendar.clock (.handed calendar.clock item) = some item :=
      if_pos rfl
    have hclock : (calendar.hand item rest).clock = calendar.clock := rfl
    rw [hclock, hdue, ← h.current, hrest, Calendar.hand, filterMap_snoc, hsome,
      List.append_assoc]
    rfl
  · intro tick htick
    rw [hdue]
    exact h.awaited tick htick

theorem Balanced.note (h : calendar.Balanced) : calendar.note.Balanced := by
  have hsame : ∀ pick : Entry α → Option α, pick (.other calendar.clock) = none →
      calendar.note.log.filterMap pick = calendar.log.filterMap pick := by
    intro pick hnone
    rw [Calendar.note, filterMap_snoc, hnone]
    exact List.append_nil _
  constructor
  · exact pairwise_snoc h.ordered h.past rfl
  · exact past_snoc h.past rfl
  · intro tick htick
    rw [hsame _ rfl, hsame _ rfl]
    exact h.settled tick htick
  · rw [hsame _ rfl, hsame _ rfl]
    exact h.current
  · intro tick htick
    rw [hsame _ rfl]
    exact h.awaited tick htick

theorem Balanced.advance (h : calendar.Balanced) (hdone : calendar.due = []) :
    calendar.advance.Balanced := by
  constructor
  · exact h.ordered
  · intro entry hentry
    exact Nat.le_succ_of_le (h.past entry hentry)
  · intro tick htick
    rcases Nat.lt_succ_iff_lt_or_eq.mp htick with hlt | rfl
    · exact h.settled tick hlt
    · have hcurrent := h.current
      rw [hdone, List.append_nil] at hcurrent
      exact hcurrent
  · have hnext : calendar.clock < calendar.advance.clock := Nat.lt_succ_self _
    have hnone : calendar.advance.log.filterMap (handedAt calendar.advance.clock) = [] :=
      h.not_handed hnext
    rw [hnone]
    exact h.awaited _ hnext
  · intro tick htick
    have htick : calendar.clock + 1 < tick := htick
    have hother : tick ≠ calendar.clock + 1 := by omega
    have hfiled : calendar.advance.filed tick = calendar.filed tick :=
      Function.update_of_ne hother _ _
    rw [hfiled]
    exact h.awaited tick (by omega)

/-- The entries at the two positions are about one item: of those due at a
tick, the first sent is the first handed over, and so on. -/
def Pairs (calendar : Calendar α) (sending handing : Nat) : Prop :=
  ∃ tick item, Occurs (dueAt tick) calendar.log sending item ∧
    Occurs (handedAt tick) calendar.log handing item ∧
    rank (dueAt tick) calendar.log sending = rank (handedAt tick) calendar.log handing

section Pairing

variable {sending sending' handing handing' : Nat}

/-- The two entries of a pair: the item, sent and then handed over when due. -/
theorem Pairs.entries (h : calendar.Pairs sending handing) :
    ∃ start delay item, calendar.log[sending]? = some (.sent start delay item) ∧
      calendar.log[handing]? = some (.handed (start + delay) item) ∧ 0 < delay := by
  obtain ⟨tick, item, ⟨sentEntry, hsent, hdue⟩, ⟨handedEntry, hhanded, hat⟩, -⟩ := h
  obtain ⟨start, delay, rfl, hdelay, rfl⟩ := dueAt_eq_some.mp hdue
  rw [handedAt_eq_some.mp hat] at hhanded
  exact ⟨start, delay, item, hsent, hhanded, hdelay⟩

theorem Pairs.handing_unique (h : calendar.Pairs sending handing)
    (h' : calendar.Pairs sending handing') : handing = handing' := by
  obtain ⟨tick, item, hsent, hhanded, hrank⟩ := h
  obtain ⟨tick', item', hsent', hhanded', hrank'⟩ := h'
  obtain ⟨entry, hentry, hdue⟩ := hsent
  obtain ⟨entry', hentry', hdue'⟩ := hsent'
  obtain rfl : entry = entry' := Option.some.inj (hentry.symm.trans hentry')
  obtain ⟨start, delay, rfl, -, rfl⟩ := dueAt_eq_some.mp hdue
  obtain ⟨_, _, hsame, -, rfl⟩ := dueAt_eq_some.mp hdue'
  cases hsame
  exact hhanded.rank_inj hhanded' (hrank.symm.trans hrank')

theorem Pairs.sending_unique (h : calendar.Pairs sending handing)
    (h' : calendar.Pairs sending' handing) : sending = sending' := by
  obtain ⟨tick, item, hsent, ⟨entry, hentry, hat⟩, hrank⟩ := h
  obtain ⟨tick', item', hsent', ⟨entry', hentry', hat'⟩, hrank'⟩ := h'
  obtain rfl : entry = entry' := Option.some.inj (hentry.symm.trans hentry')
  have hsame := (handedAt_eq_some.mp hat).symm.trans (handedAt_eq_some.mp hat')
  cases hsame
  exact hsent.rank_inj hsent' (hrank.trans hrank'.symm)

/-- What is handed over was sent before. -/
theorem Balanced.sending_first (h : calendar.Balanced)
    (hpairs : calendar.Pairs sending handing) : sending < handing := by
  obtain ⟨start, delay, item, hsent, hhanded, hdelay⟩ := hpairs.entries
  obtain ⟨hsending, hsent⟩ := List.getElem?_eq_some_iff.mp hsent
  obtain ⟨hhanding, hhanded⟩ := List.getElem?_eq_some_iff.mp hhanded
  rcases Nat.lt_trichotomy sending handing with hlt | heq | hgt
  · exact hlt
  · subst heq
    exact absurd (hsent.symm.trans hhanded) nofun
  · have hticks := List.pairwise_iff_getElem.mp h.ordered handing sending hhanding hsending hgt
    rw [hsent, hhanded] at hticks
    have hticks : start + delay ≤ start := hticks
    omega

/-- All that was handed over at a tick was due then. -/
theorem Balanced.handed_due (h : calendar.Balanced) (tick : Nat) :
    calendar.log.filterMap (handedAt tick) <+: calendar.log.filterMap (dueAt tick) := by
  rcases Nat.lt_trichotomy tick calendar.clock with hlt | rfl | hgt
  · exact ⟨[], by rw [List.append_nil, h.settled tick hlt]⟩
  · exact ⟨calendar.due, h.current⟩
  · exact ⟨_, by rw [h.not_handed hgt, List.nil_append]⟩

theorem Balanced.exists_sending (h : calendar.Balanced) {tick : Nat} {item : α}
    (hhanded : calendar.log[handing]? = some (.handed tick item)) :
    ∃ sending, calendar.Pairs sending handing := by
  have hoccurs : Occurs (handedAt tick) calendar.log handing item :=
    ⟨_, hhanded, handedAt_eq_some.mpr rfl⟩
  obtain ⟨rest, hrest⟩ := h.handed_due tick
  have hlisted : (calendar.log.filterMap (dueAt tick))[rank (handedAt tick) calendar.log handing]? =
      some item := by
    obtain ⟨hlt, -⟩ := List.getElem?_eq_some_iff.mp hoccurs.listed
    rw [← hrest, List.getElem?_append_left hlt]
    exact hoccurs.listed
  obtain ⟨sending, hsent, hrank⟩ := exists_occurs hlisted
  exact ⟨sending, tick, item, hsent, hoccurs, hrank⟩

/-- Once its tick is over, an item sent with a delay has been handed over. -/
theorem Balanced.exists_handing (h : calendar.Balanced) (hdone : calendar.due = [])
    {start delay : Nat} {item : α}
    (hsent : calendar.log[sending]? = some (.sent start delay item)) (hdelay : 0 < delay)
    (hpast : start + delay ≤ calendar.clock) : ∃ handing, calendar.Pairs sending handing := by
  have hoccurs : Occurs (dueAt (start + delay)) calendar.log sending item :=
    ⟨_, hsent, dueAt_eq_some.mpr ⟨start, delay, rfl, hdelay, rfl⟩⟩
  have hsame : calendar.log.filterMap (handedAt (start + delay)) =
      calendar.log.filterMap (dueAt (start + delay)) := by
    rcases Nat.lt_or_eq_of_le hpast with hlt | heq
    · exact h.settled _ hlt
    · rw [heq, ← h.current, hdone, List.append_nil]
  have hlisted := hoccurs.listed
  rw [← hsame] at hlisted
  obtain ⟨handing, hhanded, hrank⟩ := exists_occurs hlisted
  exact ⟨handing, start + delay, item, hoccurs, hhanded, hrank.symm⟩

end Pairing

end Calendar

end Kurogane.Scheduling
