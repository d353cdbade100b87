import Kurogane.Scheduling.Calendar
import Kurogane.Sim.Scheduler
import Mathlib.Combinatorics.Enumerative.DoubleCounting

/-!
The simulated network as a calendar. The generator is drawn from once for each
tick and each message sent, so the trace tells which delay a message drew, and
the scheduler files, delivers and loses as the calendar does: a delay of zero
files a message under a tick whose batch is out, and nothing delivers it.
-/

namespace Kurogane.Sim

open Kurogane.Raft Kurogane.Scheduling

/-- The generator once `event` has been recorded. -/
def Rng.after (rng : Rng) : TraceEvent → Rng
  | .tick _ _ _ | .sent _ _ => rng.nextU64.2
  | .delivered _ _ => rng

/-- The generator as the event after `events` finds it. -/
def Rng.over (rng : Rng) (events : List TraceEvent) : Rng :=
  events.foldl Rng.after rng

theorem Rng.over_snoc (rng : Rng) (events : List TraceEvent) (event : TraceEvent) :
    rng.over (events ++ [event]) = (rng.over events).after event :=
  List.foldl_append

section Delays

variable (minDelay maxDelay : Nat)

/-- What `event` says to a calendar, the generator being `rng`. -/
def entry (rng : Rng) : TraceEvent → Entry Envelope
  | .tick clock _ _ => .other clock
  | .delivered clock envelope => .handed clock envelope
  | .sent clock envelope => .sent clock (rng.drawn minDelay maxDelay) envelope

def entries (rng : Rng) : List TraceEvent → List (Entry Envelope)
  | [] => []
  | event :: rest => entry minDelay maxDelay rng event :: entries (rng.after event) rest

variable {minDelay maxDelay}

theorem entries_snoc (rng : Rng) (events : List TraceEvent) (event : TraceEvent) :
    entries minDelay maxDelay rng (events ++ [event]) =
      entries minDelay maxDelay rng events ++
        [entry minDelay maxDelay (rng.over events) event] := by
  induction events generalizing rng with
  | nil => rfl
  | cons first rest ih => exact congrArg (List.cons _) (ih (rng.after first))

theorem entries_getElem? (rng : Rng) (events : List TraceEvent) (position : Nat) :
    (entries minDelay maxDelay rng events)[position]? =
      events[position]?.map (entry minDelay maxDelay (rng.over (events.take position))) := by
  induction events generalizing rng position with
  | nil => rfl
  | cons first rest ih =>
      cases position with
      | zero => rfl
      | succ position => exact ih (rng.after first) position

end Delays

/-- The delay drawn for the message sent at `position`. -/
def delayAt (seed : UInt64) (minDelay maxDelay : Nat) (events : List TraceEvent)
    (position : Nat) : Nat :=
  ((Rng.new seed).over (events.take position)).drawn minDelay maxDelay

/-- No message sent draws a delay of zero. -/
def NoneInstant (seed : UInt64) (minDelay maxDelay : Nat) (events : List TraceEvent) :
    Prop :=
  ∀ position clock envelope, events[position]? = some (.sent clock envelope) →
    0 < delayAt seed minDelay maxDelay events position

section Reading

variable {seed : UInt64} {minDelay maxDelay position clock delay : Nat}
  {events : List TraceEvent} {envelope : Envelope}

theorem delayAt_mem (seed : UInt64) (events : List TraceEvent) (position : Nat)
    (hbounds : minDelay ≤ maxDelay) :
    minDelay ≤ delayAt seed minDelay maxDelay events position ∧
      delayAt seed minDelay maxDelay events position ≤ maxDelay :=
  Rng.drawn_mem hbounds

theorem noneInstant_of_minDelay (hbounds : minDelay ≤ maxDelay) (hpositive : 0 < minDelay) :
    NoneInstant seed minDelay maxDelay events :=
  fun _ _ _ _ => Nat.lt_of_lt_of_le hpositive (delayAt_mem seed events _ hbounds).1

theorem entries_sent :
    (entries minDelay maxDelay (Rng.new seed) events)[position]? =
        some (.sent clock delay envelope) ↔
      events[position]? = some (.sent clock envelope) ∧
        delay = delayAt seed minDelay maxDelay events position := by
  rw [entries_getElem?]
  cases events[position]? with
  | none => simp
  | some event => cases event <;> simp [entry, delayAt, eq_comm, and_assoc, and_comm]

theorem entries_handed :
    (entries minDelay maxDelay (Rng.new seed) events)[position]? =
        some (.handed clock envelope) ↔
      events[position]? = some (.delivered clock envelope) := by
  rw [entries_getElem?]
  cases events[position]? with
  | none => simp
  | some event => cases event <;> simp [entry]

end Reading

def TraceEvent.isSent : TraceEvent → Bool
  | .sent _ _ => true
  | _ => false

def TraceEvent.isDelivered : TraceEvent → Bool
  | .delivered _ _ => true
  | _ => false

namespace Simulation

variable {simulation simulation' : Simulation}

theorem inbox_insert (inbox : Std.ExtTreeMap Nat (List Envelope)) (due tick : Nat)
    (batch : List Envelope) : (inbox.insert due batch)[tick]?.getD [] =
      if tick = due then batch else inbox[tick]?.getD [] := by
  rw [Std.ExtTreeMap.getElem?_insert]
  by_cases heq : tick = due
  · rw [if_pos heq, if_pos (by rw [heq]; exact Std.ReflCmp.compare_self)]
    rfl
  · rw [if_neg heq, if_neg (fun hcompare =>
      heq (Std.LawfulEqCmp.eq_of_compare hcompare).symm)]

theorem inbox_erase (inbox : Std.ExtTreeMap Nat (List Envelope)) (due tick : Nat) :
    (inbox.erase due)[tick]?.getD [] = if tick = due then [] else inbox[tick]?.getD [] := by
  rw [Std.ExtTreeMap.getElem?_erase]
  by_cases heq : tick = due
  · rw [if_pos heq, if_pos (by rw [heq]; exact Std.ReflCmp.compare_self)]
    rfl
  · rw [if_neg heq, if_neg (fun hcompare =>
      heq (Std.LawfulEqCmp.eq_of_compare hcompare).symm)]

theorem filed_send {envelope : Envelope} (h : simulation.send envelope = .ok simulation') :
    let due := simulation.clock +
      simulation.rng.drawn simulation.minDelay simulation.maxDelay
    simulation'.filed =
      Function.update simulation.filed due (simulation.filed due ++ [envelope]) := by
  intro due
  funext tick
  rw [Function.update_apply, send_ok h]
  exact inbox_insert simulation.inbox due tick _

theorem filed_advance (clock : Nat) : (simulation.advance clock).filed =
    Function.update simulation.filed clock [] := by
  funext tick
  rw [Function.update_apply]
  exact inbox_erase simulation.inbox clock tick

section Accounts

variable (seed : UInt64) (minDelay maxDelay : Nat)

/-- The calendar the scheduler keeps, `due` being what is left of the batch
that is out. -/
def calendar (due : List Envelope) (simulation : Simulation) : Calendar Envelope where
  clock := simulation.clock
  filed := simulation.filed
  due
  log := entries minDelay maxDelay (Rng.new seed) simulation.trace

/-- The generator is where the trace says, and the calendar balances. -/
structure Accounts (due : List Envelope) (simulation : Simulation) : Prop where
  bounds : simulation.minDelay = minDelay ∧ simulation.maxDelay = maxDelay
  rng : simulation.rng = (Rng.new seed).over simulation.trace
  balanced : (simulation.calendar seed minDelay maxDelay due).Balanced

variable {seed minDelay maxDelay} {due : List Envelope}

theorem Accounts.new (cluster : Nodes) (minTimeout maxTimeout : Nat) :
    Accounts seed minDelay maxDelay []
      (Simulation.new cluster seed minTimeout maxTimeout minDelay maxDelay) where
  bounds := ⟨rfl, rfl⟩
  rng := rfl
  balanced := Calendar.Balanced.empty

/-- Recording an event moves the generator as drawing for it does. -/
theorem Accounts.rng_recorded (h : Accounts seed minDelay maxDelay due simulation)
    (event : TraceEvent) :
    simulation.rng.after event = (Rng.new seed).over (simulation.record event).trace := by
  rw [h.rng]
  exact (Rng.over_snoc _ _ _).symm

theorem Accounts.send {envelope : Envelope}
    (h : Accounts seed minDelay maxDelay due simulation)
    (hsend : simulation.send envelope = .ok simulation') :
    Accounts seed minDelay maxDelay due simulation' := by
  have hfiled : simulation'.filed =
      ((simulation.calendar seed minDelay maxDelay due).send
        (simulation.rng.drawn minDelay maxDelay) envelope).filed := by
    rw [filed_send hsend, h.bounds.1, h.bounds.2]
    rfl
  have hlog : entries minDelay maxDelay (Rng.new seed) simulation'.trace =
      ((simulation.calendar seed minDelay maxDelay due).send
        (simulation.rng.drawn minDelay maxDelay) envelope).log := by
    rw [send_ok hsend, h.rng]
    exact entries_snoc _ _ _
  have hclock : simulation'.clock = simulation.clock := by
    rw [send_ok hsend]
    rfl
  have hcalendar : simulation'.calendar seed minDelay maxDelay due =
      (simulation.calendar seed minDelay maxDelay due).send
        (simulation.rng.drawn minDelay maxDelay) envelope :=
    Calendar.ext hclock hfiled rfl hlog
  constructor
  · rw [send_ok hsend]
    exact h.bounds
  · rw [send_ok hsend]
    exact h.rng_recorded (.sent simulation.clock envelope)
  · rw [hcalendar]
    exact h.balanced.send _ _

theorem Accounts.apply {id : NodeId} {transition : Transition}
    (h : Accounts seed minDelay maxDelay due simulation)
    (happly : simulation.apply id transition = .ok simulation') :
    Accounts seed minDelay maxDelay due simulation' := by
  obtain ⟨node, effects, -, happly⟩ := apply_ok happly
  refine foldlM_invariant (Accounts seed minDelay maxDelay due)
    (fun _ _ _ h hsend => h.send hsend) ?_ happly
  exact ⟨h.bounds, h.rng, h.balanced⟩

theorem Accounts.serve {id : NodeId} {event : Event} {missing : Panic}
    (h : Accounts seed minDelay maxDelay due simulation)
    (hserve : simulation.serve id event missing = .ok simulation') :
    Accounts seed minDelay maxDelay due simulation' := by
  obtain ⟨node, -, happly⟩ := serve_ok hserve
  exact h.apply happly

theorem Accounts.deliver {envelope : Envelope}
    (h : Accounts seed minDelay maxDelay (envelope :: due) simulation)
    (hdeliver : simulation.deliver envelope = .ok simulation') :
    Accounts seed minDelay maxDelay due simulation' := by
  have hcalendar : (simulation.record (.delivered simulation.clock envelope)).calendar
      seed minDelay maxDelay due =
      (simulation.calendar seed minDelay maxDelay (envelope :: due)).hand envelope due :=
    Calendar.ext rfl rfl rfl (entries_snoc _ _ _)
  have hrecorded : Accounts seed minDelay maxDelay due
      (simulation.record (.delivered simulation.clock envelope)) := by
    refine ⟨h.bounds, h.rng_recorded (.delivered simulation.clock envelope), ?_⟩
    rw [hcalendar]
    exact h.balanced.hand rfl
  exact hrecorded.serve hdeliver

/-- Delivering all that is left of the batch. -/
theorem Accounts.deliverAll (h : Accounts seed minDelay maxDelay due simulation)
    (hdeliver : due.foldlM Simulation.deliver simulation = .ok simulation') :
    Accounts seed minDelay maxDelay [] simulation' := by
  induction due generalizing simulation with
  | nil =>
      cases hdeliver
      exact h
  | cons envelope rest ih =>
      rw [List.foldlM_cons] at hdeliver
      obtain ⟨middle, hmiddle, hrest⟩ := bind_eq_ok hdeliver
      exact ih (h.deliver hmiddle) hrest

theorem Accounts.tick {id : NodeId} (h : Accounts seed minDelay maxDelay due simulation)
    (htick : simulation.tick id = .ok simulation') :
    Accounts seed minDelay maxDelay due simulation' := by
  obtain ⟨nextTimeout, rng, hrng, hserve⟩ := tick_ok htick
  have hcalendar : ({ simulation with rng }.record
      (.tick simulation.clock id nextTimeout)).calendar seed minDelay maxDelay due =
      (simulation.calendar seed minDelay maxDelay due).note :=
    Calendar.ext rfl rfl rfl (entries_snoc _ _ _)
  have hrecorded : Accounts seed minDelay maxDelay due ({ simulation with rng }.record
      (.tick simulation.clock id nextTimeout)) := by
    refine ⟨h.bounds, ?_, ?_⟩
    · exact hrng.trans (h.rng_recorded (.tick simulation.clock id nextTimeout))
    · rw [hcalendar]
      exact h.balanced.note
  exact hrecorded.serve hserve

theorem Accounts.advance (h : Accounts seed minDelay maxDelay [] simulation) :
    Accounts seed minDelay maxDelay (simulation.filed (simulation.clock + 1))
      (simulation.advance (simulation.clock + 1)) := by
  have hcalendar : (simulation.advance (simulation.clock + 1)).calendar seed minDelay maxDelay
      (simulation.filed (simulation.clock + 1)) =
      (simulation.calendar seed minDelay maxDelay []).advance :=
    Calendar.ext rfl (filed_advance _) rfl rfl
  refine ⟨h.bounds, h.rng, ?_⟩
  rw [hcalendar]
  exact h.balanced.advance rfl

theorem Accounts.step (h : Accounts seed minDelay maxDelay [] simulation)
    (hstep : simulation.step = .ok simulation') :
    Accounts seed minDelay maxDelay [] simulation' := by
  obtain ⟨delivered, hdeliver, hticks⟩ := step_ok hstep
  exact foldlM_invariant (Accounts seed minDelay maxDelay [])
    (fun _ _ _ h htick => h.tick htick) (h.advance.deliverAll hdeliver) hticks

theorem Accounts.call {action : Call} (h : Accounts seed minDelay maxDelay [] simulation)
    (hcall : simulation.call action = .ok simulation') :
    Accounts seed minDelay maxDelay [] simulation' := by
  cases action with
  | step => exact h.step hcall
  | addLearner leader id =>
      have hcall : simulation.addLearner leader id = .ok simulation' := hcall
      unfold Simulation.addLearner at hcall
      split at hcall
      · cases hcall
        exact h
      · exact h.apply hcall
  | proposeConfigChange leader newVoters =>
      obtain ⟨⟨index, middle⟩, hpropose, hcall⟩ := bind_eq_ok hcall
      cases hcall
      unfold Simulation.proposeConfigChange at hpropose
      split at hpropose
      · cases hpropose
        exact h
      · split at hpropose
        · cases hpropose
        · cases hpropose
          exact h
        · obtain ⟨applied, happly, hpropose⟩ := bind_eq_ok hpropose
          cases hpropose
          exact h.apply happly

theorem Accounts.run {calls : List Call} (h : Accounts seed minDelay maxDelay [] simulation)
    (hrun : simulation.run calls = .ok simulation') :
    Accounts seed minDelay maxDelay [] simulation' :=
  foldlM_invariant (Accounts seed minDelay maxDelay []) (fun _ _ _ h hcall => h.call hcall)
    h hrun

end Accounts

/-- A message sent at one position of the trace is delivered at the other,
within the bounds on its delay. -/
def Carries (minDelay maxDelay : Nat) (simulation : Simulation) (sending delivery : Nat) :
    Prop :=
  ∃ start tick envelope, simulation.trace[sending]? = some (.sent start envelope) ∧
    simulation.trace[delivery]? = some (.delivered tick envelope) ∧ sending < delivery ∧
    start + minDelay ≤ tick ∧ tick ≤ start + maxDelay

/-- Messages sent and messages delivered, one to one: all that was delivered,
and all that was sent so long ago that its longest delay is over. -/
structure Matching (minDelay maxDelay : Nat) (simulation : Simulation)
    (pairs : Nat → Nat → Prop) : Prop where
  carries : ∀ sending delivery, pairs sending delivery →
    simulation.Carries minDelay maxDelay sending delivery
  once : ∀ sending delivery delivery', pairs sending delivery →
    pairs sending delivery' → delivery = delivery'
  sent : ∀ sending start envelope,
    simulation.trace[sending]? = some (.sent start envelope) →
    start + maxDelay ≤ simulation.clock → ∃! delivery, pairs sending delivery
  delivered : ∀ delivery tick envelope,
    simulation.trace[delivery]? = some (.delivered tick envelope) →
    ∃! sending, pairs sending delivery

/-- The network neither loses nor duplicates messages. -/
def Conserves (minDelay maxDelay : Nat) (simulation : Simulation) : Prop :=
  ∃ pairs, simulation.Matching minDelay maxDelay pairs

/-- No message can still be on its way. -/
def DelaysOver (maxDelay : Nat) (simulation : Simulation) : Prop :=
  ∀ (position start : Nat) (envelope : Envelope),
    simulation.trace[position]? = some (.sent start envelope) →
      start + maxDelay ≤ simulation.clock

section Conservation

variable {seed : UInt64} {minDelay maxDelay : Nat}

theorem Accounts.carries (h : Accounts seed minDelay maxDelay [] simulation)
    (hbounds : minDelay ≤ maxDelay) {sending delivery : Nat}
    (hpairs : (simulation.calendar seed minDelay maxDelay []).Pairs sending delivery) :
    simulation.Carries minDelay maxDelay sending delivery ∧
      0 < delayAt seed minDelay maxDelay simulation.trace sending := by
  obtain ⟨start, delay, envelope, hentry, hhanded, hdelay⟩ := hpairs.entries
  obtain ⟨hsent, rfl⟩ := entries_sent.mp hentry
  have hdelivered := entries_handed.mp hhanded
  have hdrawn := delayAt_mem seed simulation.trace sending hbounds
  refine ⟨⟨start, _, envelope, hsent, hdelivered, h.balanced.sending_first hpairs, ?_, ?_⟩,
    hdelay⟩
  · exact Nat.add_le_add_left hdrawn.1 start
  · exact Nat.add_le_add_left hdrawn.2 start

theorem Accounts.conserves (h : Accounts seed minDelay maxDelay [] simulation)
    (hbounds : minDelay ≤ maxDelay)
    (hdelays : NoneInstant seed minDelay maxDelay simulation.trace) :
    simulation.Conserves minDelay maxDelay := by
  refine ⟨(simulation.calendar seed minDelay maxDelay []).Pairs, ?_, ?_, ?_, ?_⟩
  · exact fun sending delivery hpairs => (h.carries hbounds hpairs).1
  · exact fun sending delivery delivery' hpairs => hpairs.handing_unique
  · intro sending start envelope hsent hpast
    have hdrawn := delayAt_mem seed simulation.trace sending hbounds
    obtain ⟨delivery, hpairs⟩ := h.balanced.exists_handing rfl
      (entries_sent.mpr ⟨hsent, rfl⟩) (hdelays sending start envelope hsent)
      (Nat.le_trans (Nat.add_le_add_left hdrawn.2 start) hpast)
    exact ⟨delivery, hpairs, fun _ hother => hother.handing_unique hpairs⟩
  · intro delivery tick envelope hdelivered
    obtain ⟨sending, hpairs⟩ := h.balanced.exists_sending (entries_handed.mpr hdelivered)
    exact ⟨sending, hpairs, fun _ hother => hother.sending_unique hpairs⟩

/-- The positions of the events of a kind. -/
def positions (kind : TraceEvent → Bool) (simulation : Simulation) : Finset Nat :=
  (Finset.range simulation.trace.length).filter
    (fun position => simulation.trace[position]?.any kind)

theorem mem_positions {kind : TraceEvent → Bool} {position : Nat} :
    position ∈ simulation.positions kind ↔
      ∃ event, simulation.trace[position]? = some event ∧ kind event = true := by
  rw [positions, Finset.mem_filter, Finset.mem_range, Option.any_eq_true]
  constructor
  · exact And.right
  · rintro ⟨event, hevent, hkind⟩
    exact ⟨(List.getElem?_eq_some_iff.mp hevent).1, event, hevent, hkind⟩

theorem mem_positions_sent {position : Nat} :
    position ∈ simulation.positions TraceEvent.isSent ↔
      ∃ start envelope, simulation.trace[position]? = some (.sent start envelope) := by
  rw [mem_positions]
  constructor
  · rintro ⟨event, hevent, hkind⟩
    cases event with
    | sent start envelope => exact ⟨start, envelope, hevent⟩
    | tick start id nextTimeout => cases hkind
    | delivered start envelope => cases hkind
  · rintro ⟨start, envelope, hevent⟩
    exact ⟨_, hevent, rfl⟩

theorem mem_positions_delivered {position : Nat} :
    position ∈ simulation.positions TraceEvent.isDelivered ↔
      ∃ tick envelope, simulation.trace[position]? = some (.delivered tick envelope) := by
  rw [mem_positions]
  constructor
  · rintro ⟨event, hevent, hkind⟩
    cases event with
    | delivered tick envelope => exact ⟨tick, envelope, hevent⟩
    | tick start id nextTimeout => cases hkind
    | sent start envelope => cases hkind
  · rintro ⟨tick, envelope, hevent⟩
    exact ⟨_, hevent, rfl⟩

/-- Once every delay is over, a network that conserves its messages has
delivered as many as were sent; those without a delay were not delivered. -/
theorem Accounts.noneInstant (h : Accounts seed minDelay maxDelay [] simulation)
    (hbounds : minDelay ≤ maxDelay)
    (hover : simulation.DelaysOver maxDelay)
    (hconserves : simulation.Conserves minDelay maxDelay) :
    NoneInstant seed minDelay maxDelay simulation.trace := by
  obtain ⟨pairs, hmatching⟩ := hconserves
  let sent := simulation.positions TraceEvent.isSent
  let delivered := simulation.positions TraceEvent.isDelivered
  let delayed := sent.filter
    (fun position => 0 < delayAt seed minDelay maxDelay simulation.trace position)
  have hdelivered : sent.card ≤ delivered.card := by
    apply Finset.card_le_card_of_forall_subsingleton pairs
    · intro sending hsending
      obtain ⟨start, envelope, hsent⟩ := mem_positions_sent.mp hsending
      obtain ⟨delivery, hpairs, -⟩ :=
        hmatching.sent sending start envelope hsent (hover _ _ _ hsent)
      obtain ⟨_, tick, envelope', -, hevent, -⟩ := hmatching.carries _ _ hpairs
      exact ⟨delivery, mem_positions_delivered.mpr ⟨tick, envelope', hevent⟩, hpairs⟩
    · intro delivery hdelivery sending hsending sending' hsending'
      obtain ⟨tick, envelope, hevent⟩ := mem_positions_delivered.mp hdelivery
      exact (hmatching.delivered delivery tick envelope hevent).unique hsending.2
        hsending'.2
  have hdelayed : delivered.card ≤ delayed.card := by
    apply Finset.card_le_card_of_forall_subsingleton
      (fun delivery sending =>
        (simulation.calendar seed minDelay maxDelay []).Pairs sending delivery)
    · intro delivery hdelivery
      obtain ⟨tick, envelope, hevent⟩ := mem_positions_delivered.mp hdelivery
      obtain ⟨sending, hpairs⟩ := h.balanced.exists_sending (entries_handed.mpr hevent)
      obtain ⟨⟨start, _, envelope', hsent, -⟩, hdelay⟩ := h.carries hbounds hpairs
      exact ⟨sending, Finset.mem_filter.mpr
        ⟨mem_positions_sent.mpr ⟨start, envelope', hsent⟩, hdelay⟩, hpairs⟩
    · intro sending _ delivery hdelivery delivery' hdelivery'
      exact hdelivery.2.handing_unique hdelivery'.2
  have hall : delayed = sent :=
    Finset.eq_of_subset_of_card_le (Finset.filter_subset _ _)
      (Nat.le_trans hdelivered hdelayed)
  intro position start envelope hsent
  have hmem : position ∈ delayed := by
    rw [hall]
    exact mem_positions_sent.mpr ⟨start, envelope, hsent⟩
  exact (Finset.mem_filter.mp hmem).2

end Conservation

/-- A run in which no message draws a delay of zero conserves its messages. If
some message does, it is missing as soon as all delays are over. -/
theorem network_conserves {cluster : Nodes} {seed : UInt64}
    {minTimeout maxTimeout minDelay maxDelay : Nat} {calls : List Call}
    (hbounds : minDelay ≤ maxDelay)
    (hrun : (Simulation.new cluster seed minTimeout maxTimeout minDelay maxDelay).run calls =
      .ok simulation) :
    (NoneInstant seed minDelay maxDelay simulation.trace →
      simulation.Conserves minDelay maxDelay) ∧
    (simulation.DelaysOver maxDelay →
      (simulation.Conserves minDelay maxDelay ↔
        NoneInstant seed minDelay maxDelay simulation.trace)) := by
  have haccounts := (Accounts.new cluster minTimeout maxTimeout).run hrun
  constructor
  · exact haccounts.conserves hbounds
  · intro hover
    constructor
    · exact haccounts.noneInstant hbounds hover
    · exact haccounts.conserves hbounds

/-- A cluster of two new nodes. -/
def pairOfNodes (firstTimeout secondTimeout : Nat) : Option Nodes := do
  let first ← (Node.new ⟨1⟩ [⟨1⟩, ⟨2⟩] firstTimeout 1).toOption
  let second ← (Node.new ⟨2⟩ [⟨1⟩, ⟨2⟩] secondTimeout 1).toOption
  (Nodes.new [first, second]).toOption

theorem delayed_messages_arrive : ∃ cluster simulation,
    pairOfNodes 1 2 = some cluster ∧
    (Simulation.new cluster 0 2 4 1 2).run [.step, .step, .step] = .ok simulation ∧
    simulation.trace.any TraceEvent.isDelivered = true ∧
    simulation.Conserves 1 2 := by
  have hchecked : (pairOfNodes 1 2).any (fun cluster =>
      ((Simulation.new cluster 0 2 4 1 2).run [.step, .step, .step]).toOption.any
        (fun simulation => simulation.trace.any TraceEvent.isDelivered)) = true := by
    decide +kernel
  obtain ⟨cluster, hcluster, hchecked⟩ := Option.any_eq_true _ _ |>.mp hchecked
  obtain ⟨simulation, hrun, hchecked⟩ := Option.any_eq_true _ _ |>.mp hchecked
  have hrun := ok_of_toOption hrun
  exact ⟨cluster, simulation, hcluster, hrun, hchecked,
    (network_conserves (by decide) hrun).1 (noneInstant_of_minDelay (by decide) (by decide))⟩

/-- The vote request of the first node has no delay, and never arrives. -/
theorem instant_message_is_lost : ∃ cluster simulation,
    pairOfNodes 1 2 = some cluster ∧
    (Simulation.new cluster 0 2 4 0 0).run [.step, .step] = .ok simulation ∧
    ¬ simulation.Conserves 0 0 := by
  have hchecked : (pairOfNodes 1 2).any (fun cluster =>
      ((Simulation.new cluster 0 2 4 0 0).run [.step, .step]).toOption.any
        (fun simulation => decide (simulation.trace[1]? =
            some (.sent 1 ⟨⟨1⟩, ⟨2⟩, .requestVote ⟨1, ⟨1⟩, 0, 0⟩⟩) ∧ simulation.clock = 2 ∧
          simulation.trace.any TraceEvent.isDelivered = false))) = true := by
    decide +kernel
  obtain ⟨cluster, hcluster, hchecked⟩ := Option.any_eq_true _ _ |>.mp hchecked
  obtain ⟨simulation, hrun, hchecked⟩ := Option.any_eq_true _ _ |>.mp hchecked
  obtain ⟨hsent, hclock, hnone⟩ := of_decide_eq_true hchecked
  refine ⟨cluster, simulation, hcluster, ok_of_toOption hrun, ?_⟩
  rintro ⟨pairs, hmatching⟩
  obtain ⟨delivery, hpairs, -⟩ := hmatching.sent 1 1 _ hsent (by omega)
  obtain ⟨_, tick, envelope, -, hdelivered, -⟩ := hmatching.carries _ _ hpairs
  have hmem := List.mem_of_getElem? hdelivered
  exact absurd (List.any_eq_false.mp hnone _ hmem) (by simp [TraceEvent.isDelivered])

end Simulation

end Kurogane.Sim
