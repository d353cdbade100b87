import Kurogane.Sim.Cluster
import Mathlib.Algebra.Group.Nat.Defs

/-!
The deterministic scheduler that drives a cluster through logical time: one
seeded generator draws every election timeout and every delay of a message,
and a trace records what was ticked, sent and delivered. A sum that does not
fit in 64 bits panics, and so does a draw from an empty range.
-/

namespace Kurogane.Sim

open Kurogane.Raft

inductive Panic where
  | node
  | deliveryTarget
  | knownNode
  | arithmetic
deriving DecidableEq

def checked (number : Nat) : Except Panic Nat :=
  if number < 2 ^ 64 then .ok number else .error .arithmetic

theorem checked_ok {number result : Nat} (h : checked number = .ok result) :
    result = number := by
  unfold checked at h
  split at h
  · cases h
    rfl
  · cases h

/-- The splitmix64 generator. -/
structure Rng where
  state : UInt64
deriving DecidableEq

namespace Rng

def new (seed : UInt64) : Rng := ⟨seed⟩

@[irreducible]
def nextU64 (rng : Rng) : UInt64 × Rng :=
  let state := rng.state + 0x9E3779B97F4A7C15
  let z := (state ^^^ (state >>> 30)) * 0xBF58476D1CE4E5B9
  let z := (z ^^^ (z >>> 27)) * 0x94D049BB133111EB
  (z ^^^ (z >>> 31), ⟨state⟩)

/-- The value in `[low, high]` that the next number stands for. -/
def drawn (rng : Rng) (low high : Nat) : Nat :=
  low + rng.nextU64.1.toNat % (high - low + 1)

def rangeInclusive (rng : Rng) (low high : Nat) : Except Panic (Nat × Rng) :=
  if high < low then .error .arithmetic
  else do
    let _ ← checked (high - low + 1)
    .ok (rng.drawn low high, rng.nextU64.2)

theorem rangeInclusive_ok {rng rng' : Rng} {low high value : Nat}
    (h : rng.rangeInclusive low high = .ok (value, rng')) :
    value = rng.drawn low high ∧ rng' = rng.nextU64.2 := by
  unfold rangeInclusive at h
  split at h
  · cases h
  · obtain ⟨width, -, h⟩ := bind_eq_ok h
    cases h
    exact ⟨rfl, rfl⟩

theorem drawn_mem {rng : Rng} {low high : Nat} (h : low ≤ high) :
    low ≤ rng.drawn low high ∧ rng.drawn low high ≤ high := by
  have hlt : rng.nextU64.1.toNat % (high - low + 1) < high - low + 1 :=
    Nat.mod_lt _ (Nat.zero_lt_succ _)
  unfold drawn
  omega

end Rng

/-- One recorded step of a simulation. -/
inductive TraceEvent where
  | tick (clock : Nat) (node : NodeId) (nextTimeout : Nat)
  | delivered (clock : Nat) (envelope : Envelope)
  | sent (clock : Nat) (envelope : Envelope)
deriving DecidableEq

abbrev Nodes := Std.ExtTreeMap NodeId Node

inductive ClusterError where
  | emptyCluster
  | duplicateNode (id : NodeId)
deriving DecidableEq

/-- Takes ownership of one node per member. -/
def Nodes.new (nodes : List Node) : Except ClusterError Nodes :=
  if nodes.isEmpty then .error .emptyCluster
  else nodes.foldlM (fun byId node =>
    if byId.contains node.id then .error (.duplicateNode node.id)
    else .ok (byId.insert node.id node)) ∅

structure Simulation where
  cluster : Nodes
  rng : Rng
  clock : Nat
  inbox : Std.ExtTreeMap Nat (List Envelope)
  minTimeout : Nat
  maxTimeout : Nat
  minDelay : Nat
  maxDelay : Nat
  trace : List TraceEvent
deriving DecidableEq

/-- What a test does to a simulation from outside. -/
inductive Call where
  | step
  | addLearner (leader id : NodeId)
  | proposeConfigChange (leader : NodeId) (newVoters : List NodeId)
deriving DecidableEq

namespace Simulation

def new (cluster : Nodes) (seed : UInt64)
    (minTimeout maxTimeout minDelay maxDelay : Nat) : Simulation where
  cluster
  rng := Rng.new seed
  clock := 0
  inbox := ∅
  minTimeout
  maxTimeout
  minDelay
  maxDelay
  trace := []

def record (simulation : Simulation) (event : TraceEvent) : Simulation :=
  { simulation with trace := simulation.trace ++ [event] }

/-- The messages filed under `tick`. -/
def filed (simulation : Simulation) (tick : Nat) : List Envelope :=
  simulation.inbox[tick]?.getD []

/-- Files a message under the tick at which its delay is over. -/
def send (simulation : Simulation) (envelope : Envelope) : Except Panic Simulation := do
  let simulation := simulation.record (.sent simulation.clock envelope)
  let (delay, rng) ← simulation.rng.rangeInclusive simulation.minDelay simulation.maxDelay
  let due ← checked (simulation.clock + delay)
  .ok { simulation with
    rng
    inbox := simulation.inbox.insert due (simulation.filed due ++ [envelope]) }

/-- Persistence is not message delivery: there is nothing to route. -/
def applyEffects (simulation : Simulation) (id : NodeId) (effects : List Effect) :
    Except Panic Simulation :=
  (sent id effects).foldlM send simulation

/-- Puts the node `id` stands for after a transition in its place, and routes
the effects. -/
def apply (simulation : Simulation) (id : NodeId) : Transition → Except Panic Simulation
  | none => .error .node
  | some (node, effects) =>
      { simulation with cluster := simulation.cluster.insert id node }.applyEffects id effects

/-- The node `id` takes an event; `missing` is the panic where there is none. -/
def serve (simulation : Simulation) (id : NodeId) (event : Event) (missing : Panic) :
    Except Panic Simulation :=
  match simulation.cluster[id]? with
  | none => .error missing
  | some node => simulation.apply id (node.step event)

def deliver (simulation : Simulation) (envelope : Envelope) : Except Panic Simulation :=
  let simulation := simulation.record (.delivered simulation.clock envelope)
  simulation.serve envelope.receiver (.step envelope.sender envelope.message) .deliveryTarget

def tick (simulation : Simulation) (id : NodeId) : Except Panic Simulation := do
  let (nextTimeout, rng) ←
    simulation.rng.rangeInclusive simulation.minTimeout simulation.maxTimeout
  let simulation := { simulation with rng }.record (.tick simulation.clock id nextTimeout)
  simulation.serve id (.tick nextTimeout) .knownNode

/-- The clock moves on and the batch of the new tick is taken out. -/
def advance (simulation : Simulation) (clock : Nat) : Simulation :=
  { simulation with clock, inbox := simulation.inbox.erase clock }

/-- Advances logical time by one tick: delivers due messages, then ticks every
node in canonical order. -/
def step (simulation : Simulation) : Except Panic Simulation := do
  let clock ← checked (simulation.clock + 1)
  let simulation ← (simulation.filed clock).foldlM deliver (simulation.advance clock)
  simulation.cluster.keys.foldlM tick simulation

/-- A no-op if `leader` is not a known node. -/
def addLearner (simulation : Simulation) (leader id : NodeId) : Except Panic Simulation :=
  match simulation.cluster[leader]? with
  | none => .ok simulation
  | some node => simulation.apply leader (some (node.addLearner id))

/-- The new entry's index, or `none` where there is no such leader. -/
def proposeConfigChange (simulation : Simulation) (leader : NodeId)
    (newVoters : List NodeId) : Except Panic (Option Nat × Simulation) :=
  match simulation.cluster[leader]? with
  | none => .ok (none, simulation)
  | some node =>
      match node.proposeConfigChange newVoters with
      | none => .error .node
      | some none => .ok (none, simulation)
      | some (some (node, index, effects)) => do
          let simulation ← simulation.apply leader (some (node, effects))
          .ok (some index, simulation)

def call (simulation : Simulation) : Call → Except Panic Simulation
  | .step => simulation.step
  | .addLearner leader id => simulation.addLearner leader id
  | .proposeConfigChange leader newVoters => do
      let (_, simulation) ← simulation.proposeConfigChange leader newVoters
      .ok simulation

def run (simulation : Simulation) (calls : List Call) : Except Panic Simulation :=
  calls.foldlM call simulation

section Inversion

variable {simulation simulation' : Simulation} {id : NodeId}

theorem send_ok {envelope : Envelope} (h : simulation.send envelope = .ok simulation') :
    let due := simulation.clock +
      simulation.rng.drawn simulation.minDelay simulation.maxDelay
    simulation' = { simulation.record (.sent simulation.clock envelope) with
      rng := simulation.rng.nextU64.2
      inbox := simulation.inbox.insert due (simulation.filed due ++ [envelope]) } := by
  obtain ⟨⟨delay, rng⟩, hrange, h⟩ := bind_eq_ok h
  obtain ⟨due, hdue, h⟩ := bind_eq_ok h
  obtain ⟨rfl, rfl⟩ := Rng.rangeInclusive_ok hrange
  obtain rfl := checked_ok hdue
  cases h
  rfl

theorem apply_ok {transition : Transition}
    (h : simulation.apply id transition = .ok simulation') :
    ∃ node effects, transition = some (node, effects) ∧
      { simulation with cluster := simulation.cluster.insert id node }.applyEffects id
        effects = .ok simulation' := by
  cases transition with
  | none => cases h
  | some result => exact ⟨result.1, result.2, rfl, h⟩

theorem serve_ok {event : Event} {missing : Panic}
    (h : simulation.serve id event missing = .ok simulation') :
    ∃ node, simulation.cluster[id]? = some node ∧
      simulation.apply id (node.step event) = .ok simulation' := by
  unfold serve at h
  split at h
  · cases h
  · rename_i node hnode
    exact ⟨node, hnode, h⟩

theorem tick_ok (h : simulation.tick id = .ok simulation') :
    ∃ nextTimeout rng, rng = simulation.rng.nextU64.2 ∧
      ({ simulation with rng }.record (.tick simulation.clock id nextTimeout)).serve id
        (.tick nextTimeout) .knownNode = .ok simulation' := by
  obtain ⟨⟨nextTimeout, rng⟩, hrange, h⟩ := bind_eq_ok h
  exact ⟨nextTimeout, rng, (Rng.rangeInclusive_ok hrange).2, h⟩

theorem step_ok (h : simulation.step = .ok simulation') :
    ∃ delivered,
      (simulation.filed (simulation.clock + 1)).foldlM deliver
        (simulation.advance (simulation.clock + 1)) = .ok delivered ∧
      delivered.cluster.keys.foldlM tick delivered = .ok simulation' := by
  obtain ⟨clock, hclock, h⟩ := bind_eq_ok h
  obtain rfl := checked_ok hclock
  exact bind_eq_ok h

end Inversion

end Simulation

end Kurogane.Sim
