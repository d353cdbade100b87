import Kurogane.Kv.Replica
import Kurogane.Sim.Scheduler
import Kurogane.Verify.Checker

/-!
The harness that generates histories: replicas driven through logical time with
seeded delays and timeouts, operations of clients, and faults. An operation a
replica has taken in is pending until its entry is applied or its time is over.
-/

namespace Kurogane.Verify

open Kurogane.Raft Kurogane.Kv Kurogane.Runtime
open Kurogane.Sim (Envelope Rng TraceEvent checked)

/-- What is left of a node after a crash. -/
abbrev DurableState := Storage

inductive FaultKind where
  | isolated
  | healed
  | crashed
  | restarted
deriving DecidableEq, Repr

structure FaultEvent where
  tick : Nat
  node : NodeId
  kind : FaultKind
deriving DecidableEq, Repr

/-- An operation the harness is still waiting on; `term` is the one its entry had
right after it was proposed. -/
structure PendingOp where
  client : ClientId
  invokeTick : Nat
  target : NodeId
  index : Nat
  term : Nat
  command : Command
  deadline : Nat
deriving DecidableEq

/-- What the harness panics of: one of its own `expect`s, an index beyond the end, a
replica, a draw or a sum. -/
inductive Panic where
  | bootstrap
  | recovery
  | appendedEntry
  | knownNode
  | outOfBounds
  | replica (panic : Kv.Panic)
  | schedule (panic : Sim.Panic)
deriving DecidableEq

abbrev Replicas := Std.ExtTreeMap NodeId Replica

abbrev Durables := Std.ExtTreeMap NodeId DurableState

structure Harness where
  replicas : Replicas
  durable : Durables
  isolated : NodeSet
  peers : List NodeId
  electionTimeout : Nat
  heartbeatInterval : Nat
  rng : Rng
  clock : Nat
  inbox : Std.ExtTreeMap Nat (List Envelope)
  minTimeout : Nat
  maxTimeout : Nat
  minDelay : Nat
  maxDelay : Nat
  applyTimeoutTicks : Nat
  trace : List TraceEvent
  pending : List PendingOp
  history : List HistoryEntry
  faults : List FaultEvent

/-- What a driver does to a harness. -/
inductive Call where
  | submit (client : ClientId) (target : NodeId) (command : Command)
  | step
  | isolate (id : NodeId)
  | heal (id : NodeId)
  | crash (id : NodeId)
  | restart (id : NodeId)
deriving DecidableEq

def PendingOp.answered (op : PendingOp) (returnTick : Option Nat) (outcome : Outcome) :
    HistoryEntry where
  client := op.client
  invokeTick := op.invokeTick
  returnTick
  command := op.command
  outcome

namespace Harness

/-- One member of a new harness: a replica over an empty storage. -/
def join (peers : List NodeId) (electionTimeout heartbeatInterval : Nat) :
    Replicas × Durables → NodeId → Except Panic (Replicas × Durables)
  | (replicas, durable), id =>
      match Node.new id peers electionTimeout heartbeatInterval with
      | .error _ => .error .bootstrap
      | .ok node => do
          let replica ← (Replica.recover node).mapError .replica
          .ok (replicas.insert id replica, durable.insert id .fresh)

def new (peers : List NodeId) (electionTimeout heartbeatInterval : Nat) (seed : UInt64)
    (minTimeout maxTimeout minDelay maxDelay applyTimeoutTicks : Nat) :
    Except Panic Harness := do
  let (replicas, durable) ←
    peers.foldlM (join peers electionTimeout heartbeatInterval) (∅, ∅)
  .ok {
    replicas
    durable
    isolated := ∅
    peers
    electionTimeout
    heartbeatInterval
    rng := Rng.new seed
    clock := 0
    inbox := ∅
    minTimeout
    maxTimeout
    minDelay
    maxDelay
    applyTimeoutTicks
    trace := []
    pending := []
    history := []
    faults := [] }

def record (harness : Harness) (event : TraceEvent) : Harness :=
  { harness with trace := harness.trace ++ [event] }

/-! ### Faults -/

def recordFault (harness : Harness) (node : NodeId) (kind : FaultKind) : Harness :=
  { harness with faults := harness.faults ++ [⟨harness.clock, node, kind⟩] }

def isolate (harness : Harness) (id : NodeId) : Harness :=
  if harness.isolated.contains id then harness
  else { harness with isolated := harness.isolated.insert id }.recordFault id .isolated

def heal (harness : Harness) (id : NodeId) : Harness :=
  if harness.isolated.contains id then
    { harness with isolated := harness.isolated.erase id }.recordFault id .healed
  else harness

/-- A no-op if `id` is down. -/
def crash (harness : Harness) (id : NodeId) : Harness :=
  if harness.replicas.contains id then
    { harness with replicas := harness.replicas.erase id }.recordFault id .crashed
  else harness

/-- A no-op if `id` is up or isn't a known peer. -/
def restart (harness : Harness) (id : NodeId) : Except Panic Harness :=
  if harness.replicas.contains id || !harness.peers.contains id then .ok harness
  else
    match harness.durable[id]? with
    | none => .ok harness
    | some durable =>
        match Node.recover id harness.peers harness.electionTimeout
          harness.heartbeatInterval durable.hardState durable.log
          ⟨durable.snapshot, durable.snapshotData, durable.snapshotConfig⟩
          durable.learners with
        | .error _ => .error .recovery
        | .ok node => do
            let replica ← (Replica.recover node).mapError .replica
            .ok ({ harness with replicas := harness.replicas.insert id replica }.recordFault
              id .restarted)

/-! ### Effects -/

def persist (harness : Harness) (id : NodeId) (effects : List Effect) :
    Except Panic Harness :=
  match harness.durable[id]? with
  | none => .ok harness
  | some durable =>
      match durable.applyAll effects with
      | none => .error (.schedule .arithmetic)
      | some durable =>
          .ok { harness with durable := harness.durable.insert id durable }

def partitioned (harness : Harness) (envelope : Envelope) : Bool :=
  harness.isolated.contains envelope.sender || harness.isolated.contains envelope.receiver

/-- Files a message under the tick at which its delay is over. -/
def send (harness : Harness) (envelope : Envelope) : Except Panic Harness :=
  if harness.partitioned envelope then .ok harness
  else do
    let harness := harness.record (.sent harness.clock envelope)
    let (delay, rng) ←
      (harness.rng.rangeInclusive harness.minDelay harness.maxDelay).mapError .schedule
    let due ← (checked (harness.clock + delay)).mapError .schedule
    .ok { harness with
      rng
      inbox := harness.inbox.insert due (harness.inbox[due]?.getD [] ++ [envelope]) }

/-- Everything a batch persists is written before anything of it is sent. -/
def applyEffects (harness : Harness) (id : NodeId) (effects : List Effect) :
    Except Panic Harness := do
  let harness ← harness.persist id effects
  (Sim.sent id effects).foldlM send harness

/-! ### Operations -/

def reject (harness : Harness) (client : ClientId) (command : Command) : Harness :=
  { harness with
    history := harness.history ++
      [⟨client, harness.clock, some harness.clock, command, .rejected⟩] }

/-- Rejected at once where the target is down or not the leader, pending else. -/
def submit (harness : Harness) (client : ClientId) (target : NodeId)
    (command : Command) : Except Panic Harness :=
  match harness.replicas[target]? with
  | none => .ok (harness.reject client command)
  | some replica => do
      let (replica, answer, _) ← (replica.propose command).mapError .replica
      let harness := { harness with replicas := harness.replicas.insert target replica }
      match answer with
      | none => .ok (harness.reject client command)
      | some (index, effects) =>
          match replica.node.entryAt index with
          | none => .error .appendedEntry
          | some entry => do
              let harness ← harness.applyEffects target effects
              let deadline ←
                (checked (harness.clock + harness.applyTimeoutTicks)).mapError .schedule
              .ok { harness with
                pending := harness.pending ++ [{
                  client
                  invokeTick := harness.clock
                  target
                  index
                  term := entry.term
                  command
                  deadline }] }

/-- The result of `op`, once its target has applied the entry it proposed. -/
def applied (harness : Harness) (op : PendingOp) : Option ApplyResult := do
  let replica ← harness.replicas[op.target]?
  if replica.lastApplied < op.index then none
  else
    let entry ← replica.node.entryAt op.index
    if entry.term = op.term then replica.appliedResult op.index else none

def settle (harness : Harness) (op : PendingOp) : Harness :=
  match harness.applied op with
  | some result =>
      { harness with
        history := harness.history ++ [op.answered (some harness.clock) (.applied result)] }
  | none =>
      if op.deadline ≤ harness.clock then
        { harness with
          history := harness.history ++ [op.answered (some harness.clock) .indeterminate] }
      else { harness with pending := harness.pending ++ [op] }

def resolvePending (harness : Harness) : Harness :=
  harness.pending.foldl settle { harness with pending := [] }

/-! ### Time -/

def serve (harness : Harness) (id : NodeId) (replica : Replica) (event : Event) :
    Except Panic Harness := do
  let (replica, effects, _) ← (replica.step event).mapError .replica
  { harness with replicas := harness.replicas.insert id replica }.applyEffects id effects

/-- A message from or to an isolated node is dropped, and one to a node that is
down. -/
def deliver (harness : Harness) (envelope : Envelope) : Except Panic Harness :=
  if harness.partitioned envelope then .ok harness
  else
    match harness.replicas[envelope.receiver]? with
    | none => .ok harness
    | some replica =>
        (harness.record (.delivered harness.clock envelope)).serve envelope.receiver replica
          (.step envelope.sender envelope.message)

def tick (harness : Harness) (id : NodeId) : Except Panic Harness := do
  let (nextTimeout, rng) ←
    (harness.rng.rangeInclusive harness.minTimeout harness.maxTimeout).mapError .schedule
  let harness := { harness with rng }.record (.tick harness.clock id nextTimeout)
  match harness.replicas[id]? with
  | none => .error .knownNode
  | some replica => harness.serve id replica (.tick nextTimeout)

/-- Advances logical time by one tick: delivers due messages, ticks every node
that is up in canonical order, and resolves what has been applied or timed out. -/
def step (harness : Harness) : Except Panic Harness := do
  let clock ← (checked (harness.clock + 1)).mapError .schedule
  let due := harness.inbox[clock]?.getD []
  let harness ← due.foldlM deliver { harness with clock, inbox := harness.inbox.erase clock }
  let harness ← harness.replicas.keys.foldlM tick harness
  .ok harness.resolvePending

def call (harness : Harness) : Call → Except Panic Harness
  | .submit client target command => harness.submit client target command
  | .step => harness.step
  | .isolate id => .ok (harness.isolate id)
  | .heal id => .ok (harness.heal id)
  | .crash id => .ok (harness.crash id)
  | .restart id => harness.restart id

def run (harness : Harness) (calls : List Call) : Except Panic Harness :=
  calls.foldlM call harness

/-- What is still outstanding has no return tick. -/
def finish (harness : Harness) : List HistoryEntry :=
  harness.history ++ harness.pending.map (fun op => op.answered none .indeterminate)

end Harness

end Kurogane.Verify
