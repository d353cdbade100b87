import Kurogane.Kv.Applying
import Kurogane.Runtime.Storage

/-!
The task that owns one replica. It serves one request after the other: the
replica takes it, its effects are persisted, and compaction follows once enough
has been applied. After each request it publishes the index applied last, for
those who wait. What it sends to its peers is not read again and is left out.
-/

namespace Kurogane.Runtime

open Kurogane.Raft
open Kurogane.Kv (Replica Command ApplyResult)

inductive ActorPanic where
  | replica (panic : Kv.Panic)
  | storage
  | reply
  | arithmetic
deriving DecidableEq

inductive ProposeOutcome where
  | accepted (index : Nat)
  | notLeader (hint : Option NodeId)
deriving DecidableEq

inductive AddLearnerOutcome where
  | accepted (connected : Bool)
  | notLeader (hint : Option NodeId)
deriving DecidableEq

/-- `reachable` is what the transport makes of the address of a learner. -/
inductive ActorRequest where
  | tick (nextTimeout : Nat)
  | peerRequest (sender : NodeId) (message : Message)
  | peerResponse (sender : NodeId) (message : Message)
  | propose (command : Command)
  | proposeConfigChange (newVoters : List NodeId)
  | addLearner (id : NodeId) (reachable : Bool)
  | removeLearner (id : NodeId)
  | appliedResult (index : Nat)
  | entryTerm (index : Nat)
deriving DecidableEq

inductive ActorReply where
  | nothing
  | message (message : Option Message)
  | proposed (outcome : ProposeOutcome)
  | learner (outcome : AddLearnerOutcome)
  | result (result : Option ApplyResult)
  | term (term : Option Nat)
deriving DecidableEq

/-- `published` is what the watch over the index applied last shows. -/
structure Actor where
  replica : Replica
  storage : Storage
  leaderHint : Option NodeId
  compactThreshold : Nat
  published : Nat
deriving DecidableEq

/-- What a replica answers, or its panic. -/
def ofReplica {α : Type} : Except Kv.Panic α → Except ActorPanic α
  | .error panic => .error (.replica panic)
  | .ok answer => .ok answer

namespace Actor

def new (replica : Replica) (storage : Storage) (compactThreshold : Nat) : Actor where
  replica
  storage
  leaderHint := none
  compactThreshold
  published := 0

def appliedResult (actor : Actor) (index : Nat) : Option ApplyResult :=
  actor.replica.appliedResult index

/-- The term the log entry at `index` currently holds, if any. -/
def entryTerm (actor : Actor) (index : Nat) : Option Nat :=
  (actor.replica.node.entryAt index).map LogEntry.term

/-- A request that would itself be rejected tells nothing about who leads. -/
def updateLeaderHint (actor : Actor) (sender : NodeId) (message : Message) : Actor :=
  let update := fun (leaderId : NodeId) (term : Nat) =>
    if leaderId = sender ∧ actor.replica.node.currentTerm ≤ term then
      { actor with leaderHint := some leaderId }
    else actor
  match message with
  | .appendEntries request => update request.leaderId request.term
  | .installSnapshot request => update request.leaderId request.term
  | _ => actor

def dispatch (actor : Actor) (effects : List Effect) : Except ActorPanic Actor :=
  match actor.storage.applyAll effects with
  | none => .error .storage
  | some storage => .ok { actor with storage }

/-- Compacts once enough entries have been applied since the last compaction,
and retains half as many. -/
def maybeCompact (actor : Actor) : Except ActorPanic Actor :=
  let boundary := actor.replica.node.snapshot.lastIncludedIndex
  if actor.replica.lastApplied < boundary then .error .arithmetic
  else if actor.replica.lastApplied - boundary < actor.compactThreshold then .ok actor
  else do
    let (replica, effects) ←
      ofReplica (actor.replica.compact (actor.compactThreshold / 2))
    { actor with replica }.dispatch (effects.getD [])

def handleEvent (actor : Actor) (event : Event) : Except ActorPanic Actor := do
  let actor :=
    match event with
    | .step sender message => actor.updateLeaderHint sender message
    | .tick _ => actor
  let (replica, effects, _) ← ofReplica (actor.replica.step event)
  let actor ← { actor with replica }.dispatch effects
  actor.maybeCompact

/-- The effects that the answer to a peer's request waits for; the learners are
not among them. -/
def persistsForReply : Effect → Bool
  | .persistHardState _ _ | .persistLog _ _ | .persistSnapshot _ _ _ _ => true
  | .send _ _ | .persistLearners _ => false

/-- The last effect of a request that was not dropped is the reply to it. -/
def handlePeerRequest (actor : Actor) (sender : NodeId) (message : Message) :
    Except ActorPanic (Actor × Option Message) := do
  let actor := actor.updateLeaderHint sender message
  let (replica, effects, _) ← ofReplica (actor.replica.step (.step sender message))
  match effects.getLast? with
  | none => .ok ({ actor with replica }, none)
  | some (.send _ reply) => do
      let actor ← { actor with replica }.dispatch (effects.dropLast.filter persistsForReply)
      let actor ← actor.maybeCompact
      .ok (actor, some reply)
  | some _ => .error .reply

def propose (actor : Actor) (command : Command) :
    Except ActorPanic (Actor × ProposeOutcome) := do
  let (replica, answer, _) ← ofReplica (actor.replica.propose command)
  match answer with
  | none => .ok ({ actor with replica }, .notLeader actor.leaderHint)
  | some (index, effects) => do
      let actor ← { actor with replica }.dispatch effects
      let actor ← actor.maybeCompact
      .ok (actor, .accepted index)

def proposeConfigChange (actor : Actor) (newVoters : List NodeId) :
    Except ActorPanic (Actor × ProposeOutcome) := do
  let (replica, answer, _) ← ofReplica (actor.replica.proposeConfigChange newVoters)
  match answer with
  | none => .ok ({ actor with replica }, .notLeader actor.leaderHint)
  | some (index, effects) => do
      let actor ← { actor with replica }.dispatch effects
      let actor ← actor.maybeCompact
      .ok (actor, .accepted index)

def addLearner (actor : Actor) (id : NodeId) (reachable : Bool) :
    Except ActorPanic (Actor × AddLearnerOutcome) :=
  if actor.replica.node.role ≠ .leader then
    .ok (actor, .notLeader actor.leaderHint)
  else do
    let (replica, effects, _) ← ofReplica (actor.replica.addLearner id)
    let actor ← { actor with replica }.dispatch effects
    let actor ← actor.maybeCompact
    .ok (actor, .accepted reachable)

def removeLearner (actor : Actor) (id : NodeId) : Except ActorPanic Actor := do
  let (replica, effects, _) ← ofReplica (actor.replica.removeLearner id)
  let actor ← { actor with replica }.dispatch effects
  actor.maybeCompact

def handle (actor : Actor) : ActorRequest → Except ActorPanic (Actor × ActorReply)
  | .tick nextTimeout => do
      let actor ← actor.handleEvent (.tick nextTimeout)
      .ok (actor, .nothing)
  | .peerRequest sender message => do
      let (actor, reply) ← actor.handlePeerRequest sender message
      .ok (actor, .message reply)
  | .peerResponse sender message => do
      let actor ← actor.handleEvent (.step sender message)
      .ok (actor, .nothing)
  | .propose command => do
      let (actor, outcome) ← actor.propose command
      .ok (actor, .proposed outcome)
  | .proposeConfigChange newVoters => do
      let (actor, outcome) ← actor.proposeConfigChange newVoters
      .ok (actor, .proposed outcome)
  | .addLearner id reachable => do
      let (actor, outcome) ← actor.addLearner id reachable
      .ok (actor, .learner outcome)
  | .removeLearner id => do
      let actor ← actor.removeLearner id
      .ok (actor, .nothing)
  | .appliedResult index => .ok (actor, .result (actor.appliedResult index))
  | .entryTerm index => .ok (actor, .term (actor.entryTerm index))

def publish (actor : Actor) : Actor :=
  { actor with published := actor.replica.lastApplied }

/-- One round of `run`. -/
def serve (actor : Actor) (request : ActorRequest) :
    Except ActorPanic (Actor × ActorReply) := do
  let (actor, reply) ← actor.handle request
  .ok (actor.publish, reply)

/-- Requests of others: their replies go elsewhere. -/
def serveAll (actor : Actor) (requests : List ActorRequest) : Except ActorPanic Actor :=
  requests.foldlM (fun actor request => do
    let (actor, _) ← actor.serve request
    .ok actor) actor

/-! ### What becomes of the replica -/

/-- Requests of a replica's owner lead from one state to the other. -/
def Owns (replica next : Replica) : Prop :=
  ∃ requests deliveries, replica.performAll requests = .ok (next, deliveries)

section Owning

variable {replica middle next : Replica}

theorem Owns.refl (replica : Replica) : Owns replica replica := ⟨[], [], rfl⟩

theorem Owns.first {request : Kv.Request} {deliveries : List Kv.Delivery}
    (h : replica.perform request = .ok (middle, deliveries)) (hrest : Owns middle next) :
    Owns replica next := by
  obtain ⟨requests, later, hrest⟩ := hrest
  refine ⟨request :: requests, deliveries ++ later, ?_⟩
  unfold Replica.performAll
  rw [h]
  show (middle.performAll requests >>= _) = _
  rw [hrest]
  rfl

theorem Owns.trans (h : Owns replica middle) (hrest : Owns middle next) :
    Owns replica next := by
  obtain ⟨requests, deliveries, h⟩ := h
  induction requests generalizing replica deliveries with
  | nil =>
      cases h
      exact hrest
  | cons request rest ih =>
      obtain ⟨⟨first, delivered⟩, hfirst, h⟩ := bind_eq_ok h
      obtain ⟨⟨last, later⟩, hlast, h⟩ := bind_eq_ok h
      cases h
      exact .first hfirst (ih _ hlast)

/-- What has been applied stays applied. -/
theorem Owns.lastApplied_le (h : Owns replica next) :
    replica.lastApplied ≤ next.lastApplied := by
  obtain ⟨requests, deliveries, h⟩ := h
  induction requests generalizing replica deliveries with
  | nil =>
      cases h
      exact Nat.le_refl _
  | cons request rest ih =>
      obtain ⟨⟨first, delivered⟩, hfirst, h⟩ := bind_eq_ok h
      obtain ⟨⟨last, later⟩, hlast, h⟩ := bind_eq_ok h
      cases h
      exact Nat.le_trans (Kv.Replica.lastApplied_le hfirst) (ih _ hlast)

end Owning

section Serving

variable {actor next : Actor} {request : ActorRequest} {reply : ActorReply}

theorem ofReplica_ok {α : Type} {answer : Except Kv.Panic α} {a : α}
    (h : ofReplica answer = .ok a) : answer = .ok a := by
  cases answer with
  | error panic => cases h
  | ok b =>
      cases h
      rfl

theorem updateLeaderHint_replica {sender : NodeId} {message : Message} :
    (actor.updateLeaderHint sender message).replica = actor.replica := by
  unfold updateLeaderHint
  dsimp only
  split
  · split <;> rfl
  · split <;> rfl
  · rfl

theorem dispatch_ok {effects : List Effect} (h : actor.dispatch effects = .ok next) :
    next.replica = actor.replica := by
  unfold dispatch at h
  split at h
  · cases h
  · cases h
    rfl

theorem maybeCompact_owns (h : actor.maybeCompact = .ok next) :
    Owns actor.replica next.replica := by
  unfold maybeCompact at h
  dsimp only at h
  split at h
  · cases h
  split at h
  · cases h
    exact .refl _
  obtain ⟨⟨replica, effects⟩, hcompact, h⟩ := bind_eq_ok h
  rw [dispatch_ok h]
  have hperform : actor.replica.perform (.compact (actor.compactThreshold / 2)) =
      .ok (replica, []) := by
    show (actor.replica.compact _ >>= _) = _
    rw [ofReplica_ok hcompact]
    rfl
  exact .first hperform (.refl _)

/-- After a request of the replica, persisting and compaction. -/
theorem settle_owns {replica : Replica} {effects : List Effect} {middle : Actor}
    (hdispatch : { actor with replica }.dispatch effects = .ok middle)
    (hcompact : middle.maybeCompact = .ok next) : Owns replica next.replica := by
  have howns := maybeCompact_owns hcompact
  rw [dispatch_ok hdispatch] at howns
  exact howns

theorem handleEvent_owns {event : Event} (h : actor.handleEvent event = .ok next) :
    Owns actor.replica next.replica := by
  obtain ⟨⟨replica, effects, deliveries⟩, hstep, h⟩ := bind_eq_ok h
  obtain ⟨middle, hdispatch, hcompact⟩ := bind_eq_ok h
  have hsame : (match event with
      | .step sender message => actor.updateLeaderHint sender message
      | .tick _ => actor).replica = actor.replica := by
    cases event with
    | tick nextTimeout => rfl
    | step sender message => exact updateLeaderHint_replica
  rw [hsame] at hstep
  have hperform : actor.replica.perform (.step event) = .ok (replica, deliveries) := by
    show (actor.replica.step event >>= _) = _
    rw [ofReplica_ok hstep]
    rfl
  exact .first hperform (settle_owns hdispatch hcompact)

theorem handlePeerRequest_owns {sender : NodeId} {message : Message}
    {answer : Option Message}
    (h : actor.handlePeerRequest sender message = .ok (next, answer)) :
    Owns actor.replica next.replica := by
  obtain ⟨⟨replica, effects, deliveries⟩, hstep, h⟩ := bind_eq_ok h
  rw [updateLeaderHint_replica] at hstep
  have hperform : actor.replica.perform (.step (.step sender message)) =
      .ok (replica, deliveries) := by
    show (actor.replica.step _ >>= _) = _
    rw [ofReplica_ok hstep]
    rfl
  apply Owns.first hperform
  dsimp only at h
  split at h
  · cases h
    exact .refl _
  · obtain ⟨middle, hdispatch, h⟩ := bind_eq_ok h
    obtain ⟨last, hcompact, h⟩ := bind_eq_ok h
    cases h
    exact settle_owns hdispatch hcompact
  · cases h

/-- A proposal that is declined leaves the replica as it was. -/
theorem propose_owns {command : Command} {outcome : ProposeOutcome}
    (h : actor.propose command = .ok (next, outcome)) :
    Owns actor.replica next.replica := by
  obtain ⟨⟨replica, answer, deliveries⟩, hpropose, h⟩ := bind_eq_ok h
  have hperform : actor.replica.perform (.propose command) = .ok (replica, deliveries) := by
    show (actor.replica.propose command >>= _) = _
    rw [ofReplica_ok hpropose]
    rfl
  apply Owns.first hperform
  dsimp only at h
  split at h
  · cases h
    exact .refl _
  · obtain ⟨middle, hdispatch, h⟩ := bind_eq_ok h
    obtain ⟨last, hcompact, h⟩ := bind_eq_ok h
    cases h
    exact settle_owns hdispatch hcompact

theorem proposeConfigChange_owns {newVoters : List NodeId} {outcome : ProposeOutcome}
    (h : actor.proposeConfigChange newVoters = .ok (next, outcome)) :
    Owns actor.replica next.replica := by
  obtain ⟨⟨replica, answer, deliveries⟩, hpropose, h⟩ := bind_eq_ok h
  have hperform : actor.replica.perform (.proposeConfigChange newVoters) =
      .ok (replica, deliveries) := by
    show (actor.replica.proposeConfigChange newVoters >>= _) = _
    rw [ofReplica_ok hpropose]
    rfl
  apply Owns.first hperform
  dsimp only at h
  split at h
  · cases h
    exact .refl _
  · obtain ⟨middle, hdispatch, h⟩ := bind_eq_ok h
    obtain ⟨last, hcompact, h⟩ := bind_eq_ok h
    cases h
    exact settle_owns hdispatch hcompact

theorem addLearner_owns {id : NodeId} {reachable : Bool} {outcome : AddLearnerOutcome}
    (h : actor.addLearner id reachable = .ok (next, outcome)) :
    Owns actor.replica next.replica := by
  unfold addLearner at h
  split at h
  · cases h
    exact .refl _
  · obtain ⟨⟨replica, effects, deliveries⟩, hadd, h⟩ := bind_eq_ok h
    obtain ⟨middle, hdispatch, h⟩ := bind_eq_ok h
    obtain ⟨last, hcompact, h⟩ := bind_eq_ok h
    cases h
    have hperform : actor.replica.perform (.addLearner id) = .ok (replica, deliveries) := by
      show (actor.replica.addLearner id >>= _) = _
      rw [ofReplica_ok hadd]
      rfl
    exact .first hperform (settle_owns hdispatch hcompact)

theorem removeLearner_owns {id : NodeId} (h : actor.removeLearner id = .ok next) :
    Owns actor.replica next.replica := by
  obtain ⟨⟨replica, effects, deliveries⟩, hremove, h⟩ := bind_eq_ok h
  obtain ⟨middle, hdispatch, hcompact⟩ := bind_eq_ok h
  have hperform : actor.replica.perform (.removeLearner id) = .ok (replica, deliveries) := by
    show (actor.replica.removeLearner id >>= _) = _
    rw [ofReplica_ok hremove]
    rfl
  exact .first hperform (settle_owns hdispatch hcompact)

/-- Whatever the actor serves, its replica gets requests of an owner. -/
theorem handle_owns (h : actor.handle request = .ok (next, reply)) :
    Owns actor.replica next.replica := by
  cases request with
  | tick nextTimeout =>
      obtain ⟨last, hevent, h⟩ := bind_eq_ok h
      cases h
      exact handleEvent_owns hevent
  | peerRequest sender message =>
      obtain ⟨⟨last, answer⟩, hrequest, h⟩ := bind_eq_ok h
      cases h
      exact handlePeerRequest_owns hrequest
  | peerResponse sender message =>
      obtain ⟨last, hevent, h⟩ := bind_eq_ok h
      cases h
      exact handleEvent_owns hevent
  | propose command =>
      obtain ⟨⟨last, outcome⟩, hpropose, h⟩ := bind_eq_ok h
      cases h
      exact propose_owns hpropose
  | proposeConfigChange newVoters =>
      obtain ⟨⟨last, outcome⟩, hpropose, h⟩ := bind_eq_ok h
      cases h
      exact proposeConfigChange_owns hpropose
  | addLearner id reachable =>
      obtain ⟨⟨last, outcome⟩, hadd, h⟩ := bind_eq_ok h
      cases h
      exact addLearner_owns hadd
  | removeLearner id =>
      obtain ⟨last, hremove, h⟩ := bind_eq_ok h
      cases h
      exact removeLearner_owns hremove
  | appliedResult index =>
      cases h
      exact .refl _
  | entryTerm index =>
      cases h
      exact .refl _

theorem serve_owns (h : actor.serve request = .ok (next, reply)) :
    Owns actor.replica next.replica ∧ next.published = next.replica.lastApplied := by
  obtain ⟨⟨last, answer⟩, hhandle, h⟩ := bind_eq_ok h
  cases h
  have howns : Owns actor.replica last.replica := handle_owns hhandle
  exact ⟨howns, rfl⟩

theorem serveAll_cons {rest : List ActorRequest}
    (h : actor.serveAll (request :: rest) = .ok next) :
    ∃ middle reply, actor.serve request = .ok (middle, reply) ∧
      middle.serveAll rest = .ok next := by
  unfold serveAll at h
  rw [List.foldlM_cons] at h
  obtain ⟨middle, hfirst, hrest⟩ := bind_eq_ok h
  obtain ⟨⟨served, reply⟩, hserve, hfirst⟩ := bind_eq_ok hfirst
  cases hfirst
  exact ⟨middle, reply, hserve, hrest⟩

theorem serveAll_owns {requests : List ActorRequest}
    (hpublished : actor.published = actor.replica.lastApplied)
    (h : actor.serveAll requests = .ok next) :
    Owns actor.replica next.replica ∧ next.published = next.replica.lastApplied := by
  induction requests generalizing actor with
  | nil =>
      cases h
      exact ⟨.refl _, hpublished⟩
  | cons request rest ih =>
      obtain ⟨middle, reply, hserve, hrest⟩ := serveAll_cons h
      obtain ⟨howns, hmiddle⟩ := serve_owns hserve
      obtain ⟨hlater, hnext⟩ := ih hmiddle hrest
      exact ⟨howns.trans hlater, hnext⟩

end Serving

end Actor

end Kurogane.Runtime
