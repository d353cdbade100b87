import Kurogane.Runtime.Actor
import Kurogane.Runtime.Signatures

/-!
The effects that one request makes an actor carry out, in order: those of the request
itself, then those of the compaction that may follow. Each of the two is a batch of the
node, so the storage after a request is the one after these batches.
-/

namespace Kurogane.Kv.Replica

open Kurogane.Raft (Bytes Node NodeId Effect Event Operation bind_eq_ok)

/-- The replica makes its node perform `operation`, and applies what that commits. A
compaction is one of the map as it is. -/
structure Performs (replica : Replica) (operation : Operation) (next : Replica)
    (effects : List Effect) : Prop where
  node : replica.node.perform operation = some (next.node, effects)
  served : next = replica ∨ ∃ request deliveries, replica.perform request = .ok (next, deliveries)
  compacts : ∀ upToIndex data, operation = .compact upToIndex data →
    upToIndex ≤ replica.lastApplied ∧ data = replica.stateMachine.snapshot ∧
      next.lastApplied = replica.lastApplied

variable {replica next : Replica} {deliveries : List Delivery} {effects : List Effect}

theorem tick_performs {nextTimeout : Nat}
    (h : replica.step (.tick nextTimeout) = .ok (next, effects, deliveries)) :
    replica.Performs (.tick nextTimeout) next effects := by
  obtain ⟨hnode, hserved⟩ := step_served h
  exact ⟨hnode, Or.inr ⟨_, _, hserved⟩, nofun⟩

theorem receive_performs {sender : NodeId} {message : Kurogane.Raft.Message}
    (h : replica.step (.step sender message) = .ok (next, effects, deliveries)) :
    replica.Performs (.receive sender message) next effects := by
  obtain ⟨hnode, hserved⟩ := step_served h
  exact ⟨hnode, Or.inr ⟨_, _, hserved⟩, nofun⟩

/-- A proposal that is declined changes nothing and emits nothing. -/
theorem propose_performs {command : Command} {answer : Option (Nat × List Effect)}
    (h : replica.propose command = .ok (next, answer, deliveries)) :
    replica.Performs (.propose command.encode) next ((answer.map Prod.snd).getD []) := by
  have hserved : replica.perform (.propose command) = .ok (next, deliveries) := by
    rw [perform, h]
    rfl
  refine ⟨?_, Or.inr ⟨_, _, hserved⟩, by rintro upToIndex data ⟨⟩⟩
  unfold propose at h
  split at h
  · cases h
  · rename_i hnode
    cases h
    simp only [Node.perform, hnode, Option.bind_eq_bind, Option.bind_some]
    rfl
  · rename_i node index emitted hnode
    obtain ⟨⟨last, delivered⟩, hdrain, h⟩ := bind_eq_ok h
    cases h
    simp only [Node.perform, hnode, Option.bind_eq_bind, Option.bind_some]
    rw [(drainCommitted_spec hdrain).1]
    rfl

theorem proposeConfigChange_performs {newVoters : List NodeId}
    {answer : Option (Nat × List Effect)}
    (h : replica.proposeConfigChange newVoters = .ok (next, answer, deliveries)) :
    replica.Performs (.proposeConfigChange newVoters) next
      ((answer.map Prod.snd).getD []) := by
  have hserved : replica.perform (.proposeConfigChange newVoters) =
      .ok (next, deliveries) := by
    rw [perform, h]
    rfl
  refine ⟨?_, Or.inr ⟨_, _, hserved⟩, by rintro upToIndex data ⟨⟩⟩
  unfold proposeConfigChange at h
  split at h
  · cases h
  · rename_i hnode
    cases h
    simp only [Node.perform, hnode, Option.bind_eq_bind, Option.bind_some]
    rfl
  · rename_i node index emitted hnode
    obtain ⟨⟨last, delivered⟩, hdrain, h⟩ := bind_eq_ok h
    cases h
    simp only [Node.perform, hnode, Option.bind_eq_bind, Option.bind_some]
    rw [(drainCommitted_spec hdrain).1]
    rfl

theorem addLearner_performs {id : NodeId}
    (h : replica.addLearner id = .ok (next, effects, deliveries)) :
    replica.Performs (.addLearner id) next effects := by
  have hserved : replica.perform (.addLearner id) = .ok (next, deliveries) := by
    rw [perform, h]
    rfl
  refine ⟨?_, Or.inr ⟨_, _, hserved⟩, by rintro upToIndex data ⟨⟩⟩
  obtain ⟨⟨last, delivered⟩, hdrain, h⟩ := bind_eq_ok h
  cases h
  rw [(drainCommitted_spec hdrain).1]
  rfl

theorem removeLearner_performs {id : NodeId}
    (h : replica.removeLearner id = .ok (next, effects, deliveries)) :
    replica.Performs (.removeLearner id) next effects := by
  have hserved : replica.perform (.removeLearner id) = .ok (next, deliveries) := by
    rw [perform, h]
    rfl
  refine ⟨?_, Or.inr ⟨_, _, hserved⟩, by rintro upToIndex data ⟨⟩⟩
  obtain ⟨⟨last, delivered⟩, hdrain, h⟩ := bind_eq_ok h
  cases h
  rw [(drainCommitted_spec hdrain).1]
  rfl

/-- Where nothing is to be compacted, the node would do nothing either. -/
theorem compact_performs {retain : Nat} {answer : Option (List Effect)}
    (h : replica.compact retain = .ok (next, answer)) :
    replica.Performs (.compact (replica.lastApplied - retain) replica.stateMachine.snapshot)
      next (answer.getD []) := by
  have hserved : replica.perform (.compact retain) = .ok (next, []) := by
    rw [perform, h]
    rfl
  have happlied : next.lastApplied = replica.lastApplied := by
    rcases compact_compacts h with ⟨rfl, -⟩ | ⟨-, -, rfl⟩ <;> rfl
  refine ⟨?_, Or.inr ⟨_, _, hserved⟩, fun upToIndex data heq => ?_⟩
  · unfold compact at h
    dsimp only at h
    split at h
    · rename_i hnone
      cases h
      have hle : replica.lastApplied - retain ≤ replica.node.snapshot.lastIncludedIndex := by
        omega
      simp only [Node.perform, Node.compact, if_pos hle, Option.bind_eq_bind, Option.bind_some]
      rfl
    split at h
    · cases h
    · cases h
    · rename_i node emitted hnode
      cases h
      simp only [Node.perform, hnode, Option.bind_eq_bind, Option.bind_some]
      rfl
  · cases heq
    exact ⟨Nat.sub_le _ _, rfl, happlied⟩

end Kurogane.Kv.Replica

namespace Kurogane.Runtime

open Kurogane.Raft
open Kurogane.Kv (Replica)

/-- The operation of the node behind a request of the actor. -/
def ActorRequest.operation : ActorRequest → Option Operation
  | .tick nextTimeout => some (.tick nextTimeout)
  | .peerRequest sender message | .peerResponse sender message =>
      some (.receive sender message)
  | .propose command => some (.propose command.encode)
  | .proposeConfigChange newVoters => some (.proposeConfigChange newVoters)
  | .addLearner id _ => some (.addLearner id)
  | .removeLearner id => some (.removeLearner id)
  | .appliedResult _ | .entryTerm _ => none

/-- What is carried out of what the node emits: the answer to a peer goes back to the
caller, after the writes it waits for. -/
def ActorRequest.carried (emitted : List Effect) : ActorRequest → List Effect
  | .peerRequest _ _ => emitted.dropLast.filter Actor.persistsForReply
  | _ => emitted

namespace Actor

/-- The replica once it has served the request itself, and the effects that are carried
out then; `none` where that ends the request. -/
def attend (actor : Actor) : ActorRequest → Except ActorPanic (Replica × Option (List Effect))
  | .tick nextTimeout => do
      let (replica, effects, _) ← ofReplica (actor.replica.step (.tick nextTimeout))
      .ok (replica, some effects)
  | .peerRequest sender message => do
      let (replica, effects, _) ← ofReplica (actor.replica.step (.step sender message))
      match effects.getLast? with
      | none => .ok (replica, none)
      | some (.send _ _) => .ok (replica, some (effects.dropLast.filter persistsForReply))
      | some _ => .error .reply
  | .peerResponse sender message => do
      let (replica, effects, _) ← ofReplica (actor.replica.step (.step sender message))
      .ok (replica, some effects)
  | .propose command => do
      let (replica, answer, _) ← ofReplica (actor.replica.propose command)
      .ok (replica, answer.map Prod.snd)
  | .proposeConfigChange newVoters => do
      let (replica, answer, _) ← ofReplica (actor.replica.proposeConfigChange newVoters)
      .ok (replica, answer.map Prod.snd)
  | .addLearner id _ =>
      if actor.replica.node.role ≠ .leader then .ok (actor.replica, none)
      else do
        let (replica, effects, _) ← ofReplica (actor.replica.addLearner id)
        .ok (replica, some effects)
  | .removeLearner id => do
      let (replica, effects, _) ← ofReplica (actor.replica.removeLearner id)
      .ok (replica, some effects)
  | .appliedResult _ | .entryTerm _ => .ok (actor.replica, none)

/-- The compaction that follows a request which `attend` has served, if one is due. -/
def due (actor : Actor) : Replica × Option (List Effect) → Option Operation
  | (_, none) => none
  | (replica, some _) =>
      if replica.lastApplied <
          replica.node.snapshot.lastIncludedIndex + actor.compactThreshold then none
      else some (.compact (replica.lastApplied - actor.compactThreshold / 2)
        replica.stateMachine.snapshot)

/-- The effects of that compaction. -/
def compaction (actor : Actor) (replica : Replica) : List Effect :=
  let boundary := replica.node.snapshot.lastIncludedIndex
  if replica.lastApplied < boundary then []
  else if replica.lastApplied - boundary < actor.compactThreshold then []
  else
    match replica.compact (actor.compactThreshold / 2) with
    | .error _ => []
    | .ok (_, effects) => effects.getD []

/-- All effects that a request makes the actor carry out, up to a panic. -/
def carriesOut (actor : Actor) (request : ActorRequest) : List Effect :=
  match actor.attend request with
  | .error _ => []
  | .ok (_, none) => []
  | .ok (replica, some effects) => effects ++ actor.compaction replica

/-- The replica after a request becomes `last` by the compaction, if one is due. -/
def Compacted (actor : Actor) (replica last : Replica) : Prop :=
  (last = replica ∧ actor.compaction replica = []) ∨
    ∃ upToIndex data,
      (∀ effects, actor.due (replica, some effects) = some (.compact upToIndex data)) ∧
      replica.Performs (.compact upToIndex data) last (actor.compaction replica)

section

variable {actor next : Actor} {request : ActorRequest} {reply : ActorReply}
  {replica : Replica} {answer : Option (List Effect)}

/-- A node that does not lead takes in no learner. -/
theorem addLearner_declined {id : NodeId} (hrole : replica.node.role ≠ .leader) :
    replica.Performs (.addLearner id) replica [] := by
  refine ⟨?_, Or.inl rfl, nofun⟩
  show some (replica.node.addLearner id) = _
  unfold Node.addLearner
  rw [if_pos (Or.inl hrole)]

/-- A request is one operation of the node, or reads only. -/
theorem attend_performs (h : actor.attend request = .ok (replica, answer)) :
    (request.operation = none ∧ replica = actor.replica ∧ answer = none) ∨
    ∃ operation emitted, request.operation = some operation ∧
      actor.replica.Performs operation replica emitted ∧
      (answer = some (request.carried emitted) ∨ answer = none ∧ emitted = []) := by
  cases request with
  | tick nextTimeout =>
      obtain ⟨⟨last, effects, deliveries⟩, hstep, h⟩ := bind_eq_ok h
      cases h
      exact Or.inr ⟨_, _, rfl, Kv.Replica.tick_performs (ofReplica_ok hstep), Or.inl rfl⟩
  | peerRequest sender message =>
      obtain ⟨⟨last, effects, deliveries⟩, hstep, h⟩ := bind_eq_ok h
      have hperforms := Kv.Replica.receive_performs (ofReplica_ok hstep)
      dsimp only at h
      split at h
      · rename_i hnone
        cases h
        rw [List.getLast?_eq_none_iff.mp hnone] at hperforms
        exact Or.inr ⟨_, _, rfl, hperforms, Or.inr ⟨rfl, rfl⟩⟩
      · cases h
        exact Or.inr ⟨_, _, rfl, hperforms, Or.inl rfl⟩
      · cases h
  | peerResponse sender message =>
      obtain ⟨⟨last, effects, deliveries⟩, hstep, h⟩ := bind_eq_ok h
      cases h
      exact Or.inr ⟨_, _, rfl, Kv.Replica.receive_performs (ofReplica_ok hstep), Or.inl rfl⟩
  | propose command =>
      obtain ⟨⟨last, proposed, deliveries⟩, hstep, h⟩ := bind_eq_ok h
      have hperforms := Kv.Replica.propose_performs (ofReplica_ok hstep)
      cases h
      refine Or.inr ⟨_, _, rfl, hperforms, ?_⟩
      cases proposed with
      | none => exact Or.inr ⟨rfl, rfl⟩
      | some accepted => exact Or.inl rfl
  | proposeConfigChange newVoters =>
      obtain ⟨⟨last, proposed, deliveries⟩, hstep, h⟩ := bind_eq_ok h
      have hperforms := Kv.Replica.proposeConfigChange_performs (ofReplica_ok hstep)
      cases h
      refine Or.inr ⟨_, _, rfl, hperforms, ?_⟩
      cases proposed with
      | none => exact Or.inr ⟨rfl, rfl⟩
      | some accepted => exact Or.inl rfl
  | addLearner id reachable =>
      simp only [attend] at h
      split at h
      · rename_i hrole
        cases h
        exact Or.inr ⟨_, _, rfl, addLearner_declined hrole, Or.inr ⟨rfl, rfl⟩⟩
      · obtain ⟨⟨last, effects, deliveries⟩, hstep, h⟩ := bind_eq_ok h
        cases h
        exact Or.inr
          ⟨_, _, rfl, Kv.Replica.addLearner_performs (ofReplica_ok hstep), Or.inl rfl⟩
  | removeLearner id =>
      obtain ⟨⟨last, effects, deliveries⟩, hstep, h⟩ := bind_eq_ok h
      cases h
      exact Or.inr
        ⟨_, _, rfl, Kv.Replica.removeLearner_performs (ofReplica_ok hstep), Or.inl rfl⟩
  | appliedResult index =>
      cases h
      exact Or.inl ⟨rfl, rfl, rfl⟩
  | entryTerm index =>
      cases h
      exact Or.inl ⟨rfl, rfl, rfl⟩

theorem dispatch_storage {effects : List Effect} (h : actor.dispatch effects = .ok next) :
    actor.storage.applyAll effects = some next.storage ∧ next.replica = actor.replica ∧
      next.compactThreshold = actor.compactThreshold := by
  unfold dispatch at h
  split at h
  · cases h
  · rename_i storage hstorage
    cases h
    exact ⟨hstorage, rfl, rfl⟩

theorem due_some (effects : List Effect)
    (hahead : ¬ replica.lastApplied < replica.node.snapshot.lastIncludedIndex)
    (hdue : ¬ replica.lastApplied - replica.node.snapshot.lastIncludedIndex <
      actor.compactThreshold) :
    actor.due (replica, some effects) = some
      (.compact (replica.lastApplied - actor.compactThreshold / 2)
        replica.stateMachine.snapshot) :=
  if_neg (by omega)

theorem maybeCompact_compacted (h : actor.maybeCompact = .ok next) :
    actor.storage.applyAll (actor.compaction actor.replica) = some next.storage ∧
      actor.Compacted actor.replica next.replica ∧
      next.compactThreshold = actor.compactThreshold := by
  unfold Compacted compaction
  unfold maybeCompact at h
  dsimp only at h ⊢
  split at h
  · cases h
  rename_i happlied
  rw [if_neg happlied]
  split at h
  · rename_i hbelow
    cases h
    rw [if_pos hbelow]
    exact ⟨rfl, Or.inl ⟨rfl, rfl⟩, rfl⟩
  rename_i hdue
  rw [if_neg hdue]
  obtain ⟨⟨last, effects⟩, hcompact, h⟩ := bind_eq_ok h
  have hcompact := ofReplica_ok hcompact
  rw [hcompact]
  obtain ⟨hstorage, hreplica, hthreshold⟩ := dispatch_storage h
  rw [hreplica]
  exact ⟨hstorage, Or.inr ⟨_, _, fun effects => due_some effects happlied hdue,
    Kv.Replica.compact_performs hcompact⟩, hthreshold⟩

/-- The actor once a request and its compaction have been carried out. -/
structure Settles (actor : Actor) (replica : Replica) (effects : List Effect)
    (next : Actor) : Prop where
  storage : actor.storage.applyAll (effects ++ actor.compaction replica) = some next.storage
  compacted : actor.Compacted replica next.replica
  compactThreshold : next.compactThreshold = actor.compactThreshold

theorem settles {effects : List Effect} {begun middle : Actor}
    (hdispatch : begun.dispatch effects = .ok middle)
    (hcompact : middle.maybeCompact = .ok next) (hbegun : begun.replica = replica)
    (hstorage : begun.storage = actor.storage)
    (hthreshold : begun.compactThreshold = actor.compactThreshold) :
    actor.Settles replica effects next := by
  obtain ⟨hdispatched, hreplica, hsame⟩ := dispatch_storage hdispatch
  rw [hbegun] at hreplica
  obtain ⟨happlied, hcompacted, hlast⟩ := maybeCompact_compacted hcompact
  have hcompaction : middle.compaction = actor.compaction := by
    unfold compaction
    rw [hsame, hthreshold]
  have hdue : middle.due = actor.due := by
    unfold due
    rw [hsame, hthreshold]
  rw [hreplica, hcompaction] at happlied
  unfold Compacted at hcompacted
  rw [hreplica, hcompaction, hdue] at hcompacted
  rw [hstorage] at hdispatched
  refine ⟨?_, hcompacted, by rw [hlast, hsame, hthreshold]⟩
  unfold Storage.applyAll at hdispatched happlied ⊢
  rw [List.foldlM_append, hdispatched]
  exact happlied

theorem updateLeaderHint_cases (sender : NodeId) (message : Message) :
    ∃ leaderHint, actor.updateLeaderHint sender message = { actor with leaderHint } := by
  unfold updateLeaderHint
  dsimp only
  split
  · split <;> exact ⟨_, rfl⟩
  · split <;> exact ⟨_, rfl⟩
  · exact ⟨_, rfl⟩

theorem attend_peerRequest (actor : Actor) {sender : NodeId} {message : Message}
    {replica : Replica} {effects : List Effect} {deliveries : List Kv.Delivery}
    (hstep : ofReplica (actor.replica.step (.step sender message)) =
      .ok (replica, effects, deliveries)) :
    actor.attend (.peerRequest sender message) =
      match effects.getLast? with
      | none => .ok (replica, none)
      | some (.send _ _) => .ok (replica, some (effects.dropLast.filter persistsForReply))
      | some _ => .error .reply := by
  show (ofReplica (actor.replica.step _) >>= _) = _
  rw [hstep]
  rfl

/-- What serving a request comes to: the request itself ends it, or it is carried out. -/
theorem handle_attends (h : actor.handle request = .ok (next, reply)) :
    ∃ replica answer, actor.attend request = .ok (replica, answer) ∧
      ((answer = none ∧ next.replica = replica ∧ next.storage = actor.storage ∧
          next.compactThreshold = actor.compactThreshold) ∨
        ∃ effects, answer = some effects ∧ actor.Settles replica effects next) := by
  cases request with
  | tick nextTimeout =>
      obtain ⟨last, hevent, h⟩ := bind_eq_ok h
      cases h
      obtain ⟨⟨replica, effects, deliveries⟩, hgoes, hevent⟩ := bind_ok_cases hevent
      obtain ⟨middle, hdispatch, hcompact⟩ := bind_eq_ok hevent
      exact ⟨replica, some effects, hgoes _,
        Or.inr ⟨effects, rfl, settles hdispatch hcompact rfl rfl rfl⟩⟩
  | peerRequest sender message =>
      obtain ⟨⟨last, reply⟩, hrequest, h⟩ := bind_eq_ok h
      cases h
      obtain ⟨leaderHint, hhint⟩ := actor.updateLeaderHint_cases sender message
      unfold handlePeerRequest at hrequest
      rw [hhint] at hrequest
      obtain ⟨⟨replica, effects, deliveries⟩, hstep, hrequest⟩ := bind_eq_ok hrequest
      rw [actor.attend_peerRequest hstep]
      dsimp only at hrequest
      cases hlast : effects.getLast? with
      | none =>
          rw [hlast] at hrequest
          cases hrequest
          exact ⟨replica, none, rfl, Or.inl ⟨rfl, rfl, rfl, rfl⟩⟩
      | some effect =>
          rw [hlast] at hrequest
          cases effect with
          | send receiver answer =>
              obtain ⟨middle, hdispatch, hrequest⟩ := bind_eq_ok hrequest
              obtain ⟨last, hcompact, hrequest⟩ := bind_eq_ok hrequest
              cases hrequest
              exact ⟨replica, _, rfl,
                Or.inr ⟨_, rfl, settles hdispatch hcompact rfl rfl rfl⟩⟩
          | _ => cases hrequest
  | peerResponse sender message =>
      obtain ⟨last, hevent, h⟩ := bind_eq_ok h
      cases h
      obtain ⟨leaderHint, hhint⟩ := actor.updateLeaderHint_cases sender message
      unfold handleEvent at hevent
      dsimp only at hevent
      rw [hhint] at hevent
      obtain ⟨⟨replica, effects, deliveries⟩, hgoes, hevent⟩ := bind_ok_cases hevent
      obtain ⟨middle, hdispatch, hcompact⟩ := bind_eq_ok hevent
      exact ⟨replica, some effects, hgoes _,
        Or.inr ⟨effects, rfl, settles hdispatch hcompact rfl rfl rfl⟩⟩
  | propose command =>
      obtain ⟨⟨last, outcome⟩, hpropose, h⟩ := bind_eq_ok h
      cases h
      obtain ⟨⟨replica, answer, deliveries⟩, hgoes, hpropose⟩ := bind_ok_cases hpropose
      refine ⟨replica, answer.map Prod.snd, hgoes _, ?_⟩
      dsimp only at hpropose
      split at hpropose
      · cases hpropose
        exact Or.inl ⟨rfl, rfl, rfl, rfl⟩
      · obtain ⟨middle, hdispatch, hpropose⟩ := bind_eq_ok hpropose
        obtain ⟨last, hcompact, hpropose⟩ := bind_eq_ok hpropose
        cases hpropose
        exact Or.inr ⟨_, rfl, settles hdispatch hcompact rfl rfl rfl⟩
  | proposeConfigChange newVoters =>
      obtain ⟨⟨last, outcome⟩, hpropose, h⟩ := bind_eq_ok h
      cases h
      obtain ⟨⟨replica, answer, deliveries⟩, hgoes, hpropose⟩ := bind_ok_cases hpropose
      refine ⟨replica, answer.map Prod.snd, hgoes _, ?_⟩
      dsimp only at hpropose
      split at hpropose
      · cases hpropose
        exact Or.inl ⟨rfl, rfl, rfl, rfl⟩
      · obtain ⟨middle, hdispatch, hpropose⟩ := bind_eq_ok hpropose
        obtain ⟨last, hcompact, hpropose⟩ := bind_eq_ok hpropose
        cases hpropose
        exact Or.inr ⟨_, rfl, settles hdispatch hcompact rfl rfl rfl⟩
  | addLearner id reachable =>
      obtain ⟨⟨last, outcome⟩, hadd, h⟩ := bind_eq_ok h
      cases h
      unfold Actor.addLearner at hadd
      simp only [attend]
      split at hadd
      · rename_i hrole
        cases hadd
        exact ⟨actor.replica, none, if_pos hrole, Or.inl ⟨rfl, rfl, rfl, rfl⟩⟩
      · rename_i hrole
        rw [if_neg hrole]
        obtain ⟨⟨replica, effects, deliveries⟩, hgoes, hadd⟩ := bind_ok_cases hadd
        obtain ⟨middle, hdispatch, hadd⟩ := bind_eq_ok hadd
        obtain ⟨last, hcompact, hadd⟩ := bind_eq_ok hadd
        cases hadd
        exact ⟨replica, some effects, hgoes _,
          Or.inr ⟨effects, rfl, settles hdispatch hcompact rfl rfl rfl⟩⟩
  | removeLearner id =>
      obtain ⟨last, hremove, h⟩ := bind_eq_ok h
      cases h
      obtain ⟨⟨replica, effects, deliveries⟩, hgoes, hremove⟩ := bind_ok_cases hremove
      obtain ⟨middle, hdispatch, hcompact⟩ := bind_eq_ok hremove
      exact ⟨replica, some effects, hgoes _,
        Or.inr ⟨effects, rfl, settles hdispatch hcompact rfl rfl rfl⟩⟩
  | appliedResult index =>
      cases h
      exact ⟨actor.replica, none, rfl, Or.inl ⟨rfl, rfl, rfl, rfl⟩⟩
  | entryTerm index =>
      cases h
      exact ⟨actor.replica, none, rfl, Or.inl ⟨rfl, rfl, rfl, rfl⟩⟩

theorem carriesOut_of_attend (hattend : actor.attend request = .ok (replica, answer)) :
    actor.carriesOut request =
      (answer.map (fun effects => effects ++ actor.compaction replica)).getD [] := by
  unfold carriesOut
  rw [hattend]
  cases answer <;> rfl

/-- What is carried out for a request: the batch of its operation, and what follows is
nothing or the batch of a compaction. -/
theorem carriesOut_cases (actor : Actor) (request : ActorRequest) :
    actor.carriesOut request = [] ∨ ∃ operation replica emitted answer,
      request.operation = some operation ∧ actor.attend request = .ok (replica, answer) ∧
      actor.replica.Performs operation replica emitted ∧
      (actor.carriesOut request = request.carried emitted ∨
        ∃ upToIndex data last more, actor.due (replica, answer) = some (.compact upToIndex data) ∧
          replica.Performs (.compact upToIndex data) last more ∧
          actor.carriesOut request = request.carried emitted ++ more) := by
  cases hattend : actor.attend request with
  | error panic =>
      refine Or.inl ?_
      unfold carriesOut
      rw [hattend]
  | ok served =>
      obtain ⟨replica, answer⟩ := served
      have hcarries := carriesOut_of_attend hattend
      rcases attend_performs hattend with ⟨-, -, rfl⟩ |
        ⟨operation, emitted, hoperation, hperforms, rfl | ⟨rfl, -⟩⟩
      · exact Or.inl hcarries
      · refine Or.inr ⟨operation, replica, emitted, _, hoperation, rfl, hperforms, ?_⟩
        rw [hcarries, Option.map_some, Option.getD_some]
        unfold compaction
        dsimp only
        split
        · exact Or.inl (List.append_nil _)
        rename_i hahead
        split
        · exact Or.inl (List.append_nil _)
        rename_i hdue
        split
        · exact Or.inl (List.append_nil _)
        · rename_i last effects hcompact
          exact Or.inr ⟨_, _, last, _, due_some _ hahead hdue,
            Kv.Replica.compact_performs hcompact, rfl⟩
      · exact Or.inl hcarries

/-- A request that has been served has been carried out, as one batch or as two. -/
theorem serve_performs (h : actor.serve request = .ok (next, reply)) :
    actor.storage.applyAll (actor.carriesOut request) = some next.storage ∧
    ((request.operation = none ∧ next.replica = actor.replica ∧
        actor.carriesOut request = []) ∨
      ∃ operation replica emitted answer, request.operation = some operation ∧
        actor.attend request = .ok (replica, answer) ∧
        actor.replica.Performs operation replica emitted ∧
        ((next.replica = replica ∧ actor.carriesOut request = request.carried emitted) ∨
          ∃ upToIndex data more, actor.due (replica, answer) = some (.compact upToIndex data) ∧
            replica.Performs (.compact upToIndex data) next.replica more ∧
            actor.carriesOut request = request.carried emitted ++ more)) := by
  obtain ⟨⟨last, answered⟩, hhandle, h⟩ := bind_eq_ok h
  cases h
  show actor.storage.applyAll _ = some last.storage ∧ ((_ ∧ last.replica = _ ∧ _) ∨ _)
  obtain ⟨replica, answer, hattend, hended⟩ := handle_attends hhandle
  have hcarries := carriesOut_of_attend hattend
  rcases hended with ⟨rfl, hreplica, hstorage, -⟩ | ⟨effects, rfl, hsettles⟩
  · refine ⟨by rw [hcarries, hstorage]; rfl, ?_⟩
    rcases attend_performs hattend with ⟨hnone, hsame, -⟩ |
      ⟨operation, emitted, hoperation, hperforms, hsome | ⟨-, rfl⟩⟩
    · exact Or.inl ⟨hnone, hreplica.trans hsame, hcarries⟩
    · cases hsome
    · refine Or.inr ⟨operation, replica, [], none, hoperation, hattend, hperforms,
        Or.inl ⟨hreplica, ?_⟩⟩
      rw [hcarries]
      cases request <;> rfl
  · refine ⟨by rw [hcarries]; exact hsettles.storage, ?_⟩
    rcases attend_performs hattend with ⟨-, -, hnone⟩ |
      ⟨operation, emitted, hoperation, hperforms, hsome | ⟨hnone, -⟩⟩
    · cases hnone
    · cases hsome
      refine Or.inr ⟨operation, replica, emitted, _, hoperation, hattend, hperforms, ?_⟩
      rw [hcarries, Option.map_some, Option.getD_some]
      rcases hsettles.compacted with ⟨hsame, hempty⟩ | ⟨upToIndex, data, hdue, hcompacts⟩
      · refine Or.inl ⟨hsame, ?_⟩
        rw [hempty]
        exact List.append_nil _
      · exact Or.inr ⟨upToIndex, data, _, hdue _, hcompacts, rfl⟩
    · cases hnone

/-- What a peer gets as the answer is what its request made the node send last. -/
theorem serve_answers {sender : NodeId} {message : Message}
    (h : actor.serve (.peerRequest sender message) = .ok (next, reply)) :
    ∃ node emitted, actor.replica.node.step (.step sender message) = some (node, emitted) ∧
      ((reply = .message none ∧ emitted = [] ∧ next.replica.node = node ∧
          next.storage = actor.storage) ∨ ∃ receiver answer,
        reply = .message (some answer) ∧ emitted.getLast? = some (.send receiver answer)) := by
  obtain ⟨⟨last, answered⟩, hhandle, h⟩ := bind_eq_ok h
  cases h
  obtain ⟨⟨last, answer⟩, hrequest, h⟩ := bind_eq_ok hhandle
  cases h
  unfold handlePeerRequest at hrequest
  obtain ⟨⟨replica, effects, deliveries⟩, hstep, hrequest⟩ := bind_eq_ok hrequest
  rw [updateLeaderHint_replica] at hstep
  refine ⟨replica.node, effects, (Kv.Replica.step_served (ofReplica_ok hstep)).1, ?_⟩
  dsimp only at hrequest
  split at hrequest
  · rename_i hnone
    cases hrequest
    have hstorage : (actor.updateLeaderHint sender message).storage = actor.storage := by
      obtain ⟨leaderHint, hhint⟩ := actor.updateLeaderHint_cases sender message
      rw [hhint]
    exact Or.inl ⟨rfl, List.getLast?_eq_none_iff.mp hnone, rfl, hstorage⟩
  · rename_i receiver answer hlast
    obtain ⟨middle, -, hrequest⟩ := bind_eq_ok hrequest
    obtain ⟨last, -, hrequest⟩ := bind_eq_ok hrequest
    cases hrequest
    exact Or.inr ⟨receiver, answer, rfl, hlast⟩
  · cases hrequest

end

section Carried

variable {P : Cargo → Prop} {node node' : Node} {emitted : List Effect}

/-- For a request of a peer all that the node writes is carried out, and the answer is
all that it sends. -/
theorem carried_peerRequest {sender : NodeId} {message : Message} (hfit : node.Fit P)
    (hmessage : message.Fit P) (hrequest : message.isRequest = true)
    (h : node.step (.step sender message) = some (node', emitted)) :
    (∀ effect ∈ ActorRequest.carried emitted (.peerRequest sender message),
      effect.isSend = false) ∧
    (emitted = [] ∨ ∃ reply, reply.RepliesTo message ∧
      emitted = ActorRequest.carried emitted (.peerRequest sender message) ++
        [.send sender reply]) := by
  have hanswer := Node.request_answerTo hfit hmessage hrequest h
  rcases Node.request_answers hrequest h with rfl | ⟨persists, reply, rfl, hpersists⟩
  · exact ⟨List.forall_mem_nil _, Or.inl rfl⟩
  have hkept : ActorRequest.carried (persists ++ [.send sender reply])
      (.peerRequest sender message) = persists := by
    show (persists ++ [Effect.send sender reply]).dropLast.filter persistsForReply = persists
    rw [List.dropLast_concat, List.filter_eq_self]
    intro effect hmem
    have hwritten := hpersists effect hmem
    obtain ⟨-, -, hlearners⟩ := hanswer effect (List.mem_append_left _ hmem)
    cases effect with
    | send receiver sent => cases hwritten
    | persistLearners learners => exact absurd rfl (hlearners learners)
    | _ => rfl
  rw [hkept]
  refine ⟨hpersists, Or.inr ⟨reply, ?_, rfl⟩⟩
  exact ((hanswer _ List.mem_concat_self).2.1 sender reply rfl).2

end Carried

end Actor

end Kurogane.Runtime
