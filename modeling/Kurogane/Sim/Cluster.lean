import Kurogane.Runtime.Storage
import Mathlib.Logic.Relation

/-!
A cluster of nodes, each with its storage, over a network that may lose,
duplicate, delay and reorder: a message once sent can be delivered at any
later time, any number of times, or never. A node may crash between two
requests or in the middle of the effects of one, and comes back by `recover`
from what its storage holds.
-/

namespace Kurogane.Sim

open Kurogane.Raft Kurogane.Runtime

structure Envelope where
  sender : NodeId
  receiver : NodeId
  message : Message
deriving DecidableEq

/-- A crashed server keeps its storage alone. -/
structure Server where
  node : Option Node
  storage : Storage
deriving DecidableEq

structure Cluster where
  peers : List NodeId
  servers : Std.ExtTreeMap NodeId Server
  network : List Envelope
deriving DecidableEq

inductive Action where
  | perform (id : NodeId) (operation : Operation)
  | interrupt (id : NodeId) (operation : Operation) (written : Nat)
  | crash (id : NodeId)
  | restart (id : NodeId) (electionTimeout heartbeatInterval : Nat)
deriving DecidableEq

/-- The messages among the effects `id` has executed. -/
def sent (id : NodeId) (effects : List Effect) : List Envelope :=
  effects.filterMap (fun effect =>
    match effect with
    | .send receiver message => some ⟨id, receiver, message⟩
    | _ => none)

/-- A fold that may fail keeps what each of its steps keeps. -/
theorem foldlM_invariant {α β ε : Type} {f : β → α → Except ε β}
    (Inv : β → Prop) (hstep : ∀ b a b', Inv b → f b a = .ok b' → Inv b')
    {xs : List α} {b b' : β} (h : Inv b) (hfold : xs.foldlM f b = .ok b') :
    Inv b' := by
  induction xs generalizing b with
  | nil =>
      cases hfold
      exact h
  | cons a rest ih =>
      rw [List.foldlM_cons] at hfold
      obtain ⟨middle, hmiddle, hrest⟩ := bind_eq_ok hfold
      exact ih (hstep b a middle h hmiddle) hrest

namespace Cluster

/-- Puts a new node with an empty storage among `servers`; the numbers of a
member are its election timeout and heartbeat interval. -/
def start (peers : List NodeId) (servers : Std.ExtTreeMap NodeId Server) :
    NodeId × Nat × Nat → Except ConfigError (Std.ExtTreeMap NodeId Server)
  | (id, electionTimeout, heartbeatInterval) => do
      let node ← Node.new id peers electionTimeout heartbeatInterval
      return servers.insert id ⟨some node, .fresh⟩

/-- Every listed member of `peers` starts with `Node::new`. -/
def boot (peers : List NodeId) (members : List (NodeId × Nat × Nat)) :
    Except ConfigError Cluster := do
  let servers ← members.foldlM (start peers) ∅
  return ⟨peers, servers, []⟩

/-- A server that runs a new node over an empty storage. -/
def IsNew (peers : List NodeId) (id : NodeId) (server : Server) : Prop :=
  ∃ node electionTimeout heartbeatInterval, server = ⟨some node, .fresh⟩ ∧
    Node.new id peers electionTimeout heartbeatInterval = .ok node

theorem start_isNew {peers : List NodeId} {member : NodeId × Nat × Nat}
    {servers servers' : Std.ExtTreeMap NodeId Server}
    (hservers : ∀ (id : NodeId) (server : Server),
      servers[id]? = some server → IsNew peers id server)
    (hstart : start peers servers member = .ok servers') (id : NodeId)
    (server : Server) (hserver : servers'[id]? = some server) :
    IsNew peers id server := by
  obtain ⟨newId, electionTimeout, heartbeatInterval⟩ := member
  obtain ⟨node, hnew, hstart⟩ := bind_eq_ok hstart
  cases hstart
  rw [Std.ExtTreeMap.getElem?_insert] at hserver
  split at hserver
  · rename_i heq
    obtain rfl := Std.LawfulEqCmp.eq_of_compare heq
    cases hserver
    exact ⟨node, _, _, rfl, hnew⟩
  · exact hservers id server hserver

theorem boot_ok {peers : List NodeId} {members : List (NodeId × Nat × Nat)}
    {cluster : Cluster} (hboot : boot peers members = .ok cluster) :
    cluster.peers = peers ∧ cluster.network = [] ∧
      ∀ (id : NodeId) (server : Server), cluster.servers[id]? = some server →
        IsNew peers id server := by
  obtain ⟨servers, hservers, hboot⟩ := bind_eq_ok hboot
  cases hboot
  refine ⟨rfl, rfl, foldlM_invariant (fun servers =>
    ∀ (id : NodeId) (server : Server), servers[id]? = some server →
      IsNew peers id server) (fun _ _ _ => start_isNew) (by simp) hservers⟩

def node (cluster : Cluster) (id : NodeId) : Option Node :=
  cluster.servers[id]?.bind Server.node

/-- Only a message that was sent can be received. -/
def delivers (cluster : Cluster) (id : NodeId) : Operation → Bool
  | .receive sender message => cluster.network.contains ⟨sender, id, message⟩
  | _ => true

/-- Puts `server` in place of the one of `id` and sends what it emitted. -/
def update (cluster : Cluster) (id : NodeId) (server : Server)
    (effects : List Effect) : Cluster :=
  { cluster with
    servers := cluster.servers.insert id server
    network := cluster.network ++ sent id effects }

theorem servers_update (cluster : Cluster) (id : NodeId) (server : Server)
    (effects : List Effect) : (cluster.update id server effects).servers =
      cluster.servers.insert id server := rfl

theorem node_update (cluster : Cluster) (id other : NodeId) (server : Server)
    (effects : List Effect) : (cluster.update id server effects).node other =
      if other = id then server.node else cluster.node other := by
  unfold Cluster.node
  rw [Cluster.servers_update, Std.ExtTreeMap.getElem?_insert]
  by_cases hsame : other = id
  · rw [if_pos hsame, hsame, if_pos Std.ReflCmp.compare_self]
    rfl
  · rw [if_neg hsame, if_neg (fun heq => hsame (Std.LawfulEqCmp.eq_of_compare heq).symm)]

/-- `none` where the action is not possible: no such server, a request to a
crashed one, a message never sent, or a panic. -/
def step (cluster : Cluster) : Action → Option Cluster
  | .perform id operation => do
      let server ← cluster.servers[id]?
      let node ← server.node
      if cluster.delivers id operation then
        let (node', effects) ← node.perform operation
        let storage ← server.storage.applyAll effects
        some (cluster.update id ⟨some node', storage⟩ effects)
      else none
  | .interrupt id operation written => do
      let server ← cluster.servers[id]?
      let node ← server.node
      if cluster.delivers id operation then
        let (_, effects) ← node.perform operation
        let storage ← server.storage.applyAll (effects.take written)
        some (cluster.update id ⟨none, storage⟩ (effects.take written))
      else none
  | .crash id => do
      let server ← cluster.servers[id]?
      some (cluster.update id ⟨none, server.storage⟩ [])
  | .restart id electionTimeout heartbeatInterval => do
      let server ← cluster.servers[id]?
      if server.node.isNone then
        let storage := server.storage
        match Node.recover id cluster.peers electionTimeout heartbeatInterval
            storage.hardState storage.log
            ⟨storage.snapshot, storage.snapshotData, storage.snapshotConfig⟩
            storage.learners with
        | .error _ => none
        | .ok node => some (cluster.update id ⟨some node, storage⟩ [])
      else none

/-- The request that `action` makes a node serve meets `P` there. -/
def Serving (P : Node → Operation → Prop) (cluster : Cluster) : Action → Prop
  | .perform id operation | .interrupt id operation _ =>
      cluster.delivers id operation = true →
        ∀ node ∈ cluster.node id, P node operation
  | .crash _ | .restart _ _ _ => True

instance (P : Node → Operation → Prop) [∀ node, DecidablePred (P node)]
    (cluster : Cluster) : DecidablePred (cluster.Serving P) := fun action =>
  match action with
  | .perform _ _ => inferInstanceAs (Decidable (_ → _))
  | .interrupt _ _ _ => inferInstanceAs (Decidable (_ → _))
  | .crash _ => inferInstanceAs (Decidable True)
  | .restart _ _ _ => inferInstanceAs (Decidable True)

theorem Serving.imp {P Q : Node → Operation → Prop} {cluster : Cluster}
    {action : Action} (h : cluster.Serving P action)
    (hPQ : ∀ node operation, P node operation → Q node operation) :
    cluster.Serving Q action := by
  cases action with
  | perform id operation =>
      exact fun hdelivers node hnode => hPQ _ _ (h hdelivers node hnode)
  | interrupt id operation written =>
      exact fun hdelivers node hnode => hPQ _ _ (h hdelivers node hnode)
  | crash id => trivial
  | restart id electionTimeout heartbeatInterval => trivial

section Inversion

variable {cluster cluster' : Cluster} {id : NodeId} {operation : Operation}

theorem step_perform
    (h : cluster.step (.perform id operation) = some cluster') :
    ∃ server node node' effects storage,
      cluster.servers[id]? = some server ∧ server.node = some node ∧
        cluster.delivers id operation = true ∧
        node.perform operation = some (node', effects) ∧
        server.storage.applyAll effects = some storage ∧
        cluster' = cluster.update id ⟨some node', storage⟩ effects := by
  obtain ⟨server, hserver, h⟩ := Option.bind_eq_some_iff.mp h
  obtain ⟨node, hnode, h⟩ := Option.bind_eq_some_iff.mp h
  split at h
  case isFalse => cases h
  case isTrue hdelivers =>
    obtain ⟨⟨node', effects⟩, hperform, h⟩ := Option.bind_eq_some_iff.mp h
    obtain ⟨storage, happly, h⟩ := Option.bind_eq_some_iff.mp h
    cases h
    exact ⟨server, node, node', effects, storage, hserver, hnode, hdelivers,
      hperform, happly, rfl⟩

theorem step_interrupt {written : Nat}
    (h : cluster.step (.interrupt id operation written) = some cluster') :
    ∃ server node node' effects storage,
      cluster.servers[id]? = some server ∧ server.node = some node ∧
        cluster.delivers id operation = true ∧
        node.perform operation = some (node', effects) ∧
        server.storage.applyAll (effects.take written) = some storage ∧
        cluster' = cluster.update id ⟨none, storage⟩ (effects.take written) := by
  obtain ⟨server, hserver, h⟩ := Option.bind_eq_some_iff.mp h
  obtain ⟨node, hnode, h⟩ := Option.bind_eq_some_iff.mp h
  split at h
  case isFalse => cases h
  case isTrue hdelivers =>
    obtain ⟨⟨node', effects⟩, hperform, h⟩ := Option.bind_eq_some_iff.mp h
    obtain ⟨storage, happly, h⟩ := Option.bind_eq_some_iff.mp h
    cases h
    exact ⟨server, node, node', effects, storage, hserver, hnode, hdelivers,
      hperform, happly, rfl⟩

theorem step_crash (h : cluster.step (.crash id) = some cluster') :
    ∃ server, cluster.servers[id]? = some server ∧
      cluster' = cluster.update id ⟨none, server.storage⟩ [] := by
  obtain ⟨server, hserver, h⟩ := Option.bind_eq_some_iff.mp h
  cases h
  exact ⟨server, hserver, rfl⟩

theorem step_restart {electionTimeout heartbeatInterval : Nat}
    (h : cluster.step (.restart id electionTimeout heartbeatInterval) =
      some cluster') :
    ∃ server node, cluster.servers[id]? = some server ∧
      Node.recover id cluster.peers electionTimeout heartbeatInterval
        server.storage.hardState server.storage.log
        ⟨server.storage.snapshot, server.storage.snapshotData,
          server.storage.snapshotConfig⟩ server.storage.learners = .ok node ∧
      cluster' = cluster.update id ⟨some node, server.storage⟩ [] := by
  obtain ⟨server, hserver, h⟩ := Option.bind_eq_some_iff.mp h
  split at h
  case isFalse => cases h
  case isTrue hstopped =>
    dsimp only at h
    split at h
    case h_1 => cases h
    case h_2 node hrecover =>
      cases h
      exact ⟨server, node, hserver, hrecover, rfl⟩

theorem node_of_server {server : Server} {node : Node}
    (hserver : cluster.servers[id]? = some server)
    (hnode : server.node = some node) : cluster.node id = some node := by
  rw [Cluster.node, hserver, Option.bind_some, hnode]

end Inversion

/-- Runs a whole schedule, as long as every action meets `ok`. -/
def run (ok : Cluster → Action → Prop) [∀ cluster, DecidablePred (ok cluster)]
    (cluster : Cluster) (schedule : List Action) : Option Cluster :=
  schedule.foldlM (fun cluster action =>
    if ok cluster action then cluster.step action else none) cluster

end Cluster

/-- Runs whose every action meets `ok` in the state it is taken in. -/
def Run (ok : Cluster → Action → Prop) : Cluster → Cluster → Prop :=
  Relation.ReflTransGen (fun cluster cluster' =>
    ∃ action, ok cluster action ∧ cluster.step action = some cluster')

theorem Run.of_schedule {ok : Cluster → Action → Prop}
    [∀ cluster, DecidablePred (ok cluster)] {schedule : List Action} :
    ∀ {cluster cluster' : Cluster},
      cluster.run ok schedule = some cluster' → Run ok cluster cluster' := by
  induction schedule with
  | nil =>
      intro cluster cluster' h
      cases h
      exact .refl
  | cons action rest ih =>
      intro cluster cluster' h
      obtain ⟨middle, hmiddle, h⟩ := Option.bind_eq_some_iff.mp h
      simp only [Option.ite_none_right_eq_some] at hmiddle
      exact .head ⟨action, hmiddle.1, hmiddle.2⟩ (ih h)

/-- Two schedules played one after the other on a cluster just started are two
runs, and what they lead to can be computed. -/
theorem Run.of_check (ok : Cluster → Action → Prop)
    [∀ cluster, DecidablePred (ok cluster)] (peers : List NodeId)
    (members : List (NodeId × Nat × Nat)) (first second : List Action)
    (P : Cluster → Cluster → Cluster → Prop)
    [∀ start now later, Decidable (P start now later)]
    (h : ((Cluster.boot peers members).toOption.bind (fun start =>
      (start.run ok first).bind (fun now =>
        (now.run ok second).map (fun later => decide (P start now later))))) =
        some true) :
    ∃ start now later, Cluster.boot peers members = .ok start ∧
      Run ok start now ∧ Run ok now later ∧ P start now later := by
  obtain ⟨start, hstart, h⟩ := Option.bind_eq_some_iff.mp h
  obtain ⟨now, hnow, h⟩ := Option.bind_eq_some_iff.mp h
  obtain ⟨later, hlater, h⟩ := Option.map_eq_some_iff.mp h
  refine ⟨start, now, later, ?_, .of_schedule hnow, .of_schedule hlater,
    of_decide_eq_true h⟩
  cases hboot : Cluster.boot peers members with
  | error e => simp [hboot, Except.toOption] at hstart
  | ok c => simpa [hboot, Except.toOption] using hstart

end Kurogane.Sim
