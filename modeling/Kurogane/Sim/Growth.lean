import Kurogane.Consensus.Traces
import Kurogane.Runtime.Process
import Kurogane.Sim.Refinement

/-!
A cluster that grows. Besides the actions of its members, any process may be
started, over the storage it left behind or over an empty one, as a member or
as a node that joins. A node that joins stands for the empty history until a
leader reaches it, so the cluster still refines the protocol.
-/

namespace Kurogane.Sim

open Kurogane.Raft Kurogane.Runtime Kurogane.Consensus

inductive Move where
  | act (action : Action)
  | start (id : NodeId) (environment : Environment)
deriving DecidableEq

namespace Cluster

/-- What `id` has stored, if it has ever run. -/
def storageOf (cluster : Cluster) (id : NodeId) : Storage :=
  (cluster.servers[id]?.map Server.storage).getD .fresh

/-- Starts the process `id`. `none` if it runs already, or if the node rejects
its environment. -/
def launch (cluster : Cluster) (id : NodeId) (environment : Environment) :
    Option Cluster :=
  if (cluster.node id).isSome then none
  else
    match startUp id environment (cluster.storageOf id) with
    | .error _ => none
    | .ok node => some (cluster.update id ⟨some node, cluster.storageOf id⟩ [])

def move (cluster : Cluster) : Move → Option Cluster
  | .act action => cluster.step action
  | .start id environment => cluster.launch id environment

theorem storageOf_server {cluster : Cluster} {id : NodeId} {server : Server}
    (hserver : cluster.servers[id]? = some server) :
    cluster.storageOf id = server.storage := by
  rw [storageOf, hserver]
  rfl

theorem storageOf_update (cluster : Cluster) (id other : NodeId) (server : Server)
    (effects : List Effect) : (cluster.update id server effects).storageOf other =
      if other = id then server.storage else cluster.storageOf other := by
  unfold storageOf
  rw [servers_update, Std.ExtTreeMap.getElem?_insert]
  by_cases hsame : other = id
  · rw [if_pos hsame, hsame, if_pos Std.ReflCmp.compare_self]
    rfl
  · rw [if_neg hsame, if_neg (fun heq => hsame (Std.LawfulEqCmp.eq_of_compare heq).symm)]

theorem launch_ok {cluster cluster' : Cluster} {id : NodeId}
    {environment : Environment}
    (h : cluster.launch id environment = some cluster') :
    ∃ node, startUp id environment (cluster.storageOf id) = .ok node ∧
      cluster' = cluster.update id ⟨some node, cluster.storageOf id⟩ [] := by
  unfold launch at h
  split at h
  · cases h
  split at h
  case h_1 => cases h
  case h_2 node hstart =>
    cases h
    exact ⟨node, hstart, rfl⟩

theorem move_peers {cluster cluster' : Cluster} {move : Move}
    (h : cluster.move move = some cluster') : cluster'.peers = cluster.peers := by
  cases move with
  | start id environment =>
      obtain ⟨node, -, rfl⟩ := launch_ok h
      rfl
  | act action =>
      cases action with
      | perform id operation =>
          obtain ⟨_, _, _, _, _, -, -, -, -, -, rfl⟩ := step_perform h
          rfl
      | interrupt id operation written =>
          obtain ⟨_, _, _, _, _, -, -, -, -, -, rfl⟩ := step_interrupt h
          rfl
      | crash id =>
          obtain ⟨_, -, rfl⟩ := step_crash h
          rfl
      | restart id electionTimeout heartbeatInterval =>
          obtain ⟨_, _, -, -, rfl⟩ := step_restart h
          rfl

/-- When an action is guarded as far as the protocol's own conditions go. -/
def Attentive (cluster : Cluster) : Move → Prop
  | .act action => cluster.Guarded action
  | .start _ _ => True

/-- When a move is a sequence of protocol steps: the action is guarded, and
whoever relies on the membership is informed of it. -/
def Orderly (cluster : Cluster) : Move → Prop
  | .act action => cluster.Guarded action ∧
      cluster.Serving (Node.KnowsMembership ⟨cluster.peers, none⟩) action
  | .start _ _ => True

instance (cluster : Cluster) : DecidablePred cluster.Attentive := fun move =>
  match move with
  | .act action => inferInstanceAs (Decidable (cluster.Guarded action))
  | .start _ _ => inferInstanceAs (Decidable True)

instance (cluster : Cluster) : DecidablePred cluster.Orderly := fun move =>
  match move with
  | .act _ => inferInstanceAs (Decidable (_ ∧ _))
  | .start _ _ => inferInstanceAs (Decidable True)

end Cluster

/-- The states of a run of a growing cluster, newest first. -/
abbrev Growth (ok : Cluster → Move → Prop) : Cluster → List Cluster → Prop :=
  Trace Cluster.move ok

/-- What a schedule leads a cluster to that has just been started can be
computed. -/
theorem Growth.of_check (ok : Cluster → Move → Prop)
    [∀ cluster, DecidablePred (ok cluster)] (peers : List NodeId)
    (members : List (NodeId × Nat × Nat)) (moves : List Move)
    (Q : Cluster → Prop) [DecidablePred Q]
    (hcheck : ((Cluster.boot peers members).toOption.bind (fun start =>
      (play Cluster.move ok start [] moves).bind (fun states =>
        states.head?.map (fun now => decide (Q now))))) = some true) :
    ∃ start now past, Cluster.boot peers members = .ok start ∧
      Growth ok start (now :: past) ∧ Q now := by
  obtain ⟨start, hstart, hcheck⟩ := Option.bind_eq_some_iff.mp hcheck
  obtain ⟨states, hstates, hcheck⟩ := Option.bind_eq_some_iff.mp hcheck
  obtain ⟨now, hnow, hQ⟩ := Option.map_eq_some_iff.mp hcheck
  obtain ⟨past, rfl⟩ := List.head?_eq_some_iff.mp hnow
  exact ⟨start, now, past, ok_of_toOption hstart, .of_play .refl hstates,
    of_decide_eq_true hQ⟩

variable {initial : ClusterConfig} {h h' : Ghost} {node : Node}

/-! ### Starting a process -/

/-- A storage without hard state, log and snapshot stands for a node that has
never run. -/
theorem fresh_durable {id : NodeId} {storage : Storage} {durable : Durable}
    (hbacks : Backs storage durable) (hfresh : storage.isFresh = true)
    (hrel : DurableRel initial h id durable) :
    DurableRel initial h id ⟨.default, [], .default, ∅⟩ ∧
      Backs storage ⟨.default, [], .default, ∅⟩ ∧ durable.boundary = 0 := by
  obtain ⟨data, learners, hmirrors⟩ := hbacks
  simp only [Storage.isFresh, Bool.and_eq_true, decide_eq_true_eq,
    List.isEmpty_iff] at hfresh
  obtain ⟨⟨hhard, hlog⟩, hindex⟩ := hfresh
  have hdurableHard : durable.hardState = .default :=
    hmirrors.hardState.symm.trans hhard
  have hdurableLog : durable.log = [] := hmirrors.log.symm.trans hlog
  have hmetadata : storage.snapshot = durable.snapshot.metadata :=
    hmirrors.snapshot
  have hboundary : durable.boundary = 0 := by
    rw [Durable.boundary, ← hmetadata]
    exact hindex
  have hterm : storage.snapshot.lastIncludedTerm = 0 := by
    rw [hmetadata, hrel.snapshotTerm, hboundary]
    rfl
  refine ⟨⟨?_, ?_, Nat.zero_le _, ?_, rfl, fun hpos => absurd hpos (lt_irrefl 0)⟩,
    ⟨storage.snapshotData, .ofList storage.learners, hhard, hlog, ?_, rfl,
      fun hpos => absurd hpos (lt_irrefl 0), rfl⟩, hboundary⟩
  · rw [hrel.term, hdurableHard]
  · intro c
    have hvoted := hrel.voted c
    rw [hdurableHard] at hvoted
    exact hvoted
  · have hwhole := hrel.log
    rw [hdurableLog, hboundary] at hwhole
    exact hwhole
  · calc storage.snapshot =
        ⟨storage.snapshot.lastIncludedIndex, storage.snapshot.lastIncludedTerm⟩ := rfl
      _ = ⟨0, 0⟩ := by rw [hindex, hterm]

/-- A started process stands for what its storage does, once its commit index
counts as being back at the boundary. -/
theorem startUp_rel {id : NodeId} {environment : Environment} {storage : Storage}
    {durable : Durable} (hbacks : Backs storage durable)
    (hrel : DurableRel initial h id durable) (hback : h.commit id = durable.boundary)
    (hstart : startUp id environment storage = .ok node) :
    NodeRel initial h node ∧ node.id = id ∧ Backs storage node.durable := by
  unfold startUp at hstart
  split at hstart
  · rename_i hjoins
    rw [Bool.and_eq_true] at hjoins
    obtain ⟨hempty, hbacks', hboundary⟩ := fresh_durable hbacks hjoins.2 hrel
    obtain ⟨hnodeRel, hid⟩ :=
      newLearner_rel hempty (hback.trans hboundary) hstart
    rw [(Node.newLearner_ok hstart).2.2]
    exact ⟨hnodeRel, hid, hbacks'⟩
  · obtain ⟨data, learners, hmirrors⟩ := hbacks
    obtain ⟨hnodeRel, hid, hmirrors'⟩ := recovered_rel storage hmirrors
      (hrel.withExtras data learners) hback hstart
    exact ⟨hnodeRel, hid, .of_mirrors hmirrors'⟩

/-- The process a storage starts has the boundary of that storage. -/
theorem startUp_boundary {id : NodeId} {environment : Environment}
    {storage : Storage} (hstart : startUp id environment storage = .ok node) :
    node.snapshot.lastIncludedIndex = storage.snapshot.lastIncludedIndex := by
  unfold startUp at hstart
  split at hstart
  · rename_i hjoins
    simp only [Storage.isFresh, Bool.and_eq_true, decide_eq_true_eq] at hjoins
    have hdurable := (Node.newLearner_ok hstart).2.2
    rw [hjoins.2.2]
    exact congrArg Durable.boundary hdurable
  · obtain ⟨-, -, -, -, -, hdurable, -⟩ := Node.recover_ok hstart
    exact congrArg Durable.boundary hdurable

/-! ### The relation -/

/-- A cluster whose processes were all started over an empty storage. -/
structure Grown (cluster : Cluster) (h : Ghost) : Prop
    extends ClusterRel cluster h where
  absent : ∀ id : NodeId, cluster.servers[id]? = none →
    DurableRel ⟨cluster.peers, none⟩ h id ⟨.default, [], .default, ∅⟩

theorem boot_grown {peers : List NodeId} {members : List (NodeId × Nat × Nat)}
    {cluster : Cluster} (hboot : Cluster.boot peers members = .ok cluster) :
    Grown cluster (.empty NodeId LogEntry) :=
  ⟨(boot_rel hboot).toClusterRel, fun id _ => fresh_rel id⟩

namespace Grown

variable {cluster cluster' : Cluster}

theorem storage (hrel : Grown cluster h) (id : NodeId) :
    ∃ durable, Backs (cluster.storageOf id) durable ∧
      DurableRel ⟨cluster.peers, none⟩ h id durable := by
  unfold Cluster.storageOf
  cases hserver : cluster.servers[id]? with
  | none =>
      exact ⟨_, ⟨[], ∅, rfl, rfl, rfl, rfl, fun _ => rfl, rfl⟩,
        hrel.absent id hserver⟩
  | some server => exact (hrel.servers id server hserver).storage

/-- Who has never run is not affected by the steps of another. -/
theorem absent_update (hrel : Grown cluster h) {id : NodeId} {server : Server}
    {effects : List Effect}
    (hsteps : History.Steps (membership ⟨cluster.peers, none⟩) id h h')
    (other : NodeId)
    (hother : (cluster.update id server effects).servers[other]? = none) :
    DurableRel ⟨cluster.peers, none⟩ h' other ⟨.default, [], .default, ∅⟩ := by
  rw [Cluster.servers_update, Std.ExtTreeMap.getElem?_insert] at hother
  split at hother
  · cases hother
  · rename_i hne
    refine (hrel.absent other hother).unmoved hsteps.extends
      (unmoved_of_frame hsteps.frame ?_)
    rintro rfl
    exact hne Std.ReflCmp.compare_self

/-- An orderly move is a sequence of steps of one server. -/
theorem move_by (hrel : Grown cluster h) {move : Move} (hok : cluster.Orderly move)
    (hmove : cluster.move move = some cluster') :
    ∃ h' id, Grown cluster' h' ∧
      History.Steps (membership ⟨cluster.peers, none⟩) id h h' ∧
      cluster'.peers = cluster.peers := by
  cases move with
  | act action =>
      obtain ⟨h', id, server, server', effects, hrel', hsteps, -, rfl⟩ :=
        hrel.toClusterRel.step hok.1 hok.2 hmove
      exact ⟨h', id, ⟨hrel', hrel.absent_update hsteps⟩, hsteps, rfl⟩
  | start id environment =>
      obtain ⟨node, hstart, rfl⟩ := Cluster.launch_ok hmove
      obtain ⟨durable, hbacks, hdurable⟩ := hrel.storage id
      obtain ⟨h', hsettle, hdurable', hback⟩ := settle_boundary hrel.sound hdurable
      obtain ⟨hnodeRel, hid, hbacks'⟩ := startUp_rel hbacks hdurable' hback hstart
      have hsteps := Relation.ReflTransGen.single hsettle
      exact ⟨h', id, ⟨hrel.toClusterRel.update hsteps (.of_node hnodeRel hid hbacks')
        (by simp), hrel.absent_update hsteps⟩, hsteps, rfl⟩

theorem move (hrel : Grown cluster h) {move : Move} (hok : cluster.Orderly move)
    (hmove : cluster.move move = some cluster') :
    ∃ h', Grown cluster' h' ∧ h.Extends h' ∧ cluster'.peers = cluster.peers := by
  obtain ⟨h', id, hrel', hsteps, hpeers⟩ := hrel.move_by hok hmove
  exact ⟨h', hrel', hsteps.extends, hpeers⟩

theorem run {start now : Cluster} {past : List Cluster} (hstart : Grown start h)
    (hrun : Growth Cluster.Orderly start (now :: past)) :
    ∃ h', Grown now h' ∧ now.peers = start.peers := by
  have hall : ∀ current ∈ (now :: past).head?,
      ∃ h', Grown current h' ∧ current.peers = start.peers := by
    refine hrun.invariant (fun states => ∀ current ∈ states.head?,
      ∃ h', Grown current h' ∧ current.peers = start.peers) ?_ ?_
    · rintro current hcurrent
      cases hcurrent
      exact ⟨h, hstart, rfl⟩
    · intro current earlier move next hinvariant hok hmove last hlast
      cases hlast
      obtain ⟨h', hrel, hpeers⟩ := hinvariant current rfl
      obtain ⟨h'', hrel', -, hsame⟩ := hrel.move hok hmove
      exact ⟨h'', hrel', hsame.trans hpeers⟩
  exact hall now rfl

end Grown

end Kurogane.Sim
