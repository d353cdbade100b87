import Kurogane.Runtime.Signatures
import Kurogane.Sim.Growth

/-!
What the servers of a cluster hold and send is fit for the wire, in all its runs: their
configurations are ones it can carry, and their snapshots are like those that were made.
-/

namespace Kurogane.Runtime

open Kurogane.Raft

variable {P : Cargo → Prop}

structure Storage.Fit (P : Cargo → Prop) (storage : Storage) : Prop where
  log : ∀ entry ∈ storage.log, entry.Fit P
  config : storage.snapshotConfig.OnWire
  snapshot : P (.snapshot storage.snapshot.lastIncludedIndex storage.snapshotData)

namespace Storage

theorem Fit.apply {storage storage' : Storage} {effect : Effect} (h : storage.Fit P)
    (heffect : effect.Fit P) (happly : storage.apply effect = some storage') :
    storage'.Fit P := by
  cases effect with
  | send receiver message | persistHardState term votedFor | persistLearners learners =>
      cases happly
      exact ⟨h.log, h.config, h.snapshot⟩
  | persistLog fromIndex entries =>
      simp only [Storage.apply, Option.ite_none_left_eq_some] at happly
      obtain ⟨-, happly⟩ := happly
      cases happly
      exact ⟨List.forall_mem_append.mpr
        ⟨fun entry hmem => h.log entry (List.mem_of_mem_take hmem), heffect⟩,
        h.config, h.snapshot⟩
  | persistSnapshot index term data config =>
      cases happly
      exact ⟨h.log, heffect.1, heffect.2⟩

theorem Fit.applyAll {effects : List Effect} :
    ∀ {storage storage' : Storage}, storage.Fit P → (∀ effect ∈ effects, effect.Fit P) →
      storage.applyAll effects = some storage' → storage'.Fit P := by
  induction effects with
  | nil =>
      intro storage storage' h _ happly
      cases happly
      exact h
  | cons effect rest ih =>
      intro storage storage' h heffects happly
      obtain ⟨hfirst, hrest⟩ := List.forall_mem_cons.mp heffects
      obtain ⟨middle, hmiddle, happly⟩ := Option.bind_eq_some_iff.mp happly
      exact ih (h.apply hfirst hmiddle) hrest happly

/-- A node comes back as fit as its storage was. -/
theorem Fit.recover {storage : Storage} {id : NodeId} {peers : List NodeId}
    {electionTimeout heartbeatInterval : Nat} {node : Node} (h : storage.Fit P)
    (hrecover : Node.recover id peers electionTimeout heartbeatInterval
      storage.hardState storage.log
      ⟨storage.snapshot, storage.snapshotData, storage.snapshotConfig⟩
      storage.learners = .ok node) : node.Fit P := by
  obtain ⟨-, -, -, -, -, hdurable, -⟩ := Node.recover_ok hrecover
  unfold Node.Fit
  rw [hdurable]
  refine ⟨h.log, ?_, h.snapshot⟩
  dsimp only
  split
  · exact h.config
  · nofun

/-- A process starts as fit as its storage is. -/
theorem Fit.startUp {storage : Storage} {id : NodeId} {environment : Environment} {node : Node}
    (h : storage.Fit P) (hnothing : P (.snapshot 0 []))
    (hstart : startUp id environment storage = .ok node) : node.Fit P := by
  unfold Runtime.startUp at hstart
  split at hstart
  · unfold Node.Fit
    rw [(Node.newLearner_ok hstart).2.2]
    exact ⟨List.forall_mem_nil _, fresh_onWire.snapshotConfig, hnothing⟩
  · exact h.recover hstart

theorem fresh_fit (hnothing : P (.snapshot 0 [])) : Storage.fresh.Fit P :=
  ⟨List.forall_mem_nil _, fresh_onWire.snapshotConfig, hnothing⟩

end Storage

end Kurogane.Runtime

namespace Kurogane.Sim

open Kurogane.Raft Kurogane.Runtime

variable {P Q : Cargo → Prop}

/-- A server under its own name, with what it holds. -/
structure Server.Fit (P : Cargo → Prop) (id : NodeId) (server : Server) : Prop where
  node : ∀ node, server.node = some node → node.id = id ∧ node.Fit P
  storage : server.storage.Fit P

structure Cluster.Fit (P : Cargo → Prop) (cluster : Cluster) : Prop where
  servers : ∀ (id : NodeId) (server : Server), cluster.servers[id]? = some server →
    server.Fit P id
  network : ∀ envelope ∈ cluster.network, envelope.message.Fit P

/-- What a node is handed by its owner meets `P`: proposals and snapshots. -/
def Cluster.Supplies (P : Cargo → Prop) (cluster : Cluster) : Move → Prop
  | .act action => cluster.Serving (fun _ operation =>
      (∀ sender message, operation ≠ .receive sender message) → operation.Fit P) action
  | .start _ _ => True

section Weaken

theorem LogEntry.fit_imp {entry : LogEntry} (himp : ∀ cargo, P cargo → Q cargo)
    (h : entry.Fit P) : entry.Fit Q :=
  ⟨h.1, fun bytes hbytes => himp _ (h.2 bytes hbytes)⟩

theorem Message.fit_imp {message : Message} (himp : ∀ cargo, P cargo → Q cargo)
    (h : message.Fit P) : message.Fit Q := by
  cases message with
  | installSnapshot request => exact ⟨h.1, himp _ h.2⟩
  | appendEntries request => exact fun entry hmem => LogEntry.fit_imp himp (h entry hmem)
  | _ => trivial

theorem Cluster.Fit.imp {cluster : Cluster} (h : cluster.Fit P)
    (himp : ∀ cargo, P cargo → Q cargo) : cluster.Fit Q where
  servers id server hserver := by
    obtain ⟨hnode, hstorage⟩ := h.servers id server hserver
    refine ⟨fun node hfound => ?_,
      fun entry hmem => LogEntry.fit_imp himp (hstorage.log entry hmem), hstorage.config,
      himp _ hstorage.snapshot⟩
    obtain ⟨hid, hfit⟩ := hnode node hfound
    exact ⟨hid, fun entry hmem => LogEntry.fit_imp himp (hfit.log entry hmem), hfit.config,
      himp _ hfit.snapshot⟩
  network envelope hmem := Message.fit_imp himp (h.network envelope hmem)

end Weaken

namespace Cluster.Fit

variable {cluster cluster' : Cluster} {action : Action}

theorem of_node {id : NodeId} {node : Node} (h : cluster.Fit P)
    (hnode : cluster.node id = some node) : node.id = id ∧ node.Fit P := by
  obtain ⟨server, hserver, hnode⟩ := Option.bind_eq_some_iff.mp hnode
  exact (h.servers id server hserver).node node hnode

theorem update (h : cluster.Fit P) {id : NodeId} {server : Server} {effects : List Effect}
    (hserver : server.Fit P id) (heffects : ∀ effect ∈ effects, effect.Fit P) :
    (cluster.update id server effects).Fit P where
  servers other found hfound := by
    rw [Cluster.servers_update, Std.ExtTreeMap.getElem?_insert] at hfound
    split at hfound
    · rename_i heq
      obtain rfl := Std.LawfulEqCmp.eq_of_compare heq
      cases hfound
      exact hserver
    · exact h.servers other found hfound
  network envelope hmem := by
    rcases List.mem_append.mp hmem with hmem | hmem
    · exact h.network envelope hmem
    · exact heffects _ (mem_sent hmem).2

/-- What a server is asked comes from the network or from its owner. -/
theorem operation (h : cluster.Fit P) {id : NodeId} {operation : Operation}
    (hdelivers : cluster.delivers id operation = true)
    (hsupplied : (∀ sender message, operation ≠ .receive sender message) →
      operation.Fit P) : operation.Fit P := by
  cases operation with
  | receive sender message =>
      have hmem : (⟨sender, id, message⟩ : Envelope) ∈ cluster.network := by
        simpa [Cluster.delivers] using hdelivers
      exact h.network _ hmem
  | _ => exact hsupplied (by rintro sender message ⟨⟩)

theorem step (h : cluster.Fit P) (hsupplies : cluster.Supplies P (.act action))
    (hstep : cluster.step action = some cluster') : cluster'.Fit P := by
  cases action with
  | perform id operation =>
      obtain ⟨server, node, node', effects, storage, hserver, hnode, hdelivers,
        hperform, happly, rfl⟩ := Cluster.step_perform hstep
      obtain ⟨hserved, hstorage⟩ := h.servers id server hserver
      obtain ⟨hid, hfit⟩ := hserved node hnode
      have hsupplied := hsupplies hdelivers node (Cluster.node_of_server hserver hnode)
      obtain ⟨hfit', heffects⟩ :=
        Node.perform_fit hfit (h.operation hdelivers hsupplied) hperform
      refine h.update ⟨fun last hlast => ?_, hstorage.applyAll heffects happly⟩ heffects
      cases hlast
      exact ⟨(Node.perform_writeAhead hperform).id.trans hid, hfit'⟩
  | interrupt id operation written =>
      obtain ⟨server, node, node', effects, storage, hserver, hnode, hdelivers,
        hperform, happly, rfl⟩ := Cluster.step_interrupt hstep
      obtain ⟨hserved, hstorage⟩ := h.servers id server hserver
      obtain ⟨hid, hfit⟩ := hserved node hnode
      have hsupplied := hsupplies hdelivers node (Cluster.node_of_server hserver hnode)
      obtain ⟨-, heffects⟩ :=
        Node.perform_fit hfit (h.operation hdelivers hsupplied) hperform
      have hwritten : ∀ effect ∈ effects.take written, effect.Fit P :=
        fun effect hmem => heffects effect (List.mem_of_mem_take hmem)
      exact h.update ⟨nofun, hstorage.applyAll hwritten happly⟩ hwritten
  | crash id =>
      obtain ⟨server, hserver, rfl⟩ := Cluster.step_crash hstep
      exact h.update ⟨nofun, (h.servers id server hserver).storage⟩ (List.forall_mem_nil _)
  | restart id electionTimeout heartbeatInterval =>
      obtain ⟨server, node, hserver, hrecover, rfl⟩ := Cluster.step_restart hstep
      have hstorage := (h.servers id server hserver).storage
      refine h.update ⟨fun last hlast => ?_, hstorage⟩ (List.forall_mem_nil _)
      cases hlast
      exact ⟨(Node.recover_ok hrecover).2.1, hstorage.recover hrecover⟩

theorem storageOf (h : cluster.Fit P) (hnothing : P (.snapshot 0 [])) (id : NodeId) :
    (cluster.storageOf id).Fit P := by
  unfold Cluster.storageOf
  cases hserver : cluster.servers[id]? with
  | none => exact Storage.fresh_fit hnothing
  | some server => exact (h.servers id server hserver).storage

theorem move {move : Move} (h : cluster.Fit P) (hnothing : P (.snapshot 0 []))
    (hsupplies : cluster.Supplies P move) (hmove : cluster.move move = some cluster') :
    cluster'.Fit P := by
  cases move with
  | act action => exact h.step hsupplies hmove
  | start id environment =>
      obtain ⟨node, hstart, rfl⟩ := Cluster.launch_ok hmove
      have hstorage := h.storageOf hnothing id
      refine h.update ⟨fun last hlast => ?_, hstorage⟩ (List.forall_mem_nil _)
      cases hlast
      exact ⟨(startUp_ok hstart).1, hstorage.startUp hnothing hstart⟩

end Cluster.Fit

/-- Nothing is held yet but the bootstrap voters and the snapshot of no entry. -/
theorem boot_fit {peers : List NodeId} {members : List (NodeId × Nat × Nat)}
    {cluster : Cluster} (hnothing : P (.snapshot 0 []))
    (hboot : Cluster.boot peers members = .ok cluster) :
    cluster.Fit P := by
  obtain ⟨-, hnetwork, hservers⟩ := Cluster.boot_ok hboot
  refine ⟨fun id server hserver => ?_, fun envelope hmem => ?_⟩
  · obtain ⟨node, electionTimeout, heartbeatInterval, rfl, hnew⟩ := hservers id server hserver
    have hstorage := Storage.fresh_fit hnothing
    refine ⟨fun found hfound => ?_, hstorage⟩
    cases hfound
    exact ⟨(Node.recover_ok hnew).2.1, hstorage.recover hnew⟩
  · rw [hnetwork] at hmem
    cases hmem

end Kurogane.Sim
