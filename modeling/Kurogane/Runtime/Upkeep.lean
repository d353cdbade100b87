import Kurogane.Sim.Fleet
import Kurogane.Sim.NoPanic

/-!
What keeps a replica running. All that it can be asked to read it can read, so only its
node can fail it; where the nodes keep to the protocol's own rules they do not, and what
has been applied stays committed.
-/

namespace Kurogane.Raft

open Kurogane.Kv (Command StateMachine)

/-- The state machine can read it. -/
def Cargo.Legible : Cargo → Prop
  | .command bytes => ∃ command, Command.decode bytes = .ok command
  | .snapshot _ data => ∃ machine : StateMachine, machine.Fits ∧ data = machine.snapshot

end Kurogane.Raft

namespace Kurogane.Kv.Replica

open Kurogane.Raft (Bytes Node NodeId Message Cargo LogEntry Operation Effect Event bind_eq_ok
  bind_eq_error)
open Kurogane.Raft.Node (Built)

variable {replica next : Replica} {deliveries : List Delivery} {delivery : Delivery}
  {request : Request} {panic : Panic} {node : Node} {operation : Operation}
  {effects : List Effect}

/-! ### Reading -/

theorem applyNext_fits (hfits : replica.stateMachine.Fits)
    (h : replica.applyNext = .ok (next, delivery)) : next.stateMachine.Fits := by
  obtain ⟨entry, -, ⟨bytes, command, -, hdecode, rfl, -⟩ | ⟨-, rfl, -⟩⟩ := applyNext_cases h
  · exact hfits.apply (Command.start_of_decode hdecode).1
  · exact hfits

theorem Applies.fits (h : Applies replica deliveries next)
    (hfits : replica.stateMachine.Fits) : next.stateMachine.Fits := by
  induction h with
  | done => exact hfits
  | next _ hnext _ ih => exact ih (applyNext_fits hfits hnext)

/-- What is restored is the map that was written down. -/
theorem mustRestore_legible (machine : StateMachine) {index : Nat} {data : Bytes}
    (hlegible : Cargo.Legible (.snapshot index data)) :
    ∃ restored, machine.mustRestore index data = .ok restored ∧ restored.Fits := by
  obtain ⟨written, hfits, rfl⟩ := hlegible
  refine ⟨⟨written.entries, index⟩, ?_, hfits⟩
  unfold StateMachine.mustRestore
  rw [StateMachine.restore_snapshot machine hfits]

theorem recover_legible (hlegible : Cargo.Legible
    (.snapshot node.snapshot.lastIncludedIndex node.snapshotData)) :
    ∃ replica, recover node = .ok replica := by
  obtain ⟨restored, hrestored, -⟩ := mustRestore_legible .new hlegible
  unfold recover
  split
  · rw [hrestored]
    exact ⟨_, rfl⟩
  · exact ⟨_, rfl⟩

theorem drainCommitted_fits (hfits : replica.stateMachine.Fits)
    (hfit : replica.node.Fit Cargo.Legible)
    (h : replica.drainCommitted = .ok (next, deliveries)) : next.stateMachine.Fits := by
  obtain ⟨⟨middle, jumped⟩, hjump, h⟩ := bind_eq_ok h
  obtain ⟨⟨last, applied⟩, hloop, h⟩ := bind_eq_ok h
  cases h
  refine (applyCommitted_applies hloop).1.fits ?_
  rcases jump_cases hjump with ⟨-, rfl, -⟩ | ⟨-, machine, hmachine, rfl, -⟩
  · exact hfits
  · have hlegible : Cargo.Legible (.snapshot replica.node.snapshot.lastIncludedIndex
        replica.node.snapshotData) := hfit.snapshot
    obtain ⟨restored, hrestored, hkept⟩ := mustRestore_legible _ hlegible
    rw [hrestored] at hmachine
    cases hmachine
    exact hkept

/-- A command that cannot be read stands in the log. -/
theorem applyNext_commandBytes (h : replica.applyNext = .error .commandBytes) :
    ∃ entry ∈ replica.node.log, ∃ bytes, entry.payload = .command bytes ∧
      ∀ command, Command.decode bytes ≠ .ok command := by
  unfold applyNext at h
  dsimp only at h
  split at h
  · cases h
  rename_i entry hentry
  split at h
  · rename_i bytes hpayload
    split at h
    · rename_i error hdecode
      refine ⟨entry, ?_, bytes, hpayload, fun command heq => ?_⟩
      · unfold Node.entryAt at hentry
        split at hentry
        · cases hentry
        · exact List.mem_of_getElem? hentry
      · rw [hdecode] at heq
        cases heq
    · cases h
  · cases h

theorem applyCommitted_commandBytes {rounds : Nat}
    (h : applyCommitted rounds replica = .error .commandBytes) :
    ∃ entry ∈ replica.node.log, ∃ bytes, entry.payload = .command bytes ∧
      ∀ command, Command.decode bytes ≠ .ok command := by
  induction rounds generalizing replica with
  | zero => cases h
  | succ rounds ih =>
      unfold applyCommitted at h
      split at h
      · rcases bind_eq_error h with hnext | ⟨⟨middle, delivery⟩, hnext, h⟩
        · exact applyNext_commandBytes hnext
        · rcases bind_eq_error h with hlater | ⟨⟨last, later⟩, -, h⟩
          · rw [← (applyNext_lastApplied hnext).1]
            exact ih hlater
          · cases h
      · cases h

theorem jump_error (h : replica.jump = .error panic) : panic = .snapshotBytes := by
  unfold jump at h
  dsimp only at h
  split at h
  · rcases bind_eq_error h with hrestore | ⟨_, -, h⟩
    · exact mustRestore_error hrestore
    · cases h
  · cases h

theorem drainCommitted_legible (hfit : replica.node.Fit Cargo.Legible)
    (h : replica.drainCommitted = .error panic) : panic ≠ .commandBytes := by
  rintro rfl
  have hunread : ∃ entry ∈ replica.node.log, ∃ bytes, entry.payload = .command bytes ∧
      ∀ command, Command.decode bytes ≠ .ok command := by
    rcases bind_eq_error h with hjump | ⟨⟨middle, jumped⟩, hjump, h⟩
    · cases jump_error hjump
    · rcases bind_eq_error h with hloop | ⟨⟨last, applied⟩, -, h⟩
      · rw [← (jump_spec hjump).1]
        exact applyCommitted_commandBytes hloop
      · cases h
  obtain ⟨entry, hmem, bytes, hpayload, hnone⟩ := hunread
  obtain ⟨command, hcommand⟩ := (hfit.log entry hmem).2 bytes hpayload
  exact hnone command hcommand

/-! ### Requests -/

/-- All that is committed has been applied, and the map can be written down. -/
structure Kept (replica : Replica) : Prop where
  drained : replica.Drained
  fits : replica.stateMachine.Fits

namespace Kept

theorem perform (h : replica.Kept) (hfit : next.node.Fit Cargo.Legible)
    (hperform : replica.perform request = .ok (next, deliveries)) : next.Kept := by
  refine ⟨(h.drained.perform hperform).1, ?_⟩
  rcases perform_cases hperform with ⟨node, -, hdrain⟩ | ⟨-, rfl | ⟨retain, -, -, -, rfl⟩⟩
  · have hfit' : Node.Fit Cargo.Legible { replica with node }.node := by
      rw [← (drainCommitted_spec hdrain).1]
      exact hfit
    have hkept : StateMachine.Fits { replica with node }.stateMachine := h.fits
    exact drainCommitted_fits hkept hfit' hdrain
  · exact h.fits
  · exact h.fits

theorem performs (h : replica.Kept) (hfit : next.node.Fit Cargo.Legible)
    (hperforms : replica.Performs operation next effects) : next.Kept := by
  rcases hperforms.served with rfl | ⟨request, deliveries, hperform⟩
  · exact h
  · exact h.perform hfit hperform

theorem recover (hrecover : Replica.recover node = .ok replica)
    (hbuilt : Built node) (hfit : node.Fit Cargo.Legible) : replica.Kept := by
  refine ⟨(recover_drained hbuilt hrecover).1, ?_⟩
  obtain ⟨rfl, -, hnew, hmachine⟩ := recover_spec hrecover
  rcases Nat.eq_zero_or_pos replica.node.snapshot.lastIncludedIndex with hnone | hpos
  · rw [hnew hnone]
    exact StateMachine.fits_new
  · have hlegible : Cargo.Legible (.snapshot replica.node.snapshot.lastIncludedIndex
        replica.node.snapshotData) := hfit.snapshot
    obtain ⟨restored, hrestored, hkept⟩ := mustRestore_legible _ hlegible
    rw [hmachine hpos] at hrestored
    cases hrestored
    exact hkept

end Kept

/-! ### Panics -/

theorem applyCommitted_panics {rounds : Nat} (h : applyCommitted rounds replica = .error panic) :
    panic = .entryMissing ∨ panic = .commandBytes := by
  induction rounds generalizing replica with
  | zero => cases h
  | succ rounds ih =>
      unfold applyCommitted at h
      split at h
      · rcases bind_eq_error h with hnext | ⟨⟨middle, delivery⟩, hnext, h⟩
        · unfold applyNext at hnext
          dsimp only at hnext
          split at hnext
          · cases hnext
            exact Or.inl rfl
          split at hnext
          · split at hnext
            · cases hnext
              exact Or.inr rfl
            · cases hnext
          · cases hnext
        · rcases bind_eq_error h with hlater | ⟨⟨last, later⟩, -, h⟩
          · exact ih hlater
          · cases h
      · cases h

/-- What `operation` ends in: the node does not perform it, or what it commits is not
there to be applied. -/
inductive Fails (replica : Replica) (operation : Operation) : Panic → Prop
  | node : replica.node.perform operation = none → Fails replica operation .node
  | drain {request : Request} {node : Node} {effects : List Effect} {panic : Panic} :
      replica.node.perform operation = some (node, effects) →
      { replica with node }.drainCommitted = .error panic →
      replica.perform request = .error panic →
      (operation.Fit Cargo.Legible → request.WellFormed) → Fails replica operation panic

theorem drainCommitted_panics (h : replica.drainCommitted = .error panic) :
    panic ≠ .node ∧ panic ≠ .indexNotCommitted := by
  rcases bind_eq_error h with hjump | ⟨⟨middle, jumped⟩, hjump, h⟩
  · cases jump_error hjump
    exact ⟨nofun, nofun⟩
  · rcases bind_eq_error h with hloop | ⟨⟨last, applied⟩, -, h⟩
    · rcases applyCommitted_panics hloop with rfl | rfl <;> exact ⟨nofun, nofun⟩
    · cases h

/-- Bytes that are a map can be restored. -/
theorem restorable_of_legible {index : Nat} {data : Bytes}
    (hlegible : Cargo.Legible (.snapshot index data)) : Restorable data := by
  obtain ⟨machine, hfits, rfl⟩ := hlegible
  have hrestore := StateMachine.restore_snapshot .new hfits 0
  unfold StateMachine.restore at hrestore
  unfold Restorable
  split at hrestore
  · cases hrestore
  · rename_i error hread
    have houtcome := (Prod.mk.inj (Option.some.inj hrestore)).2
    cases houtcome
  · rename_i entries hread
    rw [hread]
    rfl

theorem step_fails {event : Event}
    (hasked : replica.node.perform operation = replica.node.step event)
    (hformed : operation.Fit Cargo.Legible → Request.WellFormed (.step event))
    (h : replica.step event = .error panic) : replica.Fails operation panic := by
  have hperform : replica.perform (.step event) = .error panic := by
    rw [perform, h]
    rfl
  unfold step at h
  split at h
  · rename_i hnode
    cases h
    exact .node (hasked.trans hnode)
  · rename_i node effects hnode
    rcases bind_eq_error h with hdrain | ⟨_, -, h⟩
    · exact .drain (hasked.trans hnode) hdrain hperform hformed
    · cases h

theorem tick_fails {nextTimeout : Nat} (h : replica.step (.tick nextTimeout) = .error panic) :
    replica.Fails (.tick nextTimeout) panic := by
  have hformed : Request.WellFormed (.step (.tick nextTimeout)) := trivial
  exact step_fails rfl (fun _ => hformed) h

theorem receive_fails {sender : NodeId} {message : Message}
    (h : replica.step (.step sender message) = .error panic) :
    replica.Fails (.receive sender message) panic := by
  refine step_fails rfl (fun hfit => ?_) h
  cases message with
  | installSnapshot request =>
      have hlegible : Cargo.Legible (.snapshot request.lastIncludedIndex request.data) := hfit.2
      exact restorable_of_legible hlegible
  | _ => trivial

theorem propose_fails {command : Command} (h : replica.propose command = .error panic) :
    replica.Fails (.propose command.encode) panic := by
  have hperform : replica.perform (.propose command) = .error panic := by
    rw [perform, h]
    rfl
  unfold propose at h
  split at h
  · rename_i hnode
    cases h
    refine .node ?_
    simp only [Node.perform, hnode, Option.bind_eq_bind, Option.bind_none]
  · cases h
  · rename_i node index effects hnode
    rcases bind_eq_error h with hdrain | ⟨_, -, h⟩
    · have hasked : replica.node.perform (.propose command.encode) = some (node, effects) := by
        simp only [Node.perform, hnode, Option.bind_eq_bind, Option.bind_some]
      exact .drain hasked hdrain hperform (fun _ => trivial)
    · cases h

theorem proposeConfigChange_fails {newVoters : List NodeId}
    (h : replica.proposeConfigChange newVoters = .error panic) :
    replica.Fails (.proposeConfigChange newVoters) panic := by
  have hperform : replica.perform (.proposeConfigChange newVoters) = .error panic := by
    rw [perform, h]
    rfl
  unfold proposeConfigChange at h
  split at h
  · rename_i hnode
    cases h
    refine .node ?_
    simp only [Node.perform, hnode, Option.bind_eq_bind, Option.bind_none]
  · cases h
  · rename_i node index effects hnode
    rcases bind_eq_error h with hdrain | ⟨_, -, h⟩
    · have hasked : replica.node.perform (.proposeConfigChange newVoters) =
          some (node, effects) := by
        simp only [Node.perform, hnode, Option.bind_eq_bind, Option.bind_some]
      exact .drain hasked hdrain hperform (fun _ => trivial)
    · cases h

theorem addLearner_fails {id : NodeId} (h : replica.addLearner id = .error panic) :
    replica.Fails (.addLearner id) panic := by
  have hperform : replica.perform (.addLearner id) = .error panic := by
    rw [perform, h]
    rfl
  rcases bind_eq_error h with hdrain | ⟨_, -, h⟩
  · exact .drain rfl hdrain hperform (fun _ => trivial)
  · cases h

theorem removeLearner_fails {id : NodeId} (h : replica.removeLearner id = .error panic) :
    replica.Fails (.removeLearner id) panic := by
  have hperform : replica.perform (.removeLearner id) = .error panic := by
    rw [perform, h]
    rfl
  rcases bind_eq_error h with hdrain | ⟨_, -, h⟩
  · exact .drain rfl hdrain hperform (fun _ => trivial)
  · cases h

theorem compact_fails {retain : Nat} (h : replica.compact retain = .error panic) :
    (panic = .node ∧ ∃ upToIndex data, replica.node.perform (.compact upToIndex data) = none) ∨
      (panic = .indexNotCommitted ∧ replica.node.commitIndex < replica.lastApplied) := by
  unfold compact at h
  dsimp only at h
  split at h
  · cases h
  split at h
  · rename_i hnode
    cases h
    refine Or.inl ⟨rfl, replica.lastApplied - retain, replica.stateMachine.snapshot, ?_⟩
    simp only [Node.perform, hnode, Option.bind_eq_bind, Option.bind_none]
  · rename_i hnode
    cases h
    refine Or.inr ⟨rfl, ?_⟩
    unfold Kurogane.Raft.Node.compact at hnode
    split at hnode
    · cases hnode
    split at hnode
    · rename_i hbeyond
      omega
    · obtain ⟨term, -, hnode⟩ := Option.bind_eq_some_iff.mp hnode
      obtain ⟨rest, -, hnode⟩ := Option.bind_eq_some_iff.mp hnode
      cases hnode
  · cases h

/-- Where the replica is kept, only the node can fail. -/
theorem Kept.fails (h : replica.Kept) (hfit : replica.node.Fit Cargo.Legible)
    (hasked : operation.Fit Cargo.Legible) (hfails : replica.Fails operation panic) :
    panic = .node ∧ replica.node.perform operation = none := by
  cases hfails with
  | node hnode => exact ⟨rfl, hnode⟩
  | @drain request node effects panic hnode hdrain hperform hformed =>
      obtain ⟨hnot, hnot'⟩ := drainCommitted_panics hdrain
      have hfit' : Node.Fit Cargo.Legible { replica with node }.node :=
        (Node.perform_fit hfit hasked hnode).1
      rcases h.drained.perform_error (hformed hasked) hperform with hpanic | hpanic | hpanic
      · exact absurd hpanic hnot
      · exact absurd hpanic hnot'
      · exact absurd hpanic (drainCommitted_legible hfit' hdrain)

end Kurogane.Kv.Replica

namespace Kurogane.Raft

/-- What is proposed can be read. -/
def Operation.Legible : Operation → Prop
  | .propose command => Cargo.Legible (.command command)
  | _ => True

end Kurogane.Raft

namespace Kurogane.Runtime

open Kurogane.Raft

/-- A storage has the hard state, the log and the boundary of its node. The rest of it may
be older than a node that joins. -/
structure Storage.Retains (storage : Storage) (durable : Durable) : Prop where
  hardState : storage.hardState = durable.hardState
  log : storage.log = durable.log
  boundary : storage.snapshot.lastIncludedIndex = durable.boundary

namespace Storage

variable {storage : Storage} {durable durable' : Durable}

theorem Mirrors.retains (h : storage.Mirrors durable) : storage.Retains durable :=
  ⟨h.hardState, h.log, congrArg SnapshotMetadata.lastIncludedIndex h.snapshot⟩

theorem Retains.apply (h : storage.Retains durable) {effect : Effect}
    (hrecord : durable.record effect = some durable') :
    ∃ storage', storage.apply effect = some storage' ∧ storage'.Retains durable' := by
  cases effect with
  | send receiver message =>
      cases hrecord
      exact ⟨storage, rfl, h⟩
  | persistHardState term votedFor =>
      cases hrecord
      exact ⟨_, rfl, rfl, h.log, h.boundary⟩
  | persistLog fromIndex entries =>
      simp only [Durable.record, Option.ite_none_left_eq_some] at hrecord
      obtain ⟨hfrom, hrecord⟩ := hrecord
      cases hrecord
      have hboundary := h.boundary
      refine ⟨_, if_neg (by omega), h.hardState, ?_, h.boundary⟩
      simp only [hboundary, h.log]
  | persistSnapshot lastIncludedIndex lastIncludedTerm data config =>
      cases hrecord
      exact ⟨_, rfl, h.hardState, h.log, rfl⟩
  | persistLearners learners =>
      cases hrecord
      exact ⟨_, rfl, h.hardState, h.log, h.boundary⟩

theorem Retains.applyAll {effects : List Effect} (h : storage.Retains durable)
    (hrecord : durable.recordAll effects = some durable') :
    ∃ storage', storage.applyAll effects = some storage' ∧ storage'.Retains durable' := by
  induction effects generalizing storage durable with
  | nil =>
      cases hrecord
      exact ⟨storage, rfl, h⟩
  | cons effect rest ih =>
      rw [Durable.recordAll_cons] at hrecord
      obtain ⟨middle, hmiddle, hrest⟩ := Option.bind_eq_some_iff.mp hrecord
      obtain ⟨first, hfirst, hretains⟩ := h.apply hmiddle
      obtain ⟨last, hlast, hretains'⟩ := ih hretains hrest
      refine ⟨last, ?_, hretains'⟩
      simp only [Storage.applyAll, List.foldlM_cons, hfirst]
      exact hlast

end Storage

/-- A process that does not join over a fresh storage holds all that is stored. -/
theorem startUp_mirrors {id : NodeId} {environment : Environment} {storage : Storage}
    {node : Node} (hmember : (environment.joinAsLearner && storage.isFresh) = false)
    (hstart : startUp id environment storage = .ok node) : storage.Mirrors node.durable := by
  unfold startUp at hstart
  rw [hmember] at hstart
  exact Storage.mirrors_of_recover hstart

/-- A process starts as what it has stored. -/
theorem startUp_retains {id : NodeId} {environment : Environment} {storage : Storage}
    {node : Node} (hstart : startUp id environment storage = .ok node) :
    storage.Retains node.durable := by
  cases hjoins : environment.joinAsLearner && storage.isFresh with
  | false => exact (startUp_mirrors hjoins hstart).retains
  | true =>
      unfold startUp at hstart
      rw [if_pos hjoins] at hstart
      simp only [Storage.isFresh, Bool.and_eq_true, decide_eq_true_eq,
        List.isEmpty_iff] at hjoins
      obtain ⟨-, ⟨hhard, hlog⟩, hindex⟩ := hjoins
      rw [(Node.newLearner_ok hstart).2.2]
      exact ⟨hhard, hlog, hindex⟩

theorem startUp_built {id : NodeId} {environment : Environment} {storage : Storage}
    {node : Node} (hstart : startUp id environment storage = .ok node) : node.Built := by
  unfold startUp at hstart
  split at hstart
  · exact .newLearner hstart
  · exact .recover hstart

end Kurogane.Runtime

namespace Kurogane.Sim

open Kurogane.Raft Kurogane.Runtime Kurogane.Consensus
open Kurogane.Kv (Replica StateMachine)

/-- All that a move proposes can be read. -/
def Cluster.Proposes (cluster : Cluster) : Move → Prop
  | .act action => cluster.Serving (fun _ operation => operation.Legible) action
  | .start _ _ => True

/-- A snapshot of no entry is the empty map. -/
theorem legible_nothing : Cargo.Legible (.snapshot 0 []) :=
  ⟨.new, StateMachine.fits_new, rfl⟩

namespace Fleet

variable {fleet fleet' : Fleet} {move : Move} {reached : Nat}

/-- Storages have what their nodes do. -/
def Mirrored (fleet : Fleet) : Prop :=
  ∀ (id : NodeId) (server : Server) (node : Node),
    fleet.cluster.servers[id]? = some server → server.node = some node →
      server.storage.Retains node.durable

namespace Mirrored

theorem update {id : NodeId} {server : Server} {effects : List Effect} (h : fleet.Mirrored)
    (hserver : ∀ node, server.node = some node → server.storage.Retains node.durable)
    (other : NodeId) (found : Server) (node : Node)
    (hfound : (fleet.cluster.update id server effects).servers[other]? = some found)
    (hnode : found.node = some node) : found.storage.Retains node.durable := by
  rw [Cluster.servers_update, Std.ExtTreeMap.getElem?_insert] at hfound
  split at hfound
  · cases hfound
    exact hserver node hnode
  · exact h other found node hfound hnode

theorem step (h : fleet.Mirrored) (hstep : fleet.Step move reached fleet') :
    fleet'.Mirrored := by
  cases hstep with
  | perform _ _ hcluster =>
      obtain ⟨server, node, node', emitted, storage, hserver, hrunning, -, hperform, happly,
        rfl⟩ := Cluster.step_perform hcluster
      refine h.update fun last hlast => ?_
      cases hlast
      obtain ⟨storage', happly', hretains⟩ :=
        (h _ server node hserver hrunning).applyAll (Node.perform_writeAhead hperform).recorded
      rw [happly] at happly'
      cases happly'
      exact hretains
  | interrupt _ _ hcluster =>
      obtain ⟨_, _, _, _, _, -, -, -, -, -, rfl⟩ := Cluster.step_interrupt hcluster
      exact h.update nofun
  | crash hcluster =>
      obtain ⟨_, -, rfl⟩ := Cluster.step_crash hcluster
      exact h.update nofun
  | start hcluster =>
      obtain ⟨found, hfound, rfl⟩ := Cluster.launch_ok hcluster
      refine h.update fun last hlast => ?_
      cases hlast
      exact startUp_retains hfound

end Mirrored

/-- Moreover replicas are kept, and nothing is on its way that cannot be read. -/
structure Upkept (fleet : Fleet) : Prop where
  coherent : fleet.Coherent
  fit : fleet.cluster.Fit Cargo.Legible
  kept : ∀ id replica, fleet.replicas id = some replica → replica.Kept
  mirrors : fleet.Mirrored

namespace Upkept

theorem supplies (h : fleet.Upkept) (hlegible : fleet.cluster.Proposes move)
    (hstep : fleet.Step move reached fleet') :
    fleet.cluster.Supplies Cargo.Legible move := by
  have hsupplied : ∀ (id : NodeId) (operation : Operation) (replica next : Replica)
      (effects : List Effect), fleet.replicas id = some replica →
      replica.Performs operation next effects → operation.Legible →
      (∀ sender message, operation ≠ .receive sender message) →
        operation.Fit Cargo.Legible := by
    intro id operation replica next effects hreplica hperforms hread hown
    cases operation with
    | receive sender message => exact absurd rfl (hown sender message)
    | propose command => exact hread
    | compact upToIndex data =>
        obtain ⟨-, rfl, -⟩ := hperforms.compacts upToIndex data rfl
        exact ⟨replica.stateMachine, (h.kept id replica hreplica).fits, rfl⟩
    | _ => trivial
  cases hstep with
  | perform hreplica hperforms =>
      exact fun hdelivers node hnode =>
        hsupplied _ _ _ _ _ hreplica hperforms (hlegible hdelivers node hnode)
  | interrupt hreplica hperforms =>
      exact fun hdelivers node hnode =>
        hsupplied _ _ _ _ _ hreplica hperforms (hlegible hdelivers node hnode)
  | crash => trivial
  | start => trivial

theorem kept_update {id : NodeId} {last : Option Replica}
    (h : fleet.Upkept) (hlast : ∀ replica, last = some replica → replica.Kept)
    (other : NodeId) (replica : Replica)
    (hreplica : Function.update fleet.replicas id last other = some replica) : replica.Kept := by
  by_cases hsame : other = id
  · rw [hsame, Function.update_self] at hreplica
    exact hlast replica hreplica
  · rw [Function.update_of_ne hsame] at hreplica
    exact h.kept other replica hreplica

theorem step (h : fleet.Upkept) (hlegible : fleet.cluster.Proposes move)
    (hstep : fleet.Step move reached fleet') : fleet'.Upkept := by
  have hcoherent := h.coherent.step hstep
  have hfit := h.fit.move legible_nothing (h.supplies hlegible hstep) hstep.cluster
  refine ⟨hcoherent, hfit, ?_, h.mirrors.step hstep⟩
  cases hstep with
  | @perform id operation replica next effects cluster' hreplica hperforms hcluster =>
      have hnode : cluster'.node id = some next.node := by
        have hfound : cluster'.node id =
            (Function.update fleet.replicas id (some next) id).map Replica.node := hcoherent id
        rw [Function.update_self] at hfound
        exact hfound
      refine h.kept_update fun last hlast => ?_
      cases hlast
      exact (h.kept id replica hreplica).performs (hfit.of_node hnode).2 hperforms
  | interrupt | crash => exact h.kept_update nofun
  | @start id environment node replica cluster' hcluster hnode hrecover =>
      have hnodeFit := (hfit.of_node hnode).2
      obtain ⟨found, hfound, rfl⟩ := Cluster.launch_ok hcluster
      rw [Cluster.node_update, if_pos rfl] at hnode
      cases hnode
      refine h.kept_update fun last hlast => ?_
      cases hlast
      exact .recover hrecover (startUp_built hfound) hnodeFit

end Upkept

end Fleet

/-! ### Committed entries -/

/-- What a node has committed stays in its log. -/
theorem Grown.commit_stays {cluster cluster' : Cluster} {h : Ghost} (hrel : Grown cluster h)
    {id : NodeId} {operation : Operation} {node node' : Node}
    (hok : cluster.Orderly (.act (.perform id operation)))
    (hstep : cluster.step (.perform id operation) = some cluster')
    (hnode : cluster.node id = some node) (hnode' : cluster'.node id = some node') :
    node.commitIndex ≤ node'.lastLogIndex := by
  obtain ⟨h', actor, hrel', hsteps, -⟩ := hrel.move_by hok hstep
  obtain ⟨rfl, hnodeRel⟩ := hrel.of_node hnode
  obtain ⟨hid, hnodeRel'⟩ := hrel'.of_node hnode'
  have hcovered := hnodeRel.committed_covered hrel.sound
  rw [hnodeRel.term.symm] at hcovered
  have hkept := hsteps.keeps hrel.sound node.id _ hcovered (List.take_prefix _ _)
  have hlength := hkept.length_le
  have hheld := hnodeRel.commit_le_length hrel.sound
  rw [List.length_take, Nat.min_eq_left hheld] at hlength
  rw [hnodeRel'.lastLogIndex hrel'.sound, hid]
  exact hlength

/-- What a node applies it has committed, as long as that stays in its log. -/
theorem performs_committed {replica next : Replica} {operation : Operation}
    {effects : List Effect} (hperforms : replica.Performs operation next effects)
    (hcommitted : replica.lastApplied ≤ replica.node.commitIndex)
    (hboundary : next.node.snapshot.lastIncludedIndex ≤ next.node.commitIndex)
    (hstays : replica.node.commitIndex ≤ next.node.lastLogIndex) :
    next.lastApplied ≤ next.node.commitIndex := by
  have hcommits : min replica.node.commitIndex next.node.lastLogIndex ≤
      next.node.commitIndex := Node.perform_commitsOn hperforms.node
  rw [Nat.min_eq_left hstays] at hcommits
  rcases hperforms.served with rfl | ⟨request, deliveries, hperform⟩
  · exact hcommitted
  obtain ⟨middle, applied, happlies, hfrom⟩ := Kv.Replica.perform_applies hperform
  rcases happlies.reached with hsame | hreached
  · rw [hsame]
    rcases hfrom with ⟨hmachine, -, -⟩ | ⟨-, hmachine, -⟩
    · have hfirst : middle.lastApplied = replica.lastApplied :=
        congrArg StateMachine.lastApplied hmachine
      exact hfirst.trans_le (hcommitted.trans hcommits)
    · have hfirst : middle.lastApplied = next.node.snapshot.lastIncludedIndex :=
        Kv.mustRestore_lastApplied hmachine
      exact hfirst.trans_le hboundary
  · exact hreached

/-- A replica that comes back has applied what its snapshot covers. -/
theorem recovered_lastApplied {node : Node} {replica : Replica}
    (hrecover : Replica.recover node = .ok replica) :
    replica.lastApplied = node.snapshot.lastIncludedIndex := by
  obtain ⟨rfl, -, hnew, hmachine⟩ := Kv.Replica.recover_spec hrecover
  rcases Nat.eq_zero_or_pos replica.node.snapshot.lastIncludedIndex with hnone | hpos
  · exact (congrArg StateMachine.lastApplied (hnew hnone)).trans hnone.symm
  · exact Kv.mustRestore_lastApplied (hmachine hpos)

theorem recovered_committed {node : Node} {replica : Replica}
    (hrecover : Replica.recover node = .ok replica)
    (hboundary : node.snapshot.lastIncludedIndex ≤ node.commitIndex) :
    replica.lastApplied ≤ replica.node.commitIndex := by
  have happlied := recovered_lastApplied hrecover
  obtain rfl := (Kv.Replica.recover_spec hrecover).1
  exact happlied.trans_le hboundary

end Kurogane.Sim

namespace Kurogane.Raft

/-- What the protocol asks of an operation, and its state machine. -/
structure Node.Upholds (node : Node) (operation : Operation) : Prop where
  guarded : node.Guarded operation
  named : node.NamesTracked operation
  legible : operation.Legible

end Kurogane.Raft

namespace Kurogane.Sim

open Kurogane.Raft Kurogane.Runtime Kurogane.Consensus
open Kurogane.Kv (Replica StateMachine)

/-- A move that the protocol's own rules and the state machines allow. -/
structure Cluster.Upholds (cluster : Cluster) (move : Move) : Prop where
  introduced : cluster.Introduced move
  proposes : cluster.Proposes move

namespace Fleet

variable {fleet fleet' : Fleet} {move : Move} {reached : Nat}

/-- Nothing has been applied but what its replica still has committed. -/
structure Sustained (fleet : Fleet) : Prop extends fleet.Upkept where
  replicates : ∃ h, Replicates fleet.cluster h
  committed : ∀ id replica, fleet.replicas id = some replica →
    replica.lastApplied ≤ replica.node.commitIndex

theorem Sustained.step (h : fleet.Sustained) (hupholds : fleet.cluster.Upholds move)
    (hstep : fleet.Step move reached fleet') : fleet'.Sustained := by
  have hupkept := h.toUpkept.step hupholds.proposes hstep
  obtain ⟨past, hreplicates⟩ := h.replicates
  obtain ⟨past', hreplicates'⟩ := hreplicates.move hupholds.introduced hstep.cluster
  refine ⟨hupkept, ⟨past', hreplicates'⟩, ?_⟩
  have hcommitted : ∀ (id other : NodeId) (last : Option Replica) (replica : Replica),
      (∀ next, last = some next → next.lastApplied ≤ next.node.commitIndex) →
      Function.update fleet.replicas id last other = some replica →
        replica.lastApplied ≤ replica.node.commitIndex := by
    intro id other last replica hlast hreplica
    by_cases hsame : other = id
    · rw [hsame, Function.update_self] at hreplica
      exact hlast replica hreplica
    · rw [Function.update_of_ne hsame] at hreplica
      exact h.committed other replica hreplica
  cases hstep with
  | @perform id operation replica next effects cluster' hreplica hperforms hcluster =>
      intro other found
      refine hcommitted id other (some next) found fun last hlast => ?_
      cases hlast
      have hnode : fleet.cluster.node id = some replica.node := by
        rw [h.coherent id, hreplica]
        rfl
      have hnode' : cluster'.node id = some next.node := by
        have hfound : cluster'.node id =
            (Function.update fleet.replicas id (some next) id).map Replica.node :=
          hupkept.coherent id
        rw [Function.update_self] at hfound
        exact hfound
      obtain ⟨-, hnodeRel⟩ := hreplicates'.of_node hnode'
      exact performs_committed hperforms (h.committed id replica hreplica)
        hnodeRel.boundary_le_commit
        (hreplicates.commit_stays hupholds.introduced.1 hcluster hnode hnode')
  | @interrupt id operation written replica next effects cluster' hreplica hperforms hcluster =>
      exact fun other found => hcommitted id other none found nofun
  | @crash id cluster' hcluster => exact fun other found => hcommitted id other none found nofun
  | @start id environment node replica cluster' hcluster hnode hrecover =>
      intro other found
      refine hcommitted id other (some replica) found fun last hlast => ?_
      cases hlast
      exact recovered_committed hrecover (hreplicates'.of_node hnode).2.boundary_le_commit

end Fleet

end Kurogane.Sim
