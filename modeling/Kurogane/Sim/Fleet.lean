import Kurogane.Kv.Boundaries
import Kurogane.Runtime.Batches
import Kurogane.Sim.Fitness
import Kurogane.Sim.Growth

/-!
A cluster that grows and whose nodes feed state machines. Every snapshot that is stored or
sent is the map of a replica that had applied its boundary, so a map is that of a committed
log, or ahead of it by no more than some replica had applied when a snapshot was taken.
-/

namespace Kurogane.Sim

open Kurogane.Raft Kurogane.Runtime Kurogane.Consensus
open Kurogane.Kv (Replica StateMachine)

/-- `replicas` are those of the nodes that run. -/
structure Fleet where
  cluster : Cluster
  replicas : NodeId → Option Replica

namespace Fleet

/-- A move of the cluster together with what the replica makes of it, which applies up to
`reached`. A process comes back as it comes up for the first time. -/
inductive Step (fleet : Fleet) : Move → Nat → Fleet → Prop
  | perform {id : NodeId} {operation : Operation} {replica next : Replica}
      {effects : List Effect} {cluster' : Cluster} : fleet.replicas id = some replica →
      replica.Performs operation next effects →
      fleet.cluster.step (.perform id operation) = some cluster' →
      Step fleet (.act (.perform id operation)) next.lastApplied
        ⟨cluster', Function.update fleet.replicas id (some next)⟩
  | interrupt {id : NodeId} {operation : Operation} {written : Nat} {replica next : Replica}
      {effects : List Effect} {cluster' : Cluster} : fleet.replicas id = some replica →
      replica.Performs operation next effects →
      fleet.cluster.step (.interrupt id operation written) = some cluster' →
      Step fleet (.act (.interrupt id operation written)) 0
        ⟨cluster', Function.update fleet.replicas id none⟩
  | crash {id : NodeId} {cluster' : Cluster} :
      fleet.cluster.step (.crash id) = some cluster' →
      Step fleet (.act (.crash id)) 0 ⟨cluster', Function.update fleet.replicas id none⟩
  | start {id : NodeId} {environment : Environment} {node : Node} {replica : Replica}
      {cluster' : Cluster} : fleet.cluster.launch id environment = some cluster' →
      cluster'.node id = some node → Replica.recover node = .ok replica →
      Step fleet (.start id environment) 0
        ⟨cluster', Function.update fleet.replicas id (some replica)⟩

theorem Step.cluster {fleet fleet' : Fleet} {move : Move} {reached : Nat}
    (hstep : fleet.Step move reached fleet') :
    fleet.cluster.move move = some fleet'.cluster := by
  cases hstep <;> assumption

/-- The replicas are those of the nodes. -/
def Coherent (fleet : Fleet) : Prop :=
  ∀ id, fleet.cluster.node id = (fleet.replicas id).map Replica.node

variable {fleet fleet' : Fleet} {move : Move} {reached : Nat}

/-- `id` has become a server with this replica, and its effects have been sent. -/
def update (fleet : Fleet) (id : NodeId) (replica : Option Replica) (storage : Storage)
    (effects : List Effect) : Fleet :=
  ⟨fleet.cluster.update id ⟨replica.map Replica.node, storage⟩ effects,
    Function.update fleet.replicas id replica⟩

/-- Moves that all meet `ok`, none of which applies beyond `reached`. -/
inductive Run (ok : Cluster → Move → Prop) : Fleet → Nat → Fleet → Prop
  | refl {fleet : Fleet} : Run ok fleet 0 fleet
  | head {fleet middle last : Fleet} {move : Move} {reached later : Nat} :
      ok fleet.cluster move → fleet.Step move reached middle →
      Run ok middle later last → Run ok fleet (max reached later) last

/-- What every move that meets `ok` keeps holds at the end. -/
theorem Run.invariant {ok : Cluster → Move → Prop} {I : Fleet → Prop}
    (hkeeps : ∀ {fleet fleet' : Fleet} {move : Move} {reached : Nat},
      ok fleet.cluster move → fleet.Step move reached fleet' → I fleet → I fleet')
    (hrun : Run ok fleet reached fleet') (hI : I fleet) : I fleet' := by
  induction hrun with
  | refl => exact hI
  | head hmove hstep _ ih => exact ih (hkeeps hmove hstep hI)

/-- The list that the cluster was founded with stays as it is. -/
theorem Run.founders {ok : Cluster → Move → Prop} (hrun : Run ok fleet reached fleet') :
    fleet'.cluster.peers = fleet.cluster.peers ∧
      Run (fun c m => c.peers = fleet.cluster.peers ∧ ok c m) fleet reached fleet' := by
  induction hrun with
  | refl => exact ⟨rfl, .refl⟩
  | head hmove hstep _ ih =>
      obtain ⟨hlast, hrest⟩ := ih
      rw [Cluster.move_peers hstep.cluster] at hlast hrest
      exact ⟨hlast, .head ⟨rfl, hmove⟩ hstep hrest⟩

section Steps

variable {id : NodeId} {operation : Operation} {replica next : Replica}
  {effects : List Effect} {storage storage' : Storage}

theorem Step.performed (hserver : fleet.cluster.servers[id]? = some ⟨some replica.node, storage⟩)
    (hreplica : fleet.replicas id = some replica)
    (hdelivers : fleet.cluster.delivers id operation = true)
    (hperforms : replica.Performs operation next effects)
    (happly : storage.applyAll effects = some storage') :
    fleet.Step (.act (.perform id operation)) next.lastApplied
      (fleet.update id (some next) storage' effects) := by
  refine .perform hreplica hperforms ?_
  simp only [Cluster.step, hserver, hdelivers, hperforms.node, happly, Option.bind_eq_bind,
    Option.bind_some, if_true]
  rfl

theorem Step.interrupted {written : Nat}
    (hserver : fleet.cluster.servers[id]? = some ⟨some replica.node, storage⟩)
    (hreplica : fleet.replicas id = some replica)
    (hdelivers : fleet.cluster.delivers id operation = true)
    (hperforms : replica.Performs operation next effects)
    (happly : storage.applyAll (effects.take written) = some storage') :
    fleet.Step (.act (.interrupt id operation written)) 0
      (fleet.update id none storage' (effects.take written)) := by
  refine .interrupt hreplica hperforms ?_
  simp only [Cluster.step, hserver, hdelivers, hperforms.node, happly, Option.bind_eq_bind,
    Option.bind_some, if_true]
  rfl

theorem Step.crashed {server : Server} (hserver : fleet.cluster.servers[id]? = some server) :
    fleet.Step (.act (.crash id)) 0 (fleet.update id none server.storage []) := by
  refine .crash ?_
  simp only [Cluster.step, hserver, Option.bind_eq_bind, Option.bind_some]
  rfl

theorem Step.started {environment : Environment} {node : Node}
    (hidle : fleet.cluster.node id = none)
    (hstart : startUp id environment (fleet.cluster.storageOf id) = .ok node)
    (hrecover : Replica.recover node = .ok replica) :
    fleet.Step (.start id environment) 0
      (fleet.update id (some replica) (fleet.cluster.storageOf id) []) := by
  have hsame : replica.node = node := (Replica.recover_spec hrecover).1
  have hrunning : (fleet.update id (some replica)
      (fleet.cluster.storageOf id) []).cluster.node id = some node := by
    show (fleet.cluster.update id _ []).node id = _
    rw [Cluster.node_update, if_pos rfl, Option.map_some, hsame]
  refine .start ?_ hrunning hrecover
  unfold Cluster.launch
  rw [hidle, hstart, Option.map_some, hsame]
  rfl

end Steps

theorem Coherent.update {id : NodeId} {server : Server} {effects : List Effect}
    {replica : Option Replica} (h : fleet.Coherent)
    (hserver : server.node = replica.map Replica.node) :
    Coherent ⟨fleet.cluster.update id server effects,
      Function.update fleet.replicas id replica⟩ := by
  intro other
  show (fleet.cluster.update id server effects).node other =
    (Function.update fleet.replicas id replica other).map Replica.node
  rw [Cluster.node_update]
  by_cases hsame : other = id
  · rw [if_pos hsame, hsame, Function.update_self, hserver]
  · rw [if_neg hsame, Function.update_of_ne hsame]
    exact h other

theorem Coherent.step (h : fleet.Coherent) (hstep : fleet.Step move reached fleet') :
    fleet'.Coherent := by
  cases hstep with
  | perform hreplica hperforms hcluster =>
      obtain ⟨server, node, node', effects, storage, hserver, hnode, -, hperform, -, rfl⟩ :=
        Cluster.step_perform hcluster
      have hfound := Cluster.node_of_server hserver hnode
      rw [h, hreplica] at hfound
      cases hfound
      rw [hperforms.node] at hperform
      cases hperform
      exact h.update rfl
  | interrupt hreplica hperforms hcluster =>
      obtain ⟨_, _, _, _, _, -, -, -, -, -, rfl⟩ := Cluster.step_interrupt hcluster
      exact h.update rfl
  | crash hcluster =>
      obtain ⟨_, -, rfl⟩ := Cluster.step_crash hcluster
      exact h.update rfl
  | start hcluster hnode hrecover =>
      obtain ⟨node, -, rfl⟩ := Cluster.launch_ok hcluster
      rw [Cluster.node_update, if_pos rfl] at hnode
      cases hnode
      refine h.update ?_
      rw [Option.map_some, (Replica.recover_spec hrecover).1]

end Fleet

/-! ### Snapshots -/

/-- A snapshot is the map of a replica that had applied its boundary, and no more than
`seen`. -/
def Pictured (log : List LogEntry) (seen : Nat) : Cargo → Prop
  | .command _ => True
  | .snapshot index data => index = 0 ∨ ∃ machine : StateMachine, data = machine.snapshot ∧
      index ≤ machine.lastApplied ∧ machine.lastApplied ≤ seen ∧ machine.StandsFor log seen

theorem Pictured.mono {log : List LogEntry} {seen later : Nat} {cargo : Cargo}
    (h : Pictured log seen cargo) (more : List LogEntry) (hle : seen ≤ later) :
    Pictured (log ++ more) later cargo := by
  cases cargo with
  | command bytes => trivial
  | snapshot index data =>
      rcases h with hnone | ⟨machine, hdata, hindex, hseen, hstands⟩
      · exact Or.inl hnone
      · exact Or.inr ⟨machine, hdata, hindex, hseen.trans hle,
          (hstands.append more).mono hle⟩

/-- Whoever restores such a snapshot is ahead of its boundary by what had been seen. -/
theorem Pictured.restores {log : List LogEntry} {seen index : Nat} {data : Bytes}
    {machine restored : StateMachine} (h : Pictured log seen (.snapshot index data))
    (hpos : 0 < index)
    (hrestore : machine.mustRestore index data = .ok restored) :
    restored.StandsFor log seen ∧ restored.lastApplied = index ∧ index ≤ seen := by
  obtain hnone | ⟨pictured, rfl, hindex, hseen, hstands⟩ := h
  · omega
  unfold StateMachine.mustRestore at hrestore
  rw [StateMachine.restore_snapshot machine hstands.fits] at hrestore
  cases hrestore
  exact ⟨(hstands.back hindex).mono (Nat.max_le.mpr ⟨le_rfl, hseen⟩), rfl,
    hindex.trans hseen⟩

/-! ### Maps -/

/-- The map of `id` is that of a committed log, or ahead of it by no more than `seen`. -/
structure Standing (h : Ghost) (log : List LogEntry) (seen : Nat) (id : NodeId)
    (replica : Replica) : Prop where
  stands : replica.stateMachine.StandsFor log seen
  boundary : replica.node.snapshot.lastIncludedIndex ≤ replica.lastApplied
  seen : replica.lastApplied ≤ seen
  held : replica.lastApplied ≤ (h.log id).length
  covered : h.Covered (h.term id) h.clock ((h.log id).take replica.lastApplied)

namespace Standing

variable {h h' : Ghost} {log : List LogEntry} {seen : Nat} {id : NodeId}
  {replica next : Replica}

theorem later (hstanding : Standing h log seen id replica) (hext : h.Extends h')
    (hkeeps : h.Keeps h') : Standing h' log seen id replica := by
  obtain ⟨rest, hrest⟩ := hkeeps id _ hstanding.covered (List.take_prefix _ _)
  have hlength := List.length_take_of_le hstanding.held
  have hsame : (h'.log id).take replica.lastApplied =
      (h.log id).take replica.lastApplied := by
    rw [← hrest]
    exact List.take_left' hlength
  refine { hstanding with held := ?_, covered := ?_ }
  · rw [← hrest, List.length_append, hlength]
    exact Nat.le_add_right _ _
  · rw [hsame]
    exact hext.covered hstanding.covered (hext.term id) hext.clock

theorem mono (hstanding : Standing h log seen id replica) (more : List LogEntry)
    {later : Nat} (hle : seen ≤ later) : Standing h (log ++ more) later id replica :=
  { hstanding with
    stands := (hstanding.stands.append more).mono hle
    seen := hstanding.seen.trans hle }

/-- What is applied on top of `middle`, whose map stands for a log. -/
theorem applied {initial : ClusterConfig} {middle : Replica} {deliveries : List Kv.Delivery}
    (s : h.Sound (membership initial)) (hcommitted : h.Committed log)
    (hrel : NodeRel initial h next.node) (hid : next.node.id = id)
    (happlies : Kv.Replica.Applies middle deliveries next)
    (hmiddle : middle.stateMachine.StandsFor log seen)
    (hboundary : next.node.snapshot.lastIncludedIndex ≤ middle.lastApplied)
    (hheld : middle.lastApplied ≤ (h.log id).length)
    (hcovered : h.Covered (h.term id) h.clock ((h.log id).take middle.lastApplied)) :
    ∃ log', h.Committed log' ∧ log <+: log' ∧
      Standing h log' (max seen next.lastApplied) id next := by
  have hcovered' : h.Covered (h.term id) h.clock ((h.log id).take next.lastApplied) := by
    rcases happlies.reached with hsame | hcommit
    · rw [hsame]
      exact hcovered
    · have hcommit' := hrel.committed_covered s
      rw [← hrel.term, hid] at hcommit'
      exact hcommit'.shorten (List.take_prefix_take_left hcommit)
  have hheld' : next.lastApplied ≤ (h.log id).length := by
    rcases happlies.reached with hsame | hcommit
    · rw [hsame]
      exact hheld
    · rw [← hid]
      exact hcommit.trans (hrel.commit_le_length s)
  obtain ⟨log', hlog', ⟨more, rfl⟩, ⟨rest, hrest⟩⟩ :=
    s.committed_join hcommitted ⟨_, _, hcovered'⟩
  have hfrom : next.AppliesFrom (log ++ more) middle.lastApplied := by
    intro index hlow hhigh
    rw [hrel.entryAt (hboundary.trans_lt hlow), hid, ← hrest,
      List.getElem?_append_left (by rw [List.length_take]; omega), List.getElem?_take,
      if_pos (by omega)]
  exact ⟨log ++ more, hlog', List.prefix_append _ _,
    { stands := (happlies.standsFor hfrom (hmiddle.append more)).mono (Nat.le_max_left _ _)
      boundary := hboundary.trans happlies.spec.2.1.le
      seen := Nat.le_max_right _ _
      held := hheld'
      covered := hcovered' }⟩

/-- A request applies what its node has come to know as committed, on top of the map as
it was or of the snapshot the node has taken over. -/
theorem performs {initial : ClusterConfig} {operation : Operation} {effects : List Effect}
    (hstanding : Standing h log seen id replica) (s : h.Sound (membership initial))
    (hcommitted : h.Committed log) (hperforms : replica.Performs operation next effects)
    (hrel : NodeRel initial h next.node) (hid : next.node.id = id)
    (hfit : Pictured log seen
      (.snapshot next.node.snapshot.lastIncludedIndex next.node.snapshotData)) :
    ∃ log', h.Committed log' ∧ log <+: log' ∧
      Standing h log' (max seen next.lastApplied) id next := by
  rcases hperforms.served with rfl | ⟨request, deliveries, hperform⟩
  · refine ⟨log, hcommitted, List.prefix_rfl, ?_⟩
    have hsame := hstanding.mono [] (Nat.le_max_left seen next.lastApplied)
    rwa [List.append_nil] at hsame
  obtain ⟨middle, applied, happlies, ⟨hmachine, -, hbehind⟩ | ⟨hahead, hmachine, -⟩⟩ :=
    Kv.Replica.perform_applies hperform
  · have hfirst : middle.lastApplied = replica.lastApplied :=
      congrArg StateMachine.lastApplied hmachine
    have hboundary := hbehind hstanding.boundary
    rw [← hfirst] at hboundary
    exact Standing.applied s hcommitted hrel hid happlies (hmachine ▸ hstanding.stands)
      hboundary (hfirst ▸ hstanding.held) (hfirst ▸ hstanding.covered)
  · obtain ⟨hstands, hindex, -⟩ := hfit.restores (Nat.zero_lt_of_lt hahead) hmachine
    have hfirst : middle.lastApplied = next.node.snapshot.lastIncludedIndex := hindex
    have hcovered := hrel.snapshot_covered s
    rw [← hrel.term, hid] at hcovered
    have hheld := hrel.boundary_le_length s
    rw [hid] at hheld
    exact Standing.applied s hcommitted hrel hid happlies hstands hfirst.ge (hfirst ▸ hheld)
      (hfirst ▸ hcovered)

/-- A replica that comes back has the map of its snapshot. -/
theorem recovered {initial : ClusterConfig} {node : Node} (s : h.Sound (membership initial))
    (hrecover : Kv.Replica.recover node = .ok replica) (hrel : NodeRel initial h node)
    (hid : node.id = id)
    (hfit : Pictured log seen (.snapshot node.snapshot.lastIncludedIndex node.snapshotData)) :
    Standing h log seen id replica := by
  obtain ⟨rfl, -, hnew, hmachine⟩ := Kv.Replica.recover_spec hrecover
  have hcovered := hrel.snapshot_covered s
  rw [← hrel.term, hid] at hcovered
  have hheld := hrel.boundary_le_length s
  rw [hid] at hheld
  rcases Nat.eq_zero_or_pos replica.node.snapshot.lastIncludedIndex with hnone | hpos
  · have happlied : replica.lastApplied = replica.node.snapshot.lastIncludedIndex :=
      (congrArg StateMachine.lastApplied (hnew hnone)).trans hnone.symm
    refine ⟨?_, happlied.ge, ?_, happlied ▸ hheld, happlied ▸ hcovered⟩
    · rw [hnew hnone]
      exact (StateMachine.StandsFor.initial log).mono (Nat.zero_le _)
    · rw [happlied, hnone]
      exact Nat.zero_le _
  · obtain ⟨hstands, hindex, hseen⟩ := hfit.restores hpos (hmachine hpos)
    have happlied : replica.lastApplied = replica.node.snapshot.lastIncludedIndex := hindex
    exact ⟨hstands, happlied.ge, happlied ▸ hseen, happlied ▸ hheld, happlied ▸ hcovered⟩

end Standing

namespace Fleet

/-- `h` is the history of a run of `fleet`, and `log` has been committed in it. -/
structure Tracks (fleet : Fleet) (h : Ghost) (log : List LogEntry) (seen : Nat) : Prop where
  coherent : fleet.Coherent
  grown : Grown fleet.cluster h
  fit : fleet.cluster.Fit (Pictured log seen)
  committed : h.Committed log
  standing : ∀ id replica, fleet.replicas id = some replica → Standing h log seen id replica

namespace Tracks

variable {fleet fleet' : Fleet} {move : Move} {reached seen : Nat} {h : Ghost}
  {log : List LogEntry}

/-- What a replica compacts is its map as it is. -/
theorem supplies (htracks : fleet.Tracks h log seen)
    (hstep : fleet.Step move reached fleet') :
    fleet.cluster.Supplies (Pictured log seen) move := by
  have hsupplied : ∀ (id : NodeId) (operation : Operation) (replica next : Replica)
      (effects : List Effect), fleet.replicas id = some replica →
      replica.Performs operation next effects →
      (∀ sender message, operation ≠ .receive sender message) →
        operation.Fit (Pictured log seen) := by
    intro id operation replica next effects hreplica hperforms hown
    cases operation with
    | receive sender message => exact absurd rfl (hown sender message)
    | compact upToIndex data =>
        obtain ⟨hle, rfl, -⟩ := hperforms.compacts upToIndex data rfl
        have hstanding := htracks.standing id replica hreplica
        exact Or.inr ⟨replica.stateMachine, rfl, hle, hstanding.seen, hstanding.stands⟩
    | _ => trivial
  cases hstep with
  | perform hreplica hperforms =>
      exact fun _ node _ => hsupplied _ _ _ _ _ hreplica hperforms
  | interrupt hreplica hperforms =>
      exact fun _ node _ => hsupplied _ _ _ _ _ hreplica hperforms
  | crash => trivial
  | start => trivial

theorem mono {later : Nat} (htracks : fleet.Tracks h log seen) (hle : seen ≤ later) :
    fleet.Tracks h log later := by
  refine { htracks with fit := htracks.fit.imp fun cargo hpictured => ?_, standing := ?_ }
  · have hlater := hpictured.mono [] hle
    rwa [List.append_nil] at hlater
  · intro id replica hreplica
    have hlater := (htracks.standing id replica hreplica).mono [] hle
    rwa [List.append_nil] at hlater

/-- An orderly move, whatever snapshots it sends, installs or comes back from. -/
theorem step (htracks : fleet.Tracks h log seen) (hok : fleet.cluster.Orderly move)
    (hstep : fleet.Step move reached fleet') :
    ∃ h' log', fleet'.Tracks h' log' (max seen reached) ∧ h.Extends h' ∧ log <+: log' := by
  have hcoherent := htracks.coherent.step hstep
  have hfit := htracks.fit.move (Or.inl rfl) (htracks.supplies hstep) hstep.cluster
  obtain ⟨h', id, hrel, hsteps, hpeers⟩ := htracks.grown.move_by hok hstep.cluster
  have hext := hsteps.extends
  have hkeeps := hsteps.keeps htracks.grown.sound
  have hcommitted := hext.committed htracks.committed
  have hstanding : ∀ id replica, fleet.replicas id = some replica →
      Standing h' log seen id replica :=
    fun id replica hreplica => (htracks.standing id replica hreplica).later hext hkeeps
  refine ⟨h', ?_⟩
  -- all replicas but the one that has acted are as they were
  have hall : ∀ (log' : List LogEntry) (later : Nat), h'.Committed log' → log <+: log' →
      seen ≤ later → (∀ id replica, fleet'.replicas id = some replica →
        fleet.replicas id = some replica ∨ Standing h' log' later id replica) →
      fleet'.Tracks h' log' later := by
    rintro log' later hlog' ⟨more, rfl⟩ hle hothers
    refine ⟨hcoherent, hrel, hfit.imp (fun cargo hpictured => hpictured.mono more hle), hlog',
      fun id replica hreplica => ?_⟩
    rcases hothers id replica hreplica with hold | hnew
    · exact (hstanding id replica hold).mono more hle
    · exact hnew
  have hother : ∀ (id other : NodeId) (last : Option Replica) (replica : Replica),
      Function.update fleet.replicas id last other = some replica →
      (other = id ∧ last = some replica) ∨ fleet.replicas other = some replica := by
    intro id other last replica hreplica
    by_cases hsame : other = id
    · rw [hsame, Function.update_self] at hreplica
      exact Or.inl ⟨hsame, hreplica⟩
    · rw [Function.update_of_ne hsame] at hreplica
      exact Or.inr hreplica
  cases hstep with
  | @perform id operation replica next effects cluster' hreplica hperforms hcluster =>
      have hnode : cluster'.node id = some next.node := by
        have hfound : cluster'.node id =
            (Function.update fleet.replicas id (some next) id).map Replica.node := hcoherent id
        rw [Function.update_self] at hfound
        exact hfound
      obtain ⟨hid, hnodeRel⟩ := hrel.of_node hnode
      obtain ⟨log', hlog', hinit, hlast⟩ := (hstanding id replica hreplica).performs hrel.sound
        hcommitted hperforms hnodeRel hid (hfit.of_node hnode).2.snapshot
      refine ⟨log', hall log' _ hlog' hinit (Nat.le_max_left _ _) ?_, hext, hinit⟩
      intro other found hfound
      rcases hother id other _ found hfound with ⟨rfl, hsame⟩ | hold
      · cases hsame
        exact Or.inr hlast
      · exact Or.inl hold
  | @interrupt id operation written replica next effects cluster' hreplica hperforms hcluster =>
      refine ⟨log, hall log _ hcommitted List.prefix_rfl (Nat.le_max_left _ _) ?_, hext,
        List.prefix_rfl⟩
      intro other found hfound
      rcases hother id other _ found hfound with ⟨rfl, hsame⟩ | hold
      · cases hsame
      · exact Or.inl hold
  | @crash id cluster' hcluster =>
      refine ⟨log, hall log _ hcommitted List.prefix_rfl (Nat.le_max_left _ _) ?_, hext,
        List.prefix_rfl⟩
      intro other found hfound
      rcases hother id other _ found hfound with ⟨rfl, hsame⟩ | hold
      · cases hsame
      · exact Or.inl hold
  | @start id environment node replica cluster' hcluster hnode hrecover =>
      obtain ⟨hid, hnodeRel⟩ := hrel.of_node hnode
      refine ⟨log, hall log _ hcommitted List.prefix_rfl (Nat.le_max_left _ _) ?_, hext,
        List.prefix_rfl⟩
      intro other found hfound
      rcases hother id other _ found hfound with ⟨rfl, hsame⟩ | hold
      · cases hsame
        have hlast := Standing.recovered hrel.sound hrecover hnodeRel hid
          (hfit.of_node hnode).2.snapshot
        have hmono := hlast.mono [] (Nat.le_max_left seen 0)
        rw [List.append_nil] at hmono
        exact Or.inr hmono
      · exact Or.inl hold

theorem run {ok : Cluster → Move → Prop} (hok : ∀ c m, ok c m → c.Orderly m)
    (hrun : fleet.Run ok reached fleet') (htracks : fleet.Tracks h log seen) :
    ∃ h' log', fleet'.Tracks h' log' (max seen reached) ∧ h.Extends h' ∧ log <+: log' := by
  induction hrun generalizing h log seen with
  | refl =>
      refine ⟨h, log, ?_, .refl h, List.prefix_rfl⟩
      rw [Nat.max_zero]
      exact htracks
  | head hmove hstep _ ih =>
      obtain ⟨middle, first, hmiddle, hext, hinit⟩ := htracks.step (hok _ _ hmove) hstep
      obtain ⟨last, whole, hlast, hext', hinit'⟩ := ih hmiddle
      refine ⟨last, whole, ?_, hext.trans hext', hinit.trans hinit'⟩
      rw [← Nat.max_assoc]
      exact hlast

end Tracks

end Fleet

end Kurogane.Sim
