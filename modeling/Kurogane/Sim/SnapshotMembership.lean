import Kurogane.Raft.Emissions
import Kurogane.Sim.ElectionSafety
import Kurogane.Sim.Growth

/-!
The membership a snapshot carries. Compaction drops the entries that set the
membership, so a boundary has to carry it. A node that joins starts from an
empty one: as long as no node compacts on that, every boundary carries the
configuration the committed log had there, and none is without voters.
-/

namespace Kurogane.Sim

open Kurogane.Raft Kurogane.Runtime Kurogane.Consensus

/-- In one of `states` a node held `entry` at `index` and counted it as
committed. -/
def CommittedIn (states : List Cluster) (index : Nat) (entry : LogEntry) : Prop :=
  ∃ cluster ∈ states, ∃ id node, cluster.node id = some node ∧
    index ≤ node.commitIndex ∧ node.entryAt index = some entry

theorem CommittedIn.later {states : List Cluster} {index : Nat} {entry : LogEntry}
    (h : CommittedIn states index entry) (cluster : Cluster) :
    CommittedIn (cluster :: states) index entry := by
  obtain ⟨found, hfound, hnode⟩ := h
  exact ⟨found, List.mem_cons_of_mem _ hfound, hnode⟩

/-- Every index up to `boundary` has been seen committed. -/
def SeenUpTo (states : List Cluster) (boundary : Nat) : Prop :=
  ∀ index, 0 < index → index ≤ boundary → ∃ entry, CommittedIn states index entry

theorem SeenUpTo.later {states : List Cluster} {boundary : Nat}
    (h : SeenUpTo states boundary) (cluster : Cluster) :
    SeenUpTo (cluster :: states) boundary := by
  intro index hpos hle
  obtain ⟨entry, hentry⟩ := h index hpos hle
  exact ⟨entry, hentry.later cluster⟩

/-- A boundary is drawn only where everything has been seen committed. -/
structure Witnessed (states : List Cluster) (cluster : Cluster) : Prop where
  nodes : ∀ (id : NodeId) (node : Node), cluster.node id = some node →
    SeenUpTo states node.snapshot.lastIncludedIndex
  stored : ∀ (id : NodeId) (server : Server), cluster.servers[id]? = some server →
    SeenUpTo states server.storage.snapshot.lastIncludedIndex
  sent : ∀ envelope ∈ cluster.network, ∀ request,
    envelope.message = .installSnapshot request →
      SeenUpTo states request.lastIncludedIndex

variable {h h' : Ghost} {node node' : Node} {states : List Cluster}
  {cluster cluster' : Cluster} {effects : List Effect}

namespace Witnessed

theorem later (hseen : Witnessed states cluster) (next : Cluster) :
    Witnessed (next :: states) cluster where
  nodes id node hnode := (hseen.nodes id node hnode).later next
  stored id server hserver := (hseen.stored id server hserver).later next
  sent envelope hmem request hrequest :=
    (hseen.sent envelope hmem request hrequest).later next

theorem update (hseen : Witnessed states cluster) {id : NodeId} {server : Server}
    (hnode : ∀ node ∈ server.node,
      SeenUpTo states node.snapshot.lastIncludedIndex)
    (hstored : SeenUpTo states server.storage.snapshot.lastIncludedIndex)
    (hsent : ∀ receiver request,
      .send receiver (.installSnapshot request) ∈ effects →
        SeenUpTo states request.lastIncludedIndex) :
    Witnessed states (cluster.update id server effects) where
  nodes other found hfound := by
    rw [Cluster.node, Cluster.servers_update,
      Std.ExtTreeMap.getElem?_insert] at hfound
    split at hfound
    · exact hnode found hfound
    · exact hseen.nodes other found hfound
  stored other found hfound := by
    rw [Cluster.servers_update, Std.ExtTreeMap.getElem?_insert] at hfound
    split at hfound
    · cases hfound
      exact hstored
    · exact hseen.stored other found hfound
  sent envelope hmem request hrequest := by
    rcases List.mem_append.mp hmem with hmem | hmem
    · exact hseen.sent envelope hmem request hrequest
    · obtain ⟨-, heffect⟩ := mem_sent hmem
      rw [hrequest] at heffect
      exact hsent _ request heffect

/-- A node that has served a request has its boundary where it was, inside what
it had committed, or where a snapshot it was sent has it. -/
theorem served (hseen : Witnessed states cluster) (hin : cluster ∈ states)
    (hrel : ClusterRel cluster h) {id : NodeId} {operation : Operation}
    (hnode : cluster.node id = some node)
    (hdelivers : cluster.delivers id operation = true)
    (hperform : node.perform operation = some (node', effects)) :
    SeenUpTo states node'.snapshot.lastIncludedIndex := by
  rcases Node.perform_boundary hperform with ⟨hsame, -⟩ | hmoves
  · rw [hsame]
    exact hseen.nodes id node hnode
  cases hmoves with
  | compact hlow hcommitted hboundary =>
      rw [hboundary]
      intro index hpos hle
      rcases Nat.lt_or_ge node.snapshot.lastIncludedIndex index with habove | hbelow
      · obtain ⟨rfl, hnodeRel⟩ := hrel.of_node hnode
        have hlength := hnodeRel.commit_le_length hrel.sound
        have hentry := hnodeRel.entryAt habove
        rw [List.getElem?_eq_getElem (by omega)] at hentry
        exact ⟨_, cluster, hin, node.id, node, hnode, by omega, hentry⟩
      · exact hseen.nodes id node hnode index hpos hbelow
  | install hcurrent hboundary hconfig =>
      rw [hboundary]
      have hmem := hdelivers
      simp only [Cluster.delivers, List.contains_iff_mem] at hmem
      exact hseen.sent _ hmem _ rfl

/-- The same of the storage and of the messages a crash leaves of a batch. -/
theorem emitted (hseen : Witnessed states cluster) {id : NodeId} {server : Server}
    {operation : Operation}
    (hserver : cluster.servers[id]? = some server)
    (hperform : node.perform operation = some (node', effects))
    (hserved : SeenUpTo states node'.snapshot.lastIncludedIndex)
    {written : List Effect} (hwritten : ∀ effect ∈ written, effect ∈ effects)
    {storage : Storage} (happly : server.storage.applyAll written = some storage) :
    SeenUpTo states storage.snapshot.lastIncludedIndex ∧
      ∀ receiver request, .send receiver (.installSnapshot request) ∈ written →
        SeenUpTo states request.lastIncludedIndex := by
  have hall := Node.perform_emittable hperform
  constructor
  · rcases Storage.applyAll_snapshot happly with
      hsame | ⟨index, term, data, config, hmem, hsnapshot⟩
    · rw [hsame]
      exact hseen.stored id server hserver
    · obtain ⟨-, hindex, -⟩ := hall _ (hwritten _ hmem)
      rw [hsnapshot, hindex]
      exact hserved
  · intro receiver request hmem
    rw [(hall _ (hwritten _ hmem)).2 request rfl]
    exact hserved

theorem move (hseen : Witnessed states cluster) (hin : cluster ∈ states)
    (hrel : ClusterRel cluster h) {move : Move}
    (hmove : cluster.move move = some cluster') : Witnessed states cluster' := by
  cases move with
  | start id environment =>
      obtain ⟨node, hstart, rfl⟩ := Cluster.launch_ok hmove
      have hstored : SeenUpTo states
          (cluster.storageOf id).snapshot.lastIncludedIndex := by
        unfold Cluster.storageOf
        cases hserver : cluster.servers[id]? with
        | none => exact fun index hpos hle => absurd hle (Nat.not_le.mpr hpos)
        | some server => exact hseen.stored id server hserver
      refine hseen.update (fun found hfound => ?_) hstored (by simp)
      cases hfound
      rw [startUp_boundary hstart]
      exact hstored
  | act action =>
      cases action with
      | perform id operation =>
          obtain ⟨server, node, node', effects, storage, hserver, hrunning,
            hdelivers, hperform, happly, rfl⟩ := Cluster.step_perform hmove
          have hserved := hseen.served hin hrel
            (Cluster.node_of_server hserver hrunning) hdelivers hperform
          obtain ⟨hstored, hsent⟩ := hseen.emitted hserver hperform hserved
            (fun _ hmem => hmem) happly
          refine hseen.update (fun found hfound => ?_) hstored hsent
          cases hfound
          exact hserved
      | interrupt id operation written =>
          obtain ⟨server, node, node', effects, storage, hserver, hrunning,
            hdelivers, hperform, happly, rfl⟩ := Cluster.step_interrupt hmove
          have hserved := hseen.served hin hrel
            (Cluster.node_of_server hserver hrunning) hdelivers hperform
          obtain ⟨hstored, hsent⟩ := hseen.emitted hserver hperform hserved
            (fun _ => List.mem_of_mem_take) happly
          exact hseen.update (by simp) hstored hsent
      | crash id =>
          obtain ⟨server, hserver, rfl⟩ := Cluster.step_crash hmove
          exact hseen.update (by simp) (hseen.stored id server hserver) (by simp)
      | restart id electionTimeout heartbeatInterval =>
          obtain ⟨server, node, hserver, hrecover, rfl⟩ :=
            Cluster.step_restart hmove
          have hstored := hseen.stored id server hserver
          refine hseen.update (fun found hfound => ?_) hstored (by simp)
          cases hfound
          obtain ⟨-, -, -, -, -, hdurable, -⟩ := Node.recover_ok hrecover
          have hboundary : node.snapshot.lastIncludedIndex =
              server.storage.snapshot.lastIncludedIndex :=
            congrArg Durable.boundary hdurable
          rw [hboundary]
          exact hstored

end Witnessed

/-! ### The committed log -/

/-- The history covers what has been seen committed. -/
def Recounts (h : Ghost) (states : List Cluster) : Prop :=
  ∀ index entry, CommittedIn states (index + 1) entry →
    ∃ term log, h.Covered term h.clock log ∧ log[index]? = some entry

theorem Recounts.later (hrecounts : Recounts h states) (ext : h.Extends h')
    (hrel : ClusterRel cluster h') : Recounts h' (cluster :: states) := by
  rintro index entry ⟨found, hfound, id, node, hnode, hcommit, hentry⟩
  rcases List.mem_cons.mp hfound with rfl | hfound
  · obtain ⟨rfl, hnodeRel⟩ := hrel.of_node hnode
    refine ⟨_, _, hnodeRel.committed_covered hrel.sound, ?_⟩
    obtain ⟨hlow, -⟩ := Node.entryAt_range hentry
    rw [List.getElem?_take_of_lt hcommit, ← hentry, hnodeRel.entryAt hlow]
    rfl
  · obtain ⟨term, log, hcovered, hget⟩ :=
      hrecounts index entry ⟨found, hfound, id, node, hnode, hcommit, hentry⟩
    exact ⟨term, log, ext.covered hcovered le_rfl ext.clock, hget⟩

/-- What a boundary inside a covered log cuts off is the committed log. -/
theorem committedIn_iff (s : h.Sound (membership ⟨cluster.peers, none⟩))
    (hrecounts : Recounts h states) {log : List LogEntry} {term : Nat}
    (hcovered : h.Covered term h.clock log) (hseen : SeenUpTo states log.length)
    {index : Nat} (hindex : index < log.length) (entry : LogEntry) :
    CommittedIn states (index + 1) entry ↔ log[index]? = some entry := by
  have hagree : ∀ other, CommittedIn states (index + 1) other →
      log[index]? = some other := by
    intro other hother
    obtain ⟨term', log', hcovered', hget⟩ := hrecounts index other hother
    have hindex' := (List.getElem?_eq_some_iff.mp hget).1
    rcases s.covered_comparable hcovered hcovered' with ⟨tail, rfl⟩ | ⟨tail, rfl⟩
    · rw [← hget, List.getElem?_append_left hindex]
    · rw [← hget, List.getElem?_append_left hindex']
  constructor
  · exact hagree entry
  · intro hget
    obtain ⟨other, hother⟩ := hseen (index + 1) (Nat.succ_pos _) hindex
    rw [hagree other hother] at hget
    cases hget
    exact hother

/-! ### Voters -/

/-- The configuration at a committed boundary has had a quorum. -/
theorem covered_voters {initial : ClusterConfig} (s : h.Sound (membership initial))
    {term time : Nat} {log : List LogEntry} (hcovered : h.Covered term time log)
    (hne : log ≠ []) : ((membership initial).latest initial log).voters ≠ [] := by
  obtain ⟨P, hmajority, -⟩ := s.covered_quorum hcovered hne
  intro hnil
  rw [membership_initial, hnil] at hmajority
  simp [Majority] at hmajority

theorem NodeRel.snapshot_voters {initial : ClusterConfig}
    (hrel : NodeRel initial h node) (s : h.Sound (membership initial))
    (hboundary : 0 < node.snapshot.lastIncludedIndex) :
    node.snapshotConfig.voters ≠ [] := by
  rw [hrel.snapshotConfig (Or.inl hboundary)]
  apply covered_voters s (hrel.snapshot_covered s)
  intro hnil
  have hlength := congrArg List.length hnil
  have hle := hrel.boundary_le_length s
  rw [List.length_take, List.length_nil] at hlength
  omega

/-- A snapshot on its way names voters. -/
theorem MessageRel.snapshot_voters {initial : ClusterConfig}
    (s : h.Sound (membership initial)) {sender receiver : NodeId}
    {request : InstallSnapshot}
    (hmessage : MessageRel initial h sender receiver (.installSnapshot request)) :
    request.config.voters ≠ [] := by
  obtain ⟨-, hpos, covered, -, hlength, -, hconfig, hcovered⟩ := hmessage
  rw [← hconfig]
  apply covered_voters s hcovered
  rintro rfl
  rw [← hlength] at hpos
  exact absurd hpos (lt_irrefl 0)

/-- A snapshot that is about to be stored names voters. -/
theorem stored_voters (hrel : ClusterRel cluster h) {id : NodeId}
    {operation : Operation}
    (hok : cluster.Orderly (.act (.perform id operation)))
    (hnode : cluster.node id = some node)
    (hdelivers : cluster.delivers id operation = true)
    (hperform : node.perform operation = some (node', effects))
    {index term : Nat} {data : Bytes} {config : ClusterConfig}
    (hmem : .persistSnapshot index term data config ∈ effects) :
    config.voters ≠ [] := by
  obtain ⟨rfl, hnodeRel⟩ := hrel.of_node hnode
  have hmessage := hrel.delivered hdelivers
  obtain ⟨h', hsim⟩ := perform_simulates hrel.sound hnodeRel
    (hok.1.serving hdelivers node hnode) (hok.2 hdelivers node hnode) hmessage
    hperform
  obtain ⟨hmoves, -, rfl⟩ := Node.perform_emittable hperform _ hmem
  apply hsim.rel.snapshot_voters (hsim.steps.sound hrel.sound)
  cases hmoves with
  | compact hlow _ hboundary => omega
  | install _ hboundary _ =>
      obtain ⟨-, hpos, -⟩ := hmessage _ _ rfl
      omega

/-! ### Runs -/

/-- What a run keeps: the protocol's relation, and that boundaries are drawn
inside what has been seen committed. -/
def Accounted (peers : List NodeId) : List Cluster → Prop
  | [] => False
  | now :: past => now.peers = peers ∧ Witnessed (now :: past) now ∧
      ∃ h, Grown now h ∧ Recounts h (now :: past)

theorem boot_accounted {peers : List NodeId} {members : List (NodeId × Nat × Nat)}
    (hboot : Cluster.boot peers members = .ok cluster) :
    Accounted peers [cluster] := by
  obtain ⟨hpeers, hnetwork, hservers⟩ := Cluster.boot_ok hboot
  have hnone : SeenUpTo [cluster] 0 :=
    fun index hpos hle => absurd hle (Nat.not_le.mpr hpos)
  have hnew : ∀ (id : NodeId) (node : Node), cluster.node id = some node →
      node.snapshot.lastIncludedIndex = 0 ∧ node.commitIndex = 0 := by
    intro id node hnode
    obtain ⟨server, hserver, hnode⟩ := Option.bind_eq_some_iff.mp hnode
    obtain ⟨first, electionTimeout, heartbeatInterval, rfl, hnew⟩ :=
      hservers id server hserver
    cases hnode
    obtain ⟨-, -, -, -, hcommit, hdurable, -⟩ := Node.recover_ok hnew
    exact ⟨congrArg Durable.boundary hdurable, hcommit⟩
  refine ⟨hpeers, ⟨?_, ?_, ?_⟩, .empty NodeId LogEntry, boot_grown hboot, ?_⟩
  · intro id node hnode
    rw [(hnew id node hnode).1]
    exact hnone
  · intro id server hserver
    obtain ⟨node, electionTimeout, heartbeatInterval, rfl, -⟩ :=
      hservers id server hserver
    exact hnone
  · intro envelope hmem
    rw [hnetwork] at hmem
    cases hmem
  · rintro index entry ⟨found, hfound, id, node, hnode, hcommit, -⟩
    obtain rfl := List.mem_singleton.mp hfound
    rw [(hnew id node hnode).2] at hcommit
    exact absurd hcommit (Nat.not_succ_le_zero index)

theorem Accounted.run {peers : List NodeId} {start : Cluster}
    (hstart : Accounted peers [start])
    (hrun : Growth Cluster.Orderly start states) : Accounted peers states := by
  refine hrun.invariant (Accounted peers) hstart ?_
  rintro now past move next ⟨hpeers, hseen, h, hrel, hrecounts⟩ hok hmove
  obtain ⟨h', hrel', hext, hsame⟩ := hrel.move hok hmove
  exact ⟨hsame.trans hpeers,
    (hseen.move List.mem_cons_self hrel.toClusterRel hmove).later next, h', hrel',
    hrecounts.later hext hrel'.toClusterRel⟩

/-- In an orderly run of a growing cluster the configuration of every boundary
is the latest one of the log committed up to it, or the bootstrap voters, and
no snapshot that is sent or stored is without voters. -/
theorem snapshots_carry_membership {peers : List NodeId}
    {members : List (NodeId × Nat × Nat)} {start now : Cluster}
    {past : List Cluster} (hboot : Cluster.boot peers members = .ok start)
    (hrun : Growth Cluster.Orderly start (now :: past)) :
    (∀ id node, now.node id = some node → 0 < node.snapshot.lastIncludedIndex →
      node.snapshotConfig.voters ≠ [] ∧ ∃ committed : List LogEntry,
        committed.length = node.snapshot.lastIncludedIndex ∧
        (∀ index entry, index < node.snapshot.lastIncludedIndex →
          (CommittedIn (now :: past) (index + 1) entry ↔
            committed[index]? = some entry)) ∧
        node.snapshotConfig =
          (membership ⟨peers, none⟩).latest ⟨peers, none⟩ committed) ∧
    (∀ envelope ∈ now.network, ∀ request,
      envelope.message = .installSnapshot request → request.config.voters ≠ []) ∧
    ∀ id operation node node' effects index term data config,
      now.Orderly (.act (.perform id operation)) → now.node id = some node →
      now.delivers id operation = true →
      node.perform operation = some (node', effects) →
      .persistSnapshot index term data config ∈ effects → config.voters ≠ [] := by
  obtain ⟨rfl, hseen, h, hrel, hrecounts⟩ := (boot_accounted hboot).run hrun
  refine ⟨?_, ?_, ?_⟩
  · intro id node hnode hboundary
    obtain ⟨rfl, hnodeRel⟩ := hrel.of_node hnode
    have hcovered := hnodeRel.snapshot_covered hrel.sound
    have hlength : ((h.log node.id).take node.snapshot.lastIncludedIndex).length =
        node.snapshot.lastIncludedIndex :=
      List.length_take_of_le (hnodeRel.boundary_le_length hrel.sound)
    refine ⟨hnodeRel.snapshot_voters hrel.sound hboundary, _, hlength, ?_,
      hnodeRel.snapshotConfig (Or.inl hboundary)⟩
    intro index entry hindex
    exact committedIn_iff hrel.sound hrecounts hcovered
      (hlength.symm ▸ hseen.nodes node.id node hnode) (hlength.symm ▸ hindex) entry
  · intro envelope hmem request hrequest
    have hmessage := hrel.network envelope hmem
    rw [hrequest] at hmessage
    exact hmessage.snapshot_voters hrel.sound
  · intro id operation node node' effects index term data config hok hnode
      hdelivers hperform hmem
    exact stored_voters hrel.toClusterRel hok hnode hdelivers hperform hmem

/-- Node four joins a cluster of one, is promoted, and keeps the joint entry of
its own promotion in a snapshot. -/
def joinsAndCompacts : List Move :=
  [.act (.perform ⟨1⟩ (.tick 1)),
    .start ⟨4⟩ ⟨[], 9, 1, true⟩,
    .act (.perform ⟨1⟩ (.addLearner ⟨4⟩)),
    .act (.perform ⟨1⟩ (.proposeConfigChange [⟨1⟩, ⟨4⟩])),
    .act (.perform ⟨1⟩ (.tick 1)),
    .act (.perform ⟨4⟩ (.receive ⟨1⟩ (.appendEntries ⟨1, ⟨1⟩, 0, 0,
      [⟨1, .configuration ⟨[⟨1⟩, ⟨4⟩], some [⟨1⟩]⟩⟩], 0⟩))),
    .act (.perform ⟨1⟩ (.receive ⟨4⟩ (.appendEntriesResponse ⟨1, true, 1⟩))),
    .act (.perform ⟨4⟩ (.receive ⟨1⟩ (.appendEntries ⟨1, ⟨1⟩, 1, 1,
      [⟨1, .configuration ⟨[⟨1⟩, ⟨4⟩], none⟩⟩], 1⟩))),
    .act (.perform ⟨4⟩ (.compact 1 [7]))]

/-- What node four keeps is the joint configuration that was in force. -/
theorem joiner_carries_membership : ∃ start now past,
    Cluster.boot [⟨1⟩] [(⟨1⟩, 1, 1)] = .ok start ∧
    Growth Cluster.Orderly start (now :: past) ∧
    ∃ node ∈ now.node ⟨4⟩, ∃ committed : List LogEntry,
      node.snapshotConfig = ⟨[⟨1⟩, ⟨4⟩], some [⟨1⟩]⟩ ∧ committed.length = 1 ∧
      (∀ index entry, index < 1 → (CommittedIn (now :: past) (index + 1) entry ↔
        committed[index]? = some entry)) ∧
      node.snapshotConfig =
        (membership ⟨[⟨1⟩], none⟩).latest ⟨[⟨1⟩], none⟩ committed := by
  obtain ⟨start, now, past, hboot, hrun, node, hnode, hboundary, hconfig⟩ :=
    Growth.of_check Cluster.Orderly [⟨1⟩] [(⟨1⟩, 1, 1)] joinsAndCompacts
      (fun now => ∃ node ∈ now.node ⟨4⟩, node.snapshot.lastIncludedIndex = 1 ∧
        node.snapshotConfig = ⟨[⟨1⟩, ⟨4⟩], some [⟨1⟩]⟩)
      (by decide +kernel)
  obtain ⟨hnodes, -, -⟩ := snapshots_carry_membership hboot hrun
  obtain ⟨-, committed, hlength, hcommitted, hlatest⟩ :=
    hnodes ⟨4⟩ node hnode (hboundary ▸ Nat.one_pos)
  rw [hboundary] at hlength hcommitted
  exact ⟨start, now, past, hboot, hrun, node, hnode, committed, hconfig, hlength,
    hcommitted, hlatest⟩

/-- Node four joins and compacts a command before any configuration reaches
it. Later it is promoted and elected, and brings node five up to date. -/
def compactsUninformed : List Move :=
  [.act (.perform ⟨1⟩ (.tick 1)),
    .act (.perform ⟨1⟩ (.propose [7])),
    .start ⟨4⟩ ⟨[], 2, 1, true⟩,
    .act (.perform ⟨1⟩ (.addLearner ⟨4⟩)),
    .act (.perform ⟨1⟩ (.tick 1)),
    .act (.perform ⟨4⟩ (.receive ⟨1⟩ (.appendEntries ⟨1, ⟨1⟩, 1, 1, [], 1⟩))),
    .act (.perform ⟨1⟩ (.receive ⟨4⟩ (.appendEntriesResponse ⟨1, false, 0⟩))),
    .act (.perform ⟨4⟩ (.receive ⟨1⟩ (.appendEntries ⟨1, ⟨1⟩, 0, 0,
      [⟨1, .command [7]⟩], 1⟩))),
    .act (.perform ⟨4⟩ (.compact 1 [7])),
    .act (.perform ⟨1⟩ (.receive ⟨4⟩ (.appendEntriesResponse ⟨1, true, 1⟩))),
    .act (.perform ⟨1⟩ (.proposeConfigChange [⟨1⟩, ⟨4⟩])),
    .act (.perform ⟨1⟩ (.tick 1)),
    .act (.perform ⟨4⟩ (.receive ⟨1⟩ (.appendEntries ⟨1, ⟨1⟩, 1, 1,
      [⟨1, .configuration ⟨[⟨1⟩, ⟨4⟩], some [⟨1⟩]⟩⟩], 1⟩))),
    .act (.perform ⟨1⟩ (.receive ⟨4⟩ (.appendEntriesResponse ⟨1, true, 2⟩))),
    .act (.perform ⟨4⟩ (.receive ⟨1⟩ (.appendEntries ⟨1, ⟨1⟩, 2, 1,
      [⟨1, .configuration ⟨[⟨1⟩, ⟨4⟩], none⟩⟩], 2⟩))),
    .act (.perform ⟨1⟩ (.receive ⟨4⟩ (.appendEntriesResponse ⟨1, true, 3⟩))),
    .act (.crash ⟨1⟩),
    .act (.restart ⟨1⟩ 9 1),
    .act (.perform ⟨4⟩ (.tick 9)),
    .act (.perform ⟨4⟩ (.tick 9)),
    .act (.perform ⟨1⟩ (.receive ⟨4⟩ (.requestVote ⟨2, ⟨4⟩, 3, 1⟩))),
    .act (.perform ⟨4⟩ (.receive ⟨1⟩ (.requestVoteResponse ⟨2, true⟩))),
    .act (.perform ⟨1⟩ (.receive ⟨4⟩ (.appendEntries ⟨2, ⟨4⟩, 3, 1, [], 2⟩))),
    .start ⟨5⟩ ⟨[], 9, 1, true⟩,
    .act (.perform ⟨4⟩ (.addLearner ⟨5⟩)),
    .act (.perform ⟨4⟩ (.tick 9)),
    .act (.perform ⟨5⟩ (.receive ⟨4⟩ (.appendEntries ⟨2, ⟨4⟩, 3, 1, [], 2⟩))),
    .act (.perform ⟨4⟩ (.receive ⟨5⟩ (.appendEntriesResponse ⟨2, false, 0⟩))),
    .act (.perform ⟨4⟩ (.receive ⟨5⟩ (.appendEntriesResponse ⟨2, false, 0⟩))),
    .act (.perform ⟨4⟩ (.receive ⟨5⟩ (.appendEntriesResponse ⟨2, false, 0⟩)))]

/-- The snapshot of a node that was uninformed when it compacted has no voters,
which no committed log explains, and once it leads it sends it on. -/
theorem uninformed_compaction_loses_the_voters : ∃ start now past,
    Cluster.boot [⟨1⟩] [(⟨1⟩, 1, 1)] = .ok start ∧
    Growth Cluster.Attentive start (now :: past) ∧
    ∃ node ∈ now.node ⟨4⟩, node.role = .leader ∧
      node.snapshot.lastIncludedIndex = 1 ∧ node.snapshotConfig.voters = [] ∧
      (∃ envelope ∈ now.network, ∃ request,
        envelope.message = .installSnapshot request ∧ request.config.voters = []) ∧
      ¬ ∃ committed : List LogEntry,
        committed.length = node.snapshot.lastIncludedIndex ∧
        (∀ index entry, index < node.snapshot.lastIncludedIndex →
          (CommittedIn (now :: past) (index + 1) entry ↔
            committed[index]? = some entry)) ∧
        node.snapshotConfig =
          (membership ⟨[⟨1⟩], none⟩).latest ⟨[⟨1⟩], none⟩ committed := by
  obtain ⟨start, now, past, hboot, hrun, ⟨node, hnode, hrole, hboundary, hconfig⟩,
      ⟨first, hfirst, hcommit, hentry⟩, hsent⟩ :=
    Growth.of_check Cluster.Attentive [⟨1⟩] [(⟨1⟩, 1, 1)] compactsUninformed
      (fun now =>
        (∃ node ∈ now.node ⟨4⟩, node.role = .leader ∧
          node.snapshot.lastIncludedIndex = 1 ∧
          node.snapshotConfig = ⟨[], none⟩) ∧
        (∃ node ∈ now.node ⟨1⟩, 1 ≤ node.commitIndex ∧
          node.entryAt 1 = some ⟨1, .command [7]⟩) ∧
        ⟨⟨4⟩, ⟨5⟩, .installSnapshot ⟨2, ⟨4⟩, 1, 1, [7], ⟨[], none⟩⟩⟩ ∈ now.network)
      (by decide +kernel)
  refine ⟨start, now, past, hboot, hrun, node, hnode, hrole, hboundary,
    by rw [hconfig], ⟨_, hsent, _, rfl, rfl⟩, ?_⟩
  rintro ⟨committed, hlength, hcommitted, hlatest⟩
  have hget := (hcommitted 0 _ (hboundary ▸ Nat.one_pos)).mp
    ⟨now, List.mem_cons_self, ⟨1⟩, first, hfirst, hcommit, hentry⟩
  obtain ⟨entry, rfl⟩ := List.length_eq_one_iff.mp (hlength.trans hboundary)
  obtain rfl := Option.some.inj hget
  rw [hconfig] at hlatest
  cases hlatest

end Kurogane.Sim
