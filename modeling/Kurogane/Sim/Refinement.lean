import Kurogane.Sim.Cluster
import Kurogane.Sim.Commitment

/-!
A cluster refines the protocol. `ClusterRel` relates a cluster to the history
of its run; every action that meets `Guarded` keeps the relation, with a
history that extends the one before. What the protocol guarantees of its
histories therefore holds of the cluster along every guarded run.
-/

namespace Kurogane.Raft.Node

/-- An election is won by voters: what a tick or a granted vote makes the node
count as a majority contains a majority of the voters. -/
def CountsVoters (node : Node) : Operation → Prop
  | .tick _ => node.role ≠ .leader →
      node.electionTimeout ≤ node.electionElapsed + 1 →
      node.currentConfig.isVoter node.id = true →
      node.VotersCounted ((∅ : NodeSet).insert node.id)
  | .receive sender (.requestVoteResponse response) =>
      node.isMember sender = true → response.granted = true →
      response.term = node.currentTerm → node.role = .candidate →
      node.VotersCounted (node.votesGranted.insert sender)
  | _ => True

/-- A change of membership starts after the one before it is over. -/
def ChangesInTurn (node : Node) : Operation → Prop
  | .proposeConfigChange newVoters =>
      node.role = .leader → newVoters ≠ [] → node.NoChangeInFlight
  | _ => True

/-- A snapshot does not move the boundary back. -/
def SnapshotsReach (node : Node) : Operation → Prop
  | .receive _ (.installSnapshot request) => node.SnapshotReaches request
  | _ => True

/-- A request that relies on the membership finds the node informed of it: a
campaign of its current configuration, a compaction of the one at the new
boundary. -/
def KnowsMembership (initial : ClusterConfig) (node : Node) : Operation → Prop
  | .tick _ => node.role ≠ .leader →
      node.electionTimeout ≤ node.electionElapsed + 1 →
      node.currentConfig.isVoter node.id = true → node.Informed initial
  | .compact upToIndex _ => node.snapshot.lastIncludedIndex < upToIndex →
      upToIndex ≤ node.commitIndex → node.KnowsBoundary initial upToIndex
  | _ => True

theorem KnowsStart.knowsMembership {initial : ClusterConfig} {node : Node}
    (hknows : node.KnowsStart initial) (operation : Operation) :
    node.KnowsMembership initial operation := by
  cases operation with
  | tick nextTimeout => exact fun _ _ _ => Or.inl hknows
  | compact upToIndex snapshotData => exact fun _ _ => Or.inl hknows
  | _ => trivial

/-- When serving a request is a sequence of protocol steps. -/
structure Guarded (node : Node) (operation : Operation) : Prop where
  counts : node.CountsVoters operation
  changes : node.ChangesInTurn operation
  snapshots : node.SnapshotsReach operation

instance (node : Node) : DecidablePred node.CountsVoters := fun operation =>
  match operation with
  | .tick _ => inferInstanceAs (Decidable (_ → _))
  | .receive _ (.requestVoteResponse _) => inferInstanceAs (Decidable (_ → _))
  | .receive _ (.requestVote _) | .receive _ (.appendEntries _)
  | .receive _ (.appendEntriesResponse _) | .receive _ (.installSnapshot _)
  | .receive _ (.installSnapshotResponse _) | .propose _
  | .proposeConfigChange _ | .addLearner _ | .removeLearner _
  | .compact _ _ => inferInstanceAs (Decidable True)

instance (node : Node) : DecidablePred node.ChangesInTurn := fun operation =>
  match operation with
  | .proposeConfigChange _ => inferInstanceAs (Decidable (_ → _))
  | .tick _ | .receive _ _ | .propose _ | .addLearner _ | .removeLearner _
  | .compact _ _ => inferInstanceAs (Decidable True)

instance (node : Node) : DecidablePred node.SnapshotsReach := fun operation =>
  match operation with
  | .receive _ (.installSnapshot request) =>
      inferInstanceAs (Decidable (node.SnapshotReaches request))
  | .receive _ (.requestVote _) | .receive _ (.requestVoteResponse _)
  | .receive _ (.appendEntries _) | .receive _ (.appendEntriesResponse _)
  | .receive _ (.installSnapshotResponse _) | .tick _ | .propose _
  | .proposeConfigChange _ | .addLearner _ | .removeLearner _
  | .compact _ _ => inferInstanceAs (Decidable True)

instance (initial : ClusterConfig) (node : Node) :
    DecidablePred (node.KnowsMembership initial) := fun operation =>
  match operation with
  | .tick _ => inferInstanceAs (Decidable (_ → _))
  | .compact _ _ => inferInstanceAs (Decidable (_ → _))
  | .receive _ _ | .propose _ | .proposeConfigChange _ | .addLearner _
  | .removeLearner _ => inferInstanceAs (Decidable True)

instance (node : Node) : DecidablePred node.Guarded := fun operation =>
  decidable_of_iff (node.CountsVoters operation ∧
    node.ChangesInTurn operation ∧ node.SnapshotsReach operation)
    ⟨fun ⟨hcounts, hchanges, hsnapshots⟩ => ⟨hcounts, hchanges, hsnapshots⟩,
      fun hguarded =>
        ⟨hguarded.counts, hguarded.changes, hguarded.snapshots⟩⟩

end Kurogane.Raft.Node

namespace Kurogane.Raft.Node

/-- Without a snapshot a recovered node goes back to the list it is given. -/
theorem recover_knowsStart {node : Node} {id : NodeId} {peers : List NodeId}
    {electionTimeout heartbeatInterval : Nat} {hardState : HardState}
    {log : List LogEntry} {snapshot : Snapshot} {learners : List NodeId}
    (hrecover : recover id peers electionTimeout heartbeatInterval
      hardState log snapshot learners = .ok node) :
    node.KnowsStart ⟨peers, none⟩ := by
  obtain ⟨-, -, -, -, -, hdurable, -⟩ := recover_ok hrecover
  have hmetadata : node.snapshot = snapshot.metadata :=
    congrArg (fun d : Durable => d.snapshot.metadata) hdurable
  have hconfig : node.snapshotConfig =
      if snapshot.metadata.lastIncludedIndex > 0 then snapshot.config
      else ⟨peers, none⟩ :=
    congrArg (fun d : Durable => d.snapshot.config) hdurable
  unfold KnowsStart
  rw [hmetadata, hconfig]
  split
  · rename_i hpos
    exact Or.inl hpos
  · exact Or.inr rfl

end Kurogane.Raft.Node

namespace Kurogane.Sim

open Kurogane.Raft Kurogane.Runtime Kurogane.Consensus

variable {initial : ClusterConfig} {h : Ghost} {node node' : Node}
  {effects : List Effect}

/-! ### One request -/

theorem receive_simulates (s : h.Sound (membership initial))
    (hrel : NodeRel initial h node) {sender : NodeId} {message : Message}
    (hguard : node.Guarded (.receive sender message))
    (hmessage : MessageRel initial h sender node.id message)
    (hstep : node.step (.step sender message) = some (node', effects)) :
    ∃ h', Simulates initial h node effects h' node' := by
  have hignored : some (node, []) = some (node', effects) →
      ∃ h', Simulates initial h node effects h' node' := by
    intro heq
    cases heq
    exact ⟨h, .refl hrel⟩
  cases message with
  | requestVote request =>
      simp only [Node.step] at hstep
      split at hstep
      · exact hignored hstep
      split at hstep
      · exact hignored hstep
      · rename_i hcandidate
        exact onRequestVote_simulates s hrel hmessage
          (by simpa using hcandidate) hstep
  | requestVoteResponse response =>
      simp only [Node.step] at hstep
      split at hstep
      · exact hignored hstep
      · rename_i hmember
        exact onRequestVoteResponse_simulates s hrel hmessage
          (hguard.counts (by simpa using hmember)) hstep
  | appendEntries request =>
      simp only [Node.step] at hstep
      split at hstep
      · exact hignored hstep
      · rename_i hleader
        exact onAppendEntries_simulates s hrel hmessage
          (by simpa using hleader) hstep
  | appendEntriesResponse response =>
      simp only [Node.step] at hstep
      split at hstep
      · exact hignored hstep
      · exact onAppendEntriesResponse_simulates s hrel hmessage hstep
  | installSnapshot request =>
      simp only [Node.step] at hstep
      split at hstep
      · exact hignored hstep
      · rename_i hleader
        exact onInstallSnapshot_simulates s hrel hmessage
          (by simpa using hleader) hguard.snapshots hstep
  | installSnapshotResponse response =>
      simp only [Node.step] at hstep
      split at hstep
      · exact hignored hstep
      · exact onInstallSnapshotResponse_simulates s hrel hmessage hstep

/-- Serving a guarded request is a sequence of protocol steps. -/
theorem perform_simulates (s : h.Sound (membership initial))
    (hrel : NodeRel initial h node) {operation : Operation}
    (hguard : node.Guarded operation)
    (hknows : node.KnowsMembership initial operation)
    (hmessage : ∀ sender message, operation = .receive sender message →
      MessageRel initial h sender node.id message)
    (hperform : node.perform operation = some (node', effects)) :
    ∃ h', Simulates initial h node effects h' node' := by
  cases operation with
  | tick nextTimeout => exact onTick_simulates s hrel hknows hguard.counts hperform
  | receive sender message =>
      exact receive_simulates s hrel hguard (hmessage sender message rfl)
        hperform
  | propose command =>
      obtain ⟨answer, hanswer, hperform⟩ := Option.bind_eq_some_iff.mp hperform
      rcases answer with _ | ⟨last, index, rest⟩
      · cases hperform
        exact ⟨h, .refl hrel⟩
      · cases hperform
        exact propose_simulates s hrel hanswer
  | proposeConfigChange newVoters =>
      obtain ⟨answer, hanswer, hperform⟩ := Option.bind_eq_some_iff.mp hperform
      rcases answer with _ | ⟨last, index, rest⟩
      · cases hperform
        exact ⟨h, .refl hrel⟩
      · cases hperform
        exact proposeConfigChange_simulates s hrel hguard.changes hanswer
  | addLearner id =>
      obtain rfl := congrArg Prod.fst (Option.some.inj hperform)
      obtain rfl := congrArg Prod.snd (Option.some.inj hperform)
      refine ⟨h, learners_simulates hrel ?_ (node.addLearner_persists id) ?_⟩
      · unfold Node.addLearner
        split
        · exact hrel
        · refine ⟨⟨hrel.term, hrel.durable.voted, hrel.durable.boundary,
            hrel.durable.log, hrel.durable.snapshotTerm,
            hrel.durable.snapshotConfig⟩, hrel.commit, hrel.informed,
            hrel.config, hrel.candidate, fun hrole => ?_⟩
          obtain ⟨helected, hlog, hnext, hmatched⟩ := hrel.leader hrole
          refine ⟨helected, hlog, fun peer next hpeer => ?_,
            fun peer count hpeer => ?_⟩
          · have hpeer : (node.nextIndex.insertIfNew id
                (node.lastLogIndex + 1))[peer]? = some next := hpeer
            rw [Std.ExtTreeMap.getElem?_insertIfNew] at hpeer
            split at hpeer
            · cases hpeer
              exact Nat.succ_pos _
            · exact hnext peer next hpeer
          · have hpeer : (node.matchIndex.insertIfNew id 0)[peer]? =
                some count := hpeer
            rw [Std.ExtTreeMap.getElem?_insertIfNew] at hpeer
            split at hpeer
            · cases hpeer
              exact ⟨Nat.zero_le _, Or.inr (Or.inl List.take_zero)⟩
            · exact hmatched peer count hpeer
      · unfold Node.addLearner
        split <;> simp
  | removeLearner id =>
      obtain rfl := congrArg Prod.fst (Option.some.inj hperform)
      obtain rfl := congrArg Prod.snd (Option.some.inj hperform)
      refine ⟨h, learners_simulates hrel ?_ (node.removeLearner_persists id) ?_⟩
      · unfold Node.removeLearner
        split
        · exact hrel
        · exact ⟨⟨hrel.term, hrel.durable.voted, hrel.durable.boundary,
            hrel.durable.log, hrel.durable.snapshotTerm,
            hrel.durable.snapshotConfig⟩, hrel.commit, hrel.informed,
            hrel.config, hrel.candidate, hrel.leader⟩
      · unfold Node.removeLearner
        split <;> simp
  | compact upToIndex snapshotData =>
      obtain ⟨answer, hanswer, hperform⟩ := Option.bind_eq_some_iff.mp hperform
      rcases answer with _ | ⟨last, rest⟩
      · cases hperform
        exact ⟨h, .refl hrel⟩
      · cases hperform
        exact compact_simulates s hrel hknows hanswer

/-! ### Recovery -/

/-- A node rebuilt from storage stands for what the storage does, once its
commit index counts as being back at the boundary. -/
theorem recovered_rel {peers : List NodeId} {id : NodeId}
    (storage : Storage) {durable : Durable}
    (hmirrors : storage.Mirrors durable)
    (hrel : DurableRel initial h id durable)
    (hback : h.commit id = durable.boundary)
    {electionTimeout heartbeatInterval : Nat}
    (hrecover : Node.recover id peers electionTimeout heartbeatInterval
      storage.hardState storage.log
      ⟨storage.snapshot, storage.snapshotData, storage.snapshotConfig⟩
      storage.learners = .ok node) :
    NodeRel initial h node ∧ node.id = id ∧ storage.Mirrors node.durable := by
  obtain ⟨-, rfl, hrole, -, hcommit, hdurable, hconfig⟩ := Node.recover_ok hrecover
  have hboundary : node.snapshot.lastIncludedIndex = durable.boundary := by
    have := congrArg Durable.boundary hdurable
    exact this.trans (congrArg SnapshotMetadata.lastIncludedIndex
      hmirrors.snapshot)
  have hterm : node.currentTerm = storage.hardState.currentTerm :=
    congrArg (fun d : Durable => d.hardState.currentTerm) hdurable
  have hvoted : node.votedFor = storage.hardState.votedFor :=
    congrArg (fun d : Durable => d.hardState.votedFor) hdurable
  have hlog : node.log = storage.log :=
    congrArg (fun d : Durable => d.log) hdurable
  have hmetadata : node.snapshot = storage.snapshot :=
    congrArg (fun d : Durable => d.snapshot.metadata) hdurable
  have hsnapshotConfig : node.snapshotConfig =
      if storage.snapshot.lastIncludedIndex > 0 then storage.snapshotConfig
      else ⟨peers, none⟩ :=
    congrArg (fun d : Durable => d.snapshot.config) hdurable
  refine ⟨⟨⟨?_, ?_, ?_, ?_, ?_, ?_⟩, ?_, fun hactive => absurd hrole hactive,
    hconfig, ?_, ?_⟩, rfl, ?_⟩
  · exact hrel.term.trans ((congrArg HardState.currentTerm
      hmirrors.hardState.symm).trans hterm.symm)
  · intro c
    have hc := hrel.voted c
    rw [← hmirrors.hardState, ← hterm, ← hvoted] at hc
    exact hc
  · show node.snapshot.lastIncludedIndex ≤ h.commit node.id
    rw [hback, hboundary]
  · show node.log = (h.log node.id).drop node.snapshot.lastIncludedIndex
    rw [hlog, hmirrors.log, hrel.log, hboundary]
  · show node.snapshot.lastIncludedTerm = _
    rw [hmetadata, hmirrors.snapshot, hrel.snapshotTerm, ← hboundary]
    rfl
  · intro hpos
    have hpos : 0 < node.snapshot.lastIncludedIndex := hpos
    show node.snapshotConfig = (membership initial).latest initial
      ((h.log node.id).take node.snapshot.lastIncludedIndex)
    rw [hsnapshotConfig, if_pos (hmetadata ▸ hpos), hmirrors.snapshotConfig
      (hboundary ▸ hpos), hrel.snapshotConfig (hboundary ▸ hpos), hboundary]
  · rw [hback, hcommit, ← hmetadata, hboundary]
  · intro hcandidate
    rw [hrole] at hcandidate
    cases hcandidate
  · intro hleader
    rw [hrole] at hleader
    cases hleader
  · rw [hdurable]
    refine ⟨rfl, rfl, rfl, rfl, fun hpos => ?_, rfl⟩
    exact (if_pos hpos).symm

/-- A node started by `new_learner` over an empty storage. -/
theorem newLearner_rel {id : NodeId} (hrel : DurableRel initial h id
      ⟨.default, [], .default, ∅⟩)
    (hback : h.commit id = 0) {electionTimeout heartbeatInterval : Nat}
    (hnew : Node.newLearner id electionTimeout heartbeatInterval = .ok node) :
    NodeRel initial h node ∧ node.id = id := by
  unfold Node.newLearner at hnew
  split at hnew
  · cases hnew
  split at hnew
  · cases hnew
  split at hnew
  · cases hnew
  cases hnew
  exact ⟨⟨⟨hrel.term, hrel.voted, hrel.boundary, hrel.log, hrel.snapshotTerm,
    fun hpos => absurd hpos (lt_irrefl 0)⟩, hback, fun hactive => absurd rfl hactive,
    rfl, nofun, nofun⟩, rfl⟩

/-- Going back to the boundary is the step a recovery takes. -/
theorem settle_boundary {id : NodeId} {durable : Durable}
    (s : h.Sound (membership initial)) (hrel : DurableRel initial h id durable) :
    ∃ h', History.Step (membership initial) id h h' ∧
      DurableRel initial h' id durable ∧ h'.commit id = durable.boundary := by
  have hsettle := History.Step.settle (R := membership initial)
    durable.boundary (hrel.boundary.trans (s.node_commit id))
    ((s.node_covered id).shorten (List.take_prefix_take_left hrel.boundary))
  have hself : Function.update h.commit id durable.boundary id =
      durable.boundary := Function.update_self _ _ _
  exact ⟨_, hsettle, ⟨hrel.term, hrel.voted, hself.ge, hrel.log,
    hrel.snapshotTerm, hrel.snapshotConfig⟩, hself⟩

/-! ### What a storage keeps -/

/-- `durable` with other bytes in its snapshot and other learners. -/
def withExtras (durable : Durable) (data : Bytes) (learners : NodeSet) : Durable :=
  { durable with snapshot := { durable.snapshot with data }, learners }

/-- `storage` holds `durable` but for the bytes of the snapshot and the
learners. The protocol looks at neither, and `new_learner` forgets both. -/
def Backs (storage : Storage) (durable : Durable) : Prop :=
  ∃ data learners, storage.Mirrors (withExtras durable data learners)

theorem record_withExtras {durable durable' : Durable} {effect : Effect}
    (hrecord : durable.record effect = some durable') (data : Bytes)
    (learners : NodeSet) :
    ∃ data' learners', (withExtras durable data learners).record effect =
      some (withExtras durable' data' learners') := by
  cases effect with
  | send receiver message =>
      cases hrecord
      exact ⟨data, learners, rfl⟩
  | persistHardState term votedFor =>
      cases hrecord
      exact ⟨data, learners, rfl⟩
  | persistLog fromIndex entries =>
      simp only [Durable.record, Option.ite_none_left_eq_some] at hrecord
      obtain ⟨hfrom, hrecord⟩ := hrecord
      cases hrecord
      exact ⟨data, learners, if_neg hfrom⟩
  | persistSnapshot lastIncludedIndex lastIncludedTerm data' config =>
      cases hrecord
      exact ⟨data', learners, rfl⟩
  | persistLearners learners' =>
      cases hrecord
      exact ⟨data, .ofList learners', rfl⟩

theorem recordAll_withExtras {durable durable' : Durable} {effects : List Effect}
    (hrecord : durable.recordAll effects = some durable') (data : Bytes)
    (learners : NodeSet) :
    ∃ data' learners', (withExtras durable data learners).recordAll effects =
      some (withExtras durable' data' learners') := by
  induction effects generalizing durable data learners with
  | nil =>
      cases hrecord
      exact ⟨data, learners, rfl⟩
  | cons effect rest ih =>
      rw [Durable.recordAll_cons] at hrecord
      obtain ⟨next, hnext, hrest⟩ := Option.bind_eq_some_iff.mp hrecord
      obtain ⟨data₁, learners₁, h₁⟩ := record_withExtras hnext data learners
      obtain ⟨data₂, learners₂, h₂⟩ := ih hrest data₁ learners₁
      exact ⟨data₂, learners₂, by rw [Durable.recordAll_cons, h₁]; exact h₂⟩

theorem Backs.of_mirrors {storage : Storage} {durable : Durable}
    (hmirrors : storage.Mirrors durable) : Backs storage durable :=
  ⟨durable.snapshot.data, durable.learners, hmirrors⟩

theorem Backs.applyAll {storage : Storage} {durable durable' : Durable}
    (h : Backs storage durable) {effects : List Effect}
    (hrecord : durable.recordAll effects = some durable') :
    ∃ storage', storage.applyAll effects = some storage' ∧
      Backs storage' durable' := by
  obtain ⟨data, learners, hmirrors⟩ := h
  obtain ⟨data', learners', hall⟩ := recordAll_withExtras hrecord data learners
  obtain ⟨storage', happly, hmirrors'⟩ := hmirrors.applyAll hall
  exact ⟨storage', happly, data', learners', hmirrors'⟩

theorem DurableRel.withExtras {id : NodeId} {durable : Durable}
    (hrel : DurableRel initial h id durable) (data : Bytes) (learners : NodeSet) :
    DurableRel initial h id (withExtras durable data learners) :=
  ⟨hrel.term, hrel.voted, hrel.boundary, hrel.log, hrel.snapshotTerm,
    hrel.snapshotConfig⟩

/-! ### The cluster -/

namespace Cluster

/-- A crash inside a batch does not separate a snapshot from its splice. -/
def CrashesSettled (cluster : Cluster) : Action → Prop
  | .interrupt id operation written => cluster.delivers id operation = true →
      ∀ node ∈ cluster.node id, ∀ result ∈ node.perform operation,
        Settled (result.2.take written)
  | _ => True

/-- When an action is a sequence of protocol steps. -/
structure Guarded (cluster : Cluster) (action : Action) : Prop where
  serving : cluster.Serving Node.Guarded action
  crashes : cluster.CrashesSettled action

instance (cluster : Cluster) : DecidablePred cluster.CrashesSettled :=
  fun action =>
    match action with
    | .interrupt _ _ _ => inferInstanceAs (Decidable (_ → _))
    | .perform _ _ | .crash _ | .restart _ _ _ =>
        inferInstanceAs (Decidable True)

instance (cluster : Cluster) : DecidablePred cluster.Guarded := fun action =>
  decidable_of_iff (cluster.Serving Node.Guarded action ∧
    cluster.CrashesSettled action)
    ⟨fun ⟨hserving, hcrashes⟩ => ⟨hserving, hcrashes⟩,
      fun hguarded => ⟨hguarded.serving, hguarded.crashes⟩⟩

end Cluster

/-- The storage stands for what the server must have kept, and so does the
running node. -/
structure ServerRel (initial : ClusterConfig) (h : Ghost) (id : NodeId)
    (server : Server) : Prop where
  storage : ∃ durable, Backs server.storage durable ∧
    DurableRel initial h id durable
  node : ∀ node, server.node = some node → node.id = id ∧
    NodeRel initial h node ∧ Backs server.storage node.durable

structure ClusterRel (cluster : Cluster) (h : Ghost) : Prop where
  sound : h.Sound (membership ⟨cluster.peers, none⟩)
  servers : ∀ (id : NodeId) (server : Server),
    cluster.servers[id]? = some server →
      ServerRel ⟨cluster.peers, none⟩ h id server
  network : ∀ envelope ∈ cluster.network, MessageRel ⟨cluster.peers, none⟩ h
    envelope.sender envelope.receiver envelope.message

/-- A cluster all of whose members started with the bootstrap voters. -/
structure Founded (cluster : Cluster) (h : Ghost) : Prop
    extends ClusterRel cluster h where
  members : ∀ (id : NodeId) (server : Server),
    cluster.servers[id]? = some server → id ∈ cluster.peers
  voters : ∀ a ∈ h.votes, a.voter ∈ cluster.peers
  starts : ∀ (id : NodeId) (node : Node), cluster.node id = some node →
    node.KnowsStart ⟨cluster.peers, none⟩

theorem ServerRel.of_node (hrel : NodeRel initial h node) {id : NodeId}
    (hid : node.id = id) {storage : Storage}
    (hbacks : Backs storage node.durable) :
    ServerRel initial h id ⟨some node, storage⟩ where
  storage := ⟨node.durable, hbacks, hid ▸ hrel.durable⟩
  node other hother := by
    cases hother
    exact ⟨hid, hrel, hbacks⟩

theorem ServerRel.stopped {id : NodeId} {storage : Storage} {durable : Durable}
    (hbacks : Backs storage durable)
    (hrel : DurableRel initial h id durable) :
    ServerRel initial h id ⟨none, storage⟩ where
  storage := ⟨durable, hbacks, hrel⟩
  node _ hother := by cases hother

theorem ServerRel.unmoved {id : NodeId} {server : Server} {h' : Ghost}
    (hrel : ServerRel initial h id server) (ext : h.Extends h')
    (hsame : Unmoved h h' id) : ServerRel initial h' id server where
  storage := by
    obtain ⟨durable, hbacks, hdurable⟩ := hrel.storage
    exact ⟨durable, hbacks, hdurable.unmoved ext hsame⟩
  node node hnode := by
    obtain ⟨hid, hnodeRel, hbacks⟩ := hrel.node node hnode
    exact ⟨hid, hnodeRel.unmoved ext (hid ▸ hsame), hbacks⟩

theorem mem_sent {id : NodeId} {effects : List Effect} {envelope : Envelope}
    (hmem : envelope ∈ sent id effects) : envelope.sender = id ∧
      .send envelope.receiver envelope.message ∈ effects := by
  obtain ⟨effect, heffect, henvelope⟩ := List.mem_filterMap.mp hmem
  cases effect <;> simp only [reduceCtorEq, Option.some.injEq] at henvelope
  subst henvelope
  exact ⟨rfl, heffect⟩

namespace ClusterRel

variable {cluster cluster' : Cluster}

/-- Replacing one server by what the protocol made of it. -/
theorem update (hrel : ClusterRel cluster h) {id : NodeId} {h' : Ghost}
    {server' : Server}
    (hsteps : History.Steps (membership ⟨cluster.peers, none⟩) id h h')
    (hserver : ServerRel ⟨cluster.peers, none⟩ h' id server')
    (hsent : ∀ receiver message, .send receiver message ∈ effects →
      MessageRel ⟨cluster.peers, none⟩ h' id receiver message) :
    ClusterRel (cluster.update id server' effects) h' where
  sound := hsteps.sound hrel.sound
  servers other found hfound := by
    rw [Cluster.servers_update, Std.ExtTreeMap.getElem?_insert] at hfound
    split at hfound
    · rename_i heq
      obtain rfl := Std.LawfulEqCmp.eq_of_compare heq
      cases hfound
      exact hserver
    · rename_i hne
      refine (hrel.servers other found hfound).unmoved hsteps.extends
        (unmoved_of_frame hsteps.frame ?_)
      rintro rfl
      exact hne Std.ReflCmp.compare_self
  network envelope hmem := by
    rcases List.mem_append.mp hmem with hmem | hmem
    · exact (hrel.network envelope hmem).extends hsteps.extends
    · obtain ⟨hsender, heffect⟩ := mem_sent hmem
      exact hsender ▸ hsent _ _ heffect

theorem of_node (hrel : ClusterRel cluster h) {id : NodeId}
    {node : Node} (hnode : cluster.node id = some node) :
    node.id = id ∧ NodeRel ⟨cluster.peers, none⟩ h node := by
  obtain ⟨server, hserver, hnode⟩ := Option.bind_eq_some_iff.mp hnode
  obtain ⟨hid, hnodeRel, -⟩ := (hrel.servers id server hserver).node node hnode
  exact ⟨hid, hnodeRel⟩

/-- A message that was sent claims something true of its receiver's run. -/
theorem delivered (hrel : ClusterRel cluster h) {id : NodeId}
    {operation : Operation} (hdelivers : cluster.delivers id operation = true)
    (sender : NodeId) (message : Message)
    (hreceive : operation = .receive sender message) :
    MessageRel ⟨cluster.peers, none⟩ h sender id message := by
  subst hreceive
  have hmem : (⟨sender, id, message⟩ : Envelope) ∈ cluster.network := by
    simpa [Cluster.delivers] using hdelivers
  exact hrel.network _ hmem

/-- A guarded action of nodes informed as far as they rely on the membership
keeps the relation, by steps of the server it is about. -/
theorem step (hrel : ClusterRel cluster h) {action : Action}
    (hguard : cluster.Guarded action)
    (hknows : cluster.Serving (Node.KnowsMembership ⟨cluster.peers, none⟩) action)
    (hstep : cluster.step action = some cluster') :
    ∃ h' id server server' effects, ClusterRel cluster' h' ∧
      History.Steps (membership ⟨cluster.peers, none⟩) id h h' ∧
      cluster.servers[id]? = some server ∧
      cluster' = cluster.update id server' effects := by
  cases action with
  | perform id operation =>
      obtain ⟨server, node, node', effects, storage, hserver, hnode, hdelivers,
        hperform, happly, rfl⟩ := Cluster.step_perform hstep
      obtain ⟨rfl, hnodeRel, hbacks⟩ :=
        (hrel.servers id server hserver).node node hnode
      have hfound := Cluster.node_of_server hserver hnode
      obtain ⟨h', hsim⟩ := perform_simulates hrel.sound hnodeRel
        (hguard.serving hdelivers node hfound) (hknows hdelivers node hfound)
        (hrel.delivered hdelivers) hperform
      obtain ⟨storage', happly', hbacks'⟩ := hbacks.applyAll hsim.recorded
      obtain rfl : storage = storage' :=
        Option.some.inj (happly.symm.trans happly')
      exact ⟨h', _, server, _, _, hrel.update hsim.steps
        (.of_node hsim.rel hsim.id hbacks') hsim.sent, hsim.steps, hserver, rfl⟩
  | interrupt id operation written =>
      obtain ⟨server, node, node', effects, storage, hserver, hnode, hdelivers,
        hperform, happly, rfl⟩ := Cluster.step_interrupt hstep
      obtain ⟨rfl, hnodeRel, hbacks⟩ :=
        (hrel.servers id server hserver).node node hnode
      have hfound := Cluster.node_of_server hserver hnode
      obtain ⟨h', hsim⟩ := perform_simulates hrel.sound hnodeRel
        (hguard.serving hdelivers node hfound) (hknows hdelivers node hfound)
        (hrel.delivered hdelivers) hperform
      obtain ⟨durable, hdurable⟩ :=
        Durable.recordAll_take hsim.recorded written
      obtain ⟨h'', hsteps, hdurableRel, hsent⟩ :=
        hsim.crash written durable
          (hguard.crashes hdelivers node hfound _ hperform) hdurable
      obtain ⟨storage', happly', hbacks'⟩ := hbacks.applyAll hdurable
      obtain rfl : storage = storage' :=
        Option.some.inj (happly.symm.trans happly')
      exact ⟨h'', _, server, _, _, hrel.update hsteps
        (.stopped hbacks' hdurableRel) hsent, hsteps, hserver, rfl⟩
  | crash id =>
      obtain ⟨server, hserver, rfl⟩ := Cluster.step_crash hstep
      obtain ⟨durable, hbacks, hdurable⟩ :=
        (hrel.servers id server hserver).storage
      exact ⟨h, id, server, _, _, hrel.update .refl (.stopped hbacks hdurable)
        (by simp), .refl, hserver, rfl⟩
  | restart id electionTimeout heartbeatInterval =>
      obtain ⟨server, node, hserver, hrecover, rfl⟩ :=
        Cluster.step_restart hstep
      obtain ⟨durable, ⟨_, _, hbacks⟩, hdurable⟩ :=
        (hrel.servers id server hserver).storage
      obtain ⟨h', hsettle, hdurable', hback⟩ := settle_boundary hrel.sound hdurable
      obtain ⟨hnodeRel, hid, hbacks'⟩ :=
        recovered_rel server.storage hbacks
          (hdurable'.withExtras _ _) hback hrecover
      have hsteps := Relation.ReflTransGen.single hsettle
      exact ⟨h', id, server, _, _, hrel.update hsteps
        (.of_node hnodeRel hid (.of_mirrors hbacks')) (by simp), hsteps, hserver, rfl⟩

end ClusterRel

namespace Founded

variable {cluster cluster' : Cluster}

/-- Every node goes back to the bootstrap voters or to a snapshot. -/
theorem knows (hrel : Founded cluster h) (action : Action) :
    cluster.Serving (Node.KnowsMembership ⟨cluster.peers, none⟩) action := by
  cases action with
  | perform id operation =>
      exact fun _ node hnode => (hrel.starts id node hnode).knowsMembership operation
  | interrupt id operation written =>
      exact fun _ node hnode => (hrel.starts id node hnode).knowsMembership operation
  | crash id => trivial
  | restart id electionTimeout heartbeatInterval => trivial

theorem starts_update (hrel : Founded cluster h) {id : NodeId} {server : Server}
    (hnew : ∀ node ∈ server.node, node.KnowsStart ⟨cluster.peers, none⟩)
    (effects : List Effect) (other : NodeId) (node : Node)
    (hnode : (cluster.update id server effects).node other = some node) :
    node.KnowsStart ⟨cluster.peers, none⟩ := by
  rw [Cluster.node, Cluster.servers_update, Std.ExtTreeMap.getElem?_insert] at hnode
  split at hnode
  · exact hnew node hnode
  · exact hrel.starts other node hnode

theorem starts_step (hrel : Founded cluster h) {action : Action}
    (hstep : cluster.step action = some cluster') (other : NodeId) (node : Node)
    (hnode : cluster'.node other = some node) :
    node.KnowsStart ⟨cluster.peers, none⟩ := by
  cases action with
  | perform id operation =>
      obtain ⟨server, old, node', effects, storage, hserver, hold, hdelivers,
        hperform, -, rfl⟩ := Cluster.step_perform hstep
      refine hrel.starts_update (fun new hnew => ?_) effects other node hnode
      cases hnew
      have hstart := hrel.starts id old (Cluster.node_of_server hserver hold)
      rcases Node.perform_boundary hperform with ⟨hsnapshot, hconfig⟩ | hmoves
      · unfold Node.KnowsStart
        rw [hsnapshot, hconfig]
        exact hstart
      · refine Or.inl ?_
        cases hmoves with
        | compact hlow _ hboundary => omega
        | install _ hboundary _ =>
            obtain ⟨-, hpos, -⟩ := hrel.delivered hdelivers _ _ rfl
            omega
  | interrupt id operation written =>
      obtain ⟨server, old, node', effects, storage, -, -, -, -, -, rfl⟩ :=
        Cluster.step_interrupt hstep
      exact hrel.starts_update (by simp) _ other node hnode
  | crash id =>
      obtain ⟨server, -, rfl⟩ := Cluster.step_crash hstep
      exact hrel.starts_update (by simp) _ other node hnode
  | restart id electionTimeout heartbeatInterval =>
      obtain ⟨server, new, -, hrecover, rfl⟩ := Cluster.step_restart hstep
      refine hrel.starts_update (fun found hfound => ?_) _ other node hnode
      cases hfound
      exact Node.recover_knowsStart hrecover

/-- A guarded action is a sequence of steps of one server. -/
theorem step_by (hrel : Founded cluster h) {action : Action}
    (hguard : cluster.Guarded action)
    (hstep : cluster.step action = some cluster') :
    ∃ h' id, Founded cluster' h' ∧
      History.Steps (membership ⟨cluster.peers, none⟩) id h h' ∧
      cluster'.peers = cluster.peers := by
  have hstarts := hrel.starts_step hstep
  obtain ⟨h', id, server, server', effects, hrel', hsteps, hserver, rfl⟩ :=
    hrel.toClusterRel.step hguard (hrel.knows action) hstep
  refine ⟨h', id, ⟨hrel', ?_, ?_, hstarts⟩, hsteps, rfl⟩
  · intro other found hfound
    rw [Cluster.servers_update, Std.ExtTreeMap.getElem?_insert] at hfound
    split at hfound
    · rename_i heq
      obtain rfl := Std.LawfulEqCmp.eq_of_compare heq
      exact hrel.members id server hserver
    · exact hrel.members other found hfound
  · intro a ha
    by_cases hvoter : a.voter = id
    · rw [hvoter]
      exact hrel.members id server hserver
    · exact hrel.voters a (hsteps.frame.votes a ha hvoter)

theorem step (hrel : Founded cluster h) {action : Action}
    (hguard : cluster.Guarded action)
    (hstep : cluster.step action = some cluster') :
    ∃ h', Founded cluster' h' ∧ h.Extends h' ∧ cluster'.peers = cluster.peers := by
  obtain ⟨h', id, hrel', hsteps, hpeers⟩ := hrel.step_by hguard hstep
  exact ⟨h', hrel', hsteps.extends, hpeers⟩

/-- Along a guarded run the history only grows. -/
theorem run (hrel : Founded cluster h) {ok : Cluster → Action → Prop}
    (hok : ∀ c a, ok c a → c.Guarded a) (hrun : Run ok cluster cluster') :
    ∃ h', Founded cluster' h' ∧ h.Extends h' ∧
      cluster'.peers = cluster.peers := by
  induction hrun with
  | refl => exact ⟨h, hrel, .refl h, rfl⟩
  | tail _ hlast ih =>
      obtain ⟨middle, hmiddle, hext, hpeers⟩ := ih
      obtain ⟨action, hguard, hstep⟩ := hlast
      obtain ⟨last, hlastRel, hext', hpeers'⟩ :=
        hmiddle.step (hok _ _ hguard) hstep
      exact ⟨last, hlastRel, hext.trans hext', hpeers'.trans hpeers⟩

end Founded

/-! ### The start -/

theorem fresh_rel (id : NodeId) : DurableRel initial
    (History.empty NodeId LogEntry) id ⟨.default, [], .default, ∅⟩ where
  term := rfl
  voted c := by
    constructor
    · intro hvote
      cases hvote
    · rintro ⟨a, ha, -⟩
      exact ha.elim
  boundary := le_rfl
  log := rfl
  snapshotTerm := rfl
  snapshotConfig hpos := absurd hpos (lt_irrefl 0)

/-- A cluster that has just been started has no history. -/
theorem boot_rel {peers : List NodeId} {members : List (NodeId × Nat × Nat)}
    {cluster : Cluster} (hboot : Cluster.boot peers members = .ok cluster) :
    Founded cluster (.empty NodeId LogEntry) := by
  obtain ⟨rfl, hnetwork, hservers⟩ := Cluster.boot_ok hboot
  refine ⟨⟨History.empty_sound, ?_, ?_⟩, ?_, fun a ha => ha.elim, ?_⟩
  · intro id server hserver
    obtain ⟨node, electionTimeout, heartbeatInterval, rfl, hnew⟩ :=
      hservers id server hserver
    obtain ⟨hrel, hid, hmirrors⟩ := recovered_rel .fresh
      ⟨rfl, rfl, rfl, rfl, fun _ => rfl, rfl⟩ (fresh_rel id) rfl hnew
    exact .of_node hrel hid (.of_mirrors hmirrors)
  · intro envelope hmem
    rw [hnetwork] at hmem
    cases hmem
  · intro id server hserver
    obtain ⟨node, electionTimeout, heartbeatInterval, rfl, hnew⟩ :=
      hservers id server hserver
    exact (Node.recover_ok hnew).1
  · intro id node hnode
    obtain ⟨server, hserver, hnode⟩ := Option.bind_eq_some_iff.mp hnode
    obtain ⟨first, electionTimeout, heartbeatInterval, rfl, hnew⟩ :=
      hservers id server hserver
    cases hnode
    exact Node.recover_knowsStart hnew

end Kurogane.Sim
