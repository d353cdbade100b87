import Kurogane.Sim.Exclusion

/-!
The learners of every server over runs of a cluster. A learner is dropped by the
leader that promotes it and by no other server that lists it. The sets stay apart
as long as a leader adds nobody whom a configuration names that may still come
into force, and a learner is listed by the leader alone that promotes it.
-/

namespace Kurogane.Raft

/-- An entry or a snapshot of the message, beyond `limit`, names `peer`. -/
def Message.NamesBeyond (limit : Nat) (peer : NodeId) : Message → Prop
  | .appendEntries request =>
      ∃ entry ∈ request.entries.drop (limit - request.prevLogIndex), Sim.Names peer entry
  | .installSnapshot request =>
      limit < request.lastIncludedIndex ∧ request.config.isVoter peer = true
  | _ => False

instance (limit : Nat) (peer : NodeId) : DecidablePred (Message.NamesBeyond limit peer) :=
  fun message =>
    match message with
    | .appendEntries _ => inferInstanceAs (Decidable (∃ _ ∈ _, _))
    | .installSnapshot _ => inferInstanceAs (Decidable (_ ∧ _))
    | .requestVote _ | .requestVoteResponse _ | .appendEntriesResponse _
    | .installSnapshotResponse _ => inferInstanceAs (Decidable False)

end Kurogane.Raft

namespace Kurogane.Runtime

open Kurogane.Raft

/-- An entry or a snapshot that is stored, beyond `limit`, names `peer`. -/
def Storage.NamesBeyond (storage : Storage) (limit : Nat) (peer : NodeId) : Prop :=
  (∃ entry ∈ storage.log.drop (limit - storage.snapshot.lastIncludedIndex),
      Sim.Names peer entry) ∨
    limit < storage.snapshot.lastIncludedIndex ∧
      storage.snapshotConfig.isVoter peer = true

instance (storage : Storage) (limit : Nat) (peer : NodeId) :
    Decidable (storage.NamesBeyond limit peer) :=
  inferInstanceAs (Decidable (_ ∨ _))

/-- Without a snapshot, the members a process falls back to are none of its stored
learners but those the cluster was founded with. -/
def Storage.FallsBackTo (storage : Storage) (peers members : List NodeId) : Prop :=
  storage.snapshot.lastIncludedIndex = 0 →
    ∀ peer ∈ storage.learners, peer ∈ members → peer ∈ peers

instance (storage : Storage) (peers members : List NodeId) :
    Decidable (storage.FallsBackTo peers members) :=
  inferInstanceAs (Decidable (_ → _))

end Kurogane.Runtime

namespace Kurogane.Sim

open Kurogane.Raft Kurogane.Runtime Kurogane.Consensus

/-- The server `id` is asked to add `peer` to its learners. -/
def Move.Adds (id peer : NodeId) (move : Move) : Prop :=
  move = .act (.perform id (.addLearner peer)) ∨
    ∃ written, move = .act (.interrupt id (.addLearner peer) written)

namespace Cluster

variable {cluster : Cluster} {limit index : Nat} {peer : NodeId}

/-- Something beyond `limit`, stored or on its way, names `peer`. -/
def NamesBeyond (cluster : Cluster) (limit : Nat) (peer : NodeId) : Prop :=
  (∃ entry ∈ cluster.servers.toList, entry.2.storage.NamesBeyond limit peer) ∨
    ∃ envelope ∈ cluster.network, envelope.message.NamesBeyond limit peer

instance (cluster : Cluster) (limit : Nat) (peer : NodeId) :
    Decidable (cluster.NamesBeyond limit peer) :=
  inferInstanceAs (Decidable (_ ∨ _))

/-- A leader adds none to its learners who votes in the configuration it has
committed, or in one beyond that. -/
def AddsOutsider (cluster : Cluster) (id peer : NodeId) : Prop :=
  ∀ node ∈ cluster.node id, node.role = .leader →
    node.currentConfig.isVoter peer = false → peer ∉ node.learners →
      node.committedConfig.isVoter peer = false ∧
        ¬ cluster.NamesBeyond node.commitIndex peer

/-- No server but `id` lists one of `voters` among its learners. -/
def ListedOnlyBy (cluster : Cluster) (id : NodeId) (voters : List NodeId) : Prop :=
  ∀ entry ∈ cluster.servers.toList, entry.1 ≠ id →
    ∀ voter ∈ voters, voter ∉ entry.2.storage.learners

/-- A leader promotes no learner of another server. -/
def PromotesOwn (cluster : Cluster) (id : NodeId) (newVoters : List NodeId) : Prop :=
  ∀ node ∈ cluster.node id, node.role = .leader → cluster.ListedOnlyBy id newVoters

/-- When a move leaves learners and voters apart. -/
def Spares (cluster : Cluster) : Move → Prop
  | .act (.perform id (.addLearner peer))
  | .act (.interrupt id (.addLearner peer) _) => cluster.AddsOutsider id peer
  | .act (.perform id (.proposeConfigChange newVoters))
  | .act (.interrupt id (.proposeConfigChange newVoters) _) =>
      cluster.PromotesOwn id newVoters
  | .start id environment =>
      (cluster.storageOf id).FallsBackTo cluster.peers environment.memberIds
  | _ => True

/-- When a move is orderly and leaves learners and voters apart. -/
def Careful (cluster : Cluster) (move : Move) : Prop :=
  cluster.Orderly move ∧ cluster.Spares move

instance (cluster : Cluster) (id peer : NodeId) :
    Decidable (cluster.AddsOutsider id peer) :=
  inferInstanceAs (Decidable (∀ _ ∈ _, _))

instance (cluster : Cluster) (id : NodeId) (voters : List NodeId) :
    Decidable (cluster.ListedOnlyBy id voters) :=
  inferInstanceAs (Decidable (∀ entry ∈ cluster.servers.toList, _))

instance (cluster : Cluster) (id : NodeId) (newVoters : List NodeId) :
    Decidable (cluster.PromotesOwn id newVoters) :=
  inferInstanceAs (Decidable (∀ _ ∈ _, _))

instance (cluster : Cluster) : DecidablePred cluster.Spares := fun move =>
  match move with
  | .act (.perform _ (.addLearner _)) | .act (.interrupt _ (.addLearner _) _) =>
      inferInstanceAs (Decidable (AddsOutsider _ _ _))
  | .act (.perform _ (.proposeConfigChange _))
  | .act (.interrupt _ (.proposeConfigChange _) _) =>
      inferInstanceAs (Decidable (PromotesOwn _ _ _))
  | .start _ _ => inferInstanceAs (Decidable (Storage.FallsBackTo _ _ _))
  | .act (.perform _ (.tick _)) | .act (.perform _ (.receive _ _))
  | .act (.perform _ (.propose _)) | .act (.perform _ (.removeLearner _))
  | .act (.perform _ (.compact _ _)) | .act (.interrupt _ (.tick _) _)
  | .act (.interrupt _ (.receive _ _) _) | .act (.interrupt _ (.propose _) _)
  | .act (.interrupt _ (.removeLearner _) _) | .act (.interrupt _ (.compact _ _) _)
  | .act (.crash _) | .act (.restart _ _ _) => inferInstanceAs (Decidable True)

instance (cluster : Cluster) : DecidablePred cluster.Careful := fun _ =>
  inferInstanceAs (Decidable (_ ∧ _))

theorem storageOf_cases (cluster : Cluster) (id : NodeId) :
    cluster.storageOf id = .fresh ∨
      ∃ server, (id, server) ∈ cluster.servers.toList ∧
        cluster.storageOf id = server.storage := by
  cases hserver : cluster.servers[id]? with
  | none =>
      refine Or.inl ?_
      rw [storageOf, hserver]
      rfl
  | some server =>
      exact Or.inr ⟨server, Std.ExtTreeMap.mem_toList_iff_getElem?_eq_some.mpr hserver,
        storageOf_server hserver⟩

theorem ListedOnlyBy.out {id other voter : NodeId} {voters : List NodeId}
    (h : cluster.ListedOnlyBy id voters) (hother : other ≠ id) (hvoter : voter ∈ voters) :
    voter ∉ (cluster.storageOf other).learners := by
  rcases cluster.storageOf_cases other with hfresh | ⟨server, hmem, hstored⟩
  · rw [hfresh]
    exact List.not_mem_nil
  · rw [hstored]
    exact h _ hmem hother voter hvoter

theorem mem_drop {entries : List LogEntry} {place count : Nat} {entry : LogEntry}
    (hentry : entries[place]? = some entry) (hcount : count ≤ place) :
    entry ∈ entries.drop count := by
  refine List.mem_of_getElem? (i := place - count) ?_
  rw [List.getElem?_drop, Nat.add_sub_cancel' hcount]
  exact hentry

/-- What names `peer` is not shown beyond `limit`. -/
theorem not_names_of_shows (h : ¬ cluster.NamesBeyond limit peer) {entry : LogEntry}
    (hindex : limit < index) (hshows : cluster.Shows index entry) : ¬ Names peer entry := by
  intro hnames
  apply h
  rcases hshows with ⟨other, hlow, hentry⟩ | ⟨envelope, hmem, hsent⟩
  · rcases cluster.storageOf_cases other with hfresh | ⟨server, hserver, hstored⟩
    · rw [hfresh] at hentry
      cases hentry
    · rw [hstored] at hlow hentry
      refine Or.inl ⟨_, hserver, Or.inl ⟨entry, mem_drop hentry ?_, hnames⟩⟩
      dsimp only
      omega
  · refine Or.inr ⟨envelope, hmem, ?_⟩
    cases hbody : envelope.message with
    | appendEntries request =>
        rw [hbody] at hsent
        obtain ⟨hlow, hentry⟩ := hsent
        exact ⟨entry, mem_drop hentry (by omega), hnames⟩
    | _ =>
        rw [hbody] at hsent
        exact hsent.elim

theorem not_names_of_rests (h : ¬ cluster.NamesBeyond limit peer) {config : ClusterConfig}
    (hindex : limit < index) (hrests : cluster.Rests index config) :
    config.isVoter peer = false := by
  by_contra hvotes
  rw [Bool.not_eq_false] at hvotes
  apply h
  rcases hrests with ⟨other, hpos, rfl, rfl⟩ | ⟨-, envelope, hmem, hsent⟩
  · rcases cluster.storageOf_cases other with hfresh | ⟨server, hserver, hstored⟩
    · rw [hfresh] at hpos
      cases hpos
    · rw [hstored] at hindex hvotes
      exact Or.inl ⟨_, hserver, Or.inr ⟨hindex, hvotes⟩⟩
  · refine Or.inr ⟨envelope, hmem, ?_⟩
    cases hbody : envelope.message with
    | installSnapshot request =>
        rw [hbody] at hsent
        obtain ⟨rfl, rfl⟩ := hsent
        exact ⟨hindex, hvotes⟩
    | _ =>
        rw [hbody] at hsent
        exact hsent.elim

end Cluster

/-! ### What moves keep -/

variable {h h' : Ghost} {cluster cluster' : Cluster} {id peer : NodeId}
  {node node' : Node} {effects : List Effect}

/-- A started process lists the learners that are stored, unless it joins. -/
theorem startUp_learners {environment : Environment} {storage : Storage}
    (hstart : startUp id environment storage = .ok node) :
    Std.ExtTreeSet.ofList storage.learners = node.learners ∨
      storage.hardState = .default ∧ node.learners = ∅ := by
  unfold startUp at hstart
  split at hstart
  · rename_i hjoins
    simp only [Bool.and_eq_true, Storage.isFresh, decide_eq_true_eq] at hjoins
    obtain ⟨-, -, hdurable⟩ := Node.newLearner_ok hstart
    exact Or.inr ⟨hjoins.2.1.1, congrArg Durable.learners hdurable⟩
  · obtain ⟨-, -, -, -, -, hdurable, -⟩ := Node.recover_ok hstart
    exact Or.inl (congrArg Durable.learners hdurable).symm

/-- Without a snapshot it falls back to the members it has been given. -/
theorem startUp_fallback {environment : Environment} {storage : Storage}
    (hstart : startUp id environment storage = .ok node)
    (hboundary : node.snapshot.lastIncludedIndex = 0)
    (hvotes : node.snapshotConfig.isVoter peer = true) :
    storage.snapshot.lastIncludedIndex = 0 ∧ peer ∈ environment.memberIds := by
  have hsame := startUp_boundary hstart
  rw [hboundary] at hsame
  refine ⟨hsame.symm, ?_⟩
  unfold startUp at hstart
  split at hstart
  · obtain ⟨-, -, hdurable⟩ := Node.newLearner_ok hstart
    have hconfig : node.snapshotConfig = ⟨[], none⟩ :=
      congrArg (fun d : Durable => d.snapshot.config) hdurable
    rw [hconfig] at hvotes
    cases hvotes
  · obtain ⟨-, -, -, -, -, hdurable, -⟩ := Node.recover_ok hstart
    have hconfig : node.snapshotConfig = if storage.snapshot.lastIncludedIndex > 0 then
        storage.snapshotConfig else ⟨environment.memberIds, none⟩ :=
      congrArg (fun d : Durable => d.snapshot.config) hdurable
    rw [if_neg (by omega)] at hconfig
    rw [hconfig] at hvotes
    simpa [ClusterConfig.isVoter] using hvotes

/-- A growing cluster that bars every server from the configurations of those
that list it. -/
structure Watched (cluster : Cluster) (h : Ghost) : Prop extends Grown cluster h where
  running : ∀ id node, cluster.node id = some node →
    Std.ExtTreeSet.ofList (cluster.storageOf id).learners = node.learners
  begun : ∀ id, ∀ peer ∈ (cluster.storageOf id).learners, 0 < h.term id
  barred : ∀ id, ∀ peer ∈ (cluster.storageOf id).learners,
    ∃ settled, Bars cluster h id peer settled

theorem boot_watched {peers : List NodeId} {members : List (NodeId × Nat × Nat)}
    (hboot : Cluster.boot peers members = .ok cluster) :
    Watched cluster (.empty NodeId LogEntry) := by
  obtain ⟨-, -, hservers⟩ := Cluster.boot_ok hboot
  have hfresh : ∀ id, cluster.storageOf id = .fresh := by
    intro id
    cases hserver : cluster.servers[id]? with
    | none =>
        rw [Cluster.storageOf, hserver]
        rfl
    | some server =>
        obtain ⟨node, electionTimeout, heartbeatInterval, rfl, -⟩ :=
          hservers id server hserver
        exact Cluster.storageOf_server hserver
  refine ⟨boot_grown hboot, ?_, ?_, ?_⟩
  · intro id node hnode
    obtain ⟨server, hserver, hrunning⟩ := Option.bind_eq_some_iff.mp hnode
    obtain ⟨first, electionTimeout, heartbeatInterval, rfl, hnew⟩ :=
      hservers id server hserver
    cases hrunning
    obtain ⟨-, -, -, -, -, hdurable, -⟩ := Node.recover_ok hnew
    rw [hfresh]
    exact (congrArg Durable.learners hdurable).symm
  · intro id peer hlisted
    rw [hfresh] at hlisted
    cases hlisted
  · intro id peer hlisted
    rw [hfresh] at hlisted
    cases hlisted

namespace Bars

variable {settled : List LogEntry}

/-- A founding voter that is barred has been replaced in what is committed. -/
theorem configs_ne_nil (hbars : Bars cluster h id peer settled)
    (hpeer : peer ∈ cluster.peers) :
    (membership ⟨cluster.peers, none⟩).configs settled ≠ [] := by
  intro hnone
  have hout := hbars.latest
  rw [Rules.latest_of_configs_nil _ _ _ hnone] at hout
  simp [ClusterConfig.isVoter, hpeer] at hout

end Bars

namespace Watched

/-- Stopping or starting a process leaves all stored learners barred. -/
theorem idle (hwatched : Watched cluster h) {last : Option Node}
    (hrel' : Grown (cluster.update id ⟨last, cluster.storageOf id⟩ []) h')
    (ext : h.Extends h') (hkeeps : h.Keeps h')
    (hlists : ∀ node ∈ last,
      Std.ExtTreeSet.ofList (cluster.storageOf id).learners = node.learners)
    (hfallback : ∀ node ∈ last, node.snapshot.lastIncludedIndex = 0 →
      ∀ peer ∈ (cluster.storageOf id).learners,
        node.snapshotConfig.isVoter peer = true → peer ∈ cluster.peers) :
    Watched (cluster.update id ⟨last, cluster.storageOf id⟩ []) h' := by
  have hstored : ∀ other, (cluster.update id ⟨last, cluster.storageOf id⟩ []).storageOf
      other = cluster.storageOf other := by
    intro other
    rw [Cluster.storageOf_update]
    split
    · rename_i heq
      rw [heq]
    · rfl
  refine ⟨hrel', ?_, ?_, ?_⟩
  · intro other node hnode
    rw [hstored]
    rw [Cluster.node_update] at hnode
    split at hnode
    · rename_i heq
      rw [heq]
      exact hlists node hnode
    · exact hwatched.running other node hnode
  · intro other peer hlisted
    rw [hstored] at hlisted
    exact (hwatched.begun other peer hlisted).trans_le (ext.term other)
  · intro other peer hlisted
    rw [hstored] at hlisted
    obtain ⟨settled, hbars⟩ := hwatched.barred other peer hlisted
    refine ⟨settled, hbars.move hwatched.toGrown hrel' ext hkeeps rfl ?_ ?_ ?_⟩
    · intro index entry hshows _
      rcases Cluster.shows_update hshows with hold | hsame | ⟨effect, hmem, -⟩
      · exact Or.inl hold
      · exact Or.inl (Or.inl ⟨id, hsame⟩)
      · cases hmem
    · intro index config hrests
      rcases Cluster.rests_update hrests with hold | hsame | ⟨-, effect, hmem, -⟩
      · exact Or.inl hold
      · exact Or.inl (Or.inl ⟨id, hsame⟩)
      · cases hmem
    · intro node hnode hboundary hvotes
      rw [Option.mem_def, Cluster.node_update] at hnode
      split at hnode
      · rename_i heq
        subst heq
        exact hbars.configs_ne_nil (hfallback node hnode hboundary peer hlisted hvotes)
      · exact hbars.fallback node hnode hboundary hvotes

variable {operation : Operation} {written : Nat} {storage : Storage} {last : Option Node}

/-- A served request leaves a server where it falls back to, or with a snapshot. -/
theorem fallback (hwatched : Watched cluster h)
    (hserves : cluster.Serves id operation written node node' effects storage)
    (hboundary : node'.snapshot.lastIncludedIndex = 0) :
    node.snapshot.lastIncludedIndex = 0 ∧ node'.snapshotConfig = node.snapshotConfig := by
  rcases Node.perform_base hserves.performs with ⟨hsnapshot, hconfig⟩ |
    ⟨sender, message, rfl, hsent⟩ | ⟨upToIndex, data, rfl, hlow, -, hindex, -⟩
  · exact ⟨hsnapshot ▸ hboundary, hconfig⟩
  · cases message with
    | installSnapshot request =>
        obtain ⟨-, hpos, -⟩ := hwatched.delivered hserves.delivers sender _ rfl
        have hindex := hsent.1
        omega
    | _ => exact hsent.elim
  · omega

/-- Whom a server lists after serving a request, another leader cannot propose,
and it has not proposed itself. -/
theorem keepsOut (hwatched : Watched cluster h)
    (hserves : cluster.Serves id operation written node node' effects storage)
    (hwritten : effects ≠ [] → 0 < written)
    (hpromotes : ∀ newVoters, operation = .proposeConfigChange newVoters →
      cluster.PromotesOwn id newVoters)
    {other : NodeId}
    (hlisted : peer ∈ ((cluster.update id ⟨last, storage⟩
      (effects.take written)).storageOf other).learners) :
    KeepsOut cluster (cluster.update id ⟨last, storage⟩ (effects.take written)) peer := by
  intro index entry hshows hnames
  rcases hserves.shows hwatched.toGrown hshows with hold | hown
  · exact Or.inl hold
  refine Or.inr ⟨id, node, hserves.running, hown.role, hown.beyond, hown.term, ?_⟩
  obtain ⟨config, hconfig, hvotes⟩ := hnames
  have hpayload : entry.payload = .configuration config := by
    unfold entryConfig at hconfig
    split at hconfig
    · rename_i found hfound
      rw [hfound]
      exact congrArg _ (Option.some.inj hconfig)
    · cases hconfig
  rcases hown.voters config hpayload peer hvotes with hcurrent | ⟨newVoters, rfl, hnew⟩
  · exact hcurrent
  · exfalso
    rw [Cluster.storageOf_update] at hlisted
    split at hlisted
    · exact Storage.served_drops (hwatched.running id node hserves.running) hown.role
        hserves.performs hwritten hserves.applies hnew hlisted
    · rename_i hother
      exact (hpromotes newVoters rfl node hserves.running hown.role).out hother hnew hlisted

/-- A server lists learners after serving a request only if it has begun a term. -/
theorem listed_begun (hwatched : Watched cluster h)
    (hserves : cluster.Serves id operation written node node' effects storage)
    (hlisted : peer ∈ storage.learners) : 0 < h.term id := by
  by_cases hold : peer ∈ (cluster.storageOf id).learners
  · exact hwatched.begun id peer hold
  obtain ⟨-, hrole, -⟩ := Storage.served_adds
    (hwatched.running id node hserves.running) hserves.performs hserves.applies hlisted hold
  obtain ⟨rfl, hnodeRel, -⟩ := hwatched.of_running hserves.running
  rw [hnodeRel.term]
  exact hwatched.sound.elected_positive (hnodeRel.leader hrole).1

/-- Whom it lists then is barred already: it was listed before, or a leader adds
it whose committed configuration leaves it out. -/
theorem listed_barred (hwatched : Watched cluster h)
    (hserves : cluster.Serves id operation written node node' effects storage)
    (hadds : ∀ peer, operation = .addLearner peer → cluster.AddsOutsider id peer)
    (hlisted : peer ∈ storage.learners) : ∃ settled, Bars cluster h id peer settled := by
  by_cases hold : peer ∈ (cluster.storageOf id).learners
  · exact hwatched.barred id peer hold
  have hlists := hwatched.running id node hserves.running
  obtain ⟨rfl, hrole, hvotes⟩ := Storage.served_adds hlists hserves.performs
    hserves.applies hlisted hold
  have hnew : peer ∉ node.learners := fun hmem =>
    hold ((Storage.mem_learners_iff hlists).mp hmem)
  obtain ⟨hcommitted, hnone⟩ := hadds peer rfl node hserves.running hrole hvotes hnew
  exact ⟨_, .of_leader hwatched.toGrown hserves.running hrole hcommitted
    (fun _ _ hbeyond hshows => Cluster.not_names_of_shows hnone hbeyond hshows)
    (fun _ _ hbeyond hrests => Cluster.not_names_of_rests hnone hbeyond hrests)⟩

/-- Serving a request, all or as far as it has been executed, leaves all stored
learners barred. -/
theorem served (hwatched : Watched cluster h)
    (hserves : cluster.Serves id operation written node node' effects storage)
    (hwritten : effects ≠ [] → 0 < written)
    (hrel' : Grown (cluster.update id ⟨last, storage⟩ (effects.take written)) h')
    (ext : h.Extends h') (hkeeps : h.Keeps h')
    (hlast : effects.length = written ∧ last = some node' ∨ last = none)
    (hadds : ∀ peer, operation = .addLearner peer → cluster.AddsOutsider id peer)
    (hpromotes : ∀ newVoters, operation = .proposeConfigChange newVoters →
      cluster.PromotesOwn id newVoters) :
    Watched (cluster.update id ⟨last, storage⟩ (effects.take written)) h' := by
  have hlists := hwatched.running id node hserves.running
  obtain ⟨-, hnodeRel, hbacks⟩ := hwatched.of_running hserves.running
  refine ⟨hrel', ?_, ?_, ?_⟩
  · intro other found hfound
    rw [Cluster.storageOf_update]
    rw [Cluster.node_update] at hfound
    split at hfound
    · rename_i heq
      rw [if_pos heq]
      rcases hlast with ⟨rfl, rfl⟩ | rfl
      · cases hfound
        have happlies := hserves.applies
        rw [List.take_length] at happlies
        have hdurable : Std.ExtTreeSet.ofList (cluster.storageOf id).learners =
          node.durable.learners := hlists
        exact Storage.lists_applyAll hdurable happlies
          (node.perform_writeAhead hserves.performs).recorded
      · cases hfound
    · rename_i hother
      rw [if_neg hother]
      exact hwatched.running other found hfound
  · intro other peer hlisted
    refine lt_of_lt_of_le ?_ (ext.term other)
    rw [Cluster.storageOf_update] at hlisted
    split at hlisted
    · rename_i heq
      rw [heq]
      exact hwatched.listed_begun hserves hlisted
    · exact hwatched.begun other peer hlisted
  · intro other peer hlisted
    obtain ⟨settled, hbars⟩ : ∃ settled, Bars cluster h other peer settled := by
      rw [Cluster.storageOf_update] at hlisted
      split at hlisted
      · rename_i heq
        rw [heq]
        exact hwatched.listed_barred hserves hadds hlisted
      · exact hwatched.barred other peer hlisted
    refine ⟨settled, hbars.move hwatched.toGrown hrel' ext hkeeps rfl
      (hwatched.keepsOut hserves hwritten hpromotes hlisted) ?_ ?_⟩
    · intro index config hrests
      rcases hserves.rests hwatched.toGrown hrests with hold | hnew
      · exact Or.inl hold
      · exact Or.inr ⟨id, node, hserves.running, hnew⟩
    · intro found hfound hboundary hvotes
      rw [Option.mem_def, Cluster.node_update] at hfound
      split at hfound
      · rename_i heq
        subst heq
        rcases hlast with ⟨-, rfl⟩ | rfl
        · cases hfound
          obtain ⟨hzero, hsame⟩ := hwatched.fallback hserves hboundary
          exact hbars.fallback node hserves.running hzero (hsame ▸ hvotes)
        · cases hfound
      · exact hbars.fallback found hfound hboundary hvotes

/-- A process starts with the learners that are stored: one that joins has none. -/
theorem started_lists (hwatched : Watched cluster h) {environment : Environment}
    (hstart : startUp id environment (cluster.storageOf id) = .ok node) :
    Std.ExtTreeSet.ofList (cluster.storageOf id).learners = node.learners := by
  rcases startUp_learners hstart with hsame | ⟨hfresh, hnone⟩
  · exact hsame
  obtain ⟨durable, hbacks, hdurable⟩ := hwatched.storage id
  obtain ⟨data, learners, hmirrors⟩ := hbacks
  have hempty : (cluster.storageOf id).learners = [] := by
    rw [List.eq_nil_iff_forall_not_mem]
    intro peer hlisted
    have hbegun := hwatched.begun id peer hlisted
    have hterm : (cluster.storageOf id).hardState = durable.hardState := hmirrors.hardState
    rw [hdurable.term, ← hterm, hfresh] at hbegun
    exact absurd hbegun (lt_irrefl 0)
  rw [hempty, hnone]
  rfl

/-- One careful move leaves all stored learners barred. -/
theorem move (hwatched : Watched cluster h) {move : Move} (hok : cluster.Careful move)
    (hmove : cluster.move move = some cluster') :
    ∃ h', Watched cluster' h' ∧ ∀ id, ∀ peer ∈ (cluster'.storageOf id).learners,
      peer ∈ (cluster.storageOf id).learners ∨ move.Adds id peer := by
  obtain ⟨h', owner, hrel', hsteps, hpeers⟩ := hwatched.toGrown.move_by hok.1 hmove
  have ext := hsteps.extends
  have hkeeps := hsteps.keeps hwatched.sound
  rcases Cluster.move_cases hok.1 hmove with ⟨id, last, rfl, hstarts⟩ |
    ⟨id, operation, written, node, node', effects, storage, last, hserves, rfl, hkind⟩
  · refine ⟨h', hwatched.idle hrel' ext hkeeps ?_ ?_, ?_⟩
    · intro node hnode
      obtain ⟨environment, hstart, -⟩ := hstarts node hnode
      exact hwatched.started_lists hstart
    · intro node hnode hboundary peer hlisted hvotes
      obtain ⟨environment, hstart, hfound⟩ := hstarts node hnode
      obtain ⟨hzero, hmember⟩ := startUp_fallback hstart hboundary hvotes
      rcases hfound with rfl | hpeers
      · exact hok.2 hzero peer hlisted hmember
      · exact hpeers ▸ hmember
    · intro other peer hlisted
      rw [Cluster.storageOf_update] at hlisted
      split at hlisted
      · rename_i heq
        rw [heq]
        exact Or.inl hlisted
      · exact Or.inl hlisted
  · refine ⟨h', hwatched.served hserves ?_ hrel' ext hkeeps ?_ ?_ ?_, ?_⟩
    · rcases hkind with ⟨-, rfl, -⟩ | ⟨-, hpos, -⟩
      · exact List.length_pos_of_ne_nil
      · exact fun _ => hpos
    · rcases hkind with ⟨-, hlength, rfl⟩ | ⟨-, -, rfl⟩
      · exact Or.inl ⟨hlength, rfl⟩
      · exact Or.inr rfl
    · rintro peer rfl
      rcases hkind with ⟨rfl, -⟩ | ⟨rfl, -⟩ <;> exact hok.2
    · rintro newVoters rfl
      rcases hkind with ⟨rfl, -⟩ | ⟨rfl, -⟩ <;> exact hok.2
    · intro other peer hlisted
      rw [Cluster.storageOf_update] at hlisted
      split at hlisted
      · rename_i heq
        rw [heq]
        refine (Storage.served_lists (hwatched.running id node hserves.running)
          hserves.performs hserves.applies hlisted).imp_right ?_
        rintro rfl
        rcases hkind with ⟨rfl, -⟩ | ⟨rfl, -⟩
        · exact Or.inl rfl
        · exact Or.inr ⟨written, rfl⟩
      · exact Or.inl hlisted

end Watched

/-! ### Runs -/

/-- A careful cluster stays watched, and a server that is not asked to add `peer`
does not list it if it did not. -/
theorem Watched.run {start : Cluster} {ok : Cluster → Move → Prop}
    (hok : ∀ c m, ok c m → c.Careful m) {states : List Cluster}
    (hrun : Growth ok start states) (h : ∃ h, Watched start h)
    (barred : NodeId → NodeId → Prop)
    (hadds : ∀ c m, ok c m → ∀ id peer, m.Adds id peer → ¬ barred id peer)
    (hstart : ∀ id, ∀ peer ∈ (start.storageOf id).learners, ¬ barred id peer) :
    ∀ cluster ∈ states.head?, (∃ h, Watched cluster h) ∧
      ∀ id, ∀ peer ∈ (cluster.storageOf id).learners, ¬ barred id peer := by
  refine hrun.invariant (fun states => ∀ cluster ∈ states.head?, (∃ h, Watched cluster h) ∧
    ∀ id, ∀ peer ∈ (cluster.storageOf id).learners, ¬ barred id peer) ?_ ?_
  · rintro cluster hcluster
    cases hcluster
    exact ⟨h, hstart⟩
  · intro now past move next hinvariant hallowed hmove last hlast
    cases hlast
    obtain ⟨⟨h, hwatched⟩, hout⟩ := hinvariant now rfl
    obtain ⟨h', hwatched', hlists⟩ := hwatched.move (hok now move hallowed) hmove
    refine ⟨⟨h', hwatched'⟩, fun id peer hlisted => ?_⟩
    rcases hlists id peer hlisted with hold | hnew
    · exact hout id peer hold
    · exact hadds now move hallowed id peer hnew

/-- A node that runs has its learners apart. -/
theorem Watched.apart (hwatched : Watched cluster h) (hnode : cluster.node id = some node) :
    node.Apart := by
  intro peer hmem
  have hlists := hwatched.running id node hnode
  obtain ⟨settled, hbars⟩ := hwatched.barred id peer
    ((Storage.mem_learners_iff hlists).mp hmem)
  exact hbars.current hwatched.toGrown hnode

namespace Cluster

/-- From here on, unless `id` is asked to add `peer` to its learners, its node
takes `peer` for a member only while its configuration names it. -/
def Forgets (cluster : Cluster) (id peer : NodeId) : Prop :=
  ∀ later past, Growth (fun c m => c.Careful m ∧ ¬ m.Adds id peer) cluster (later :: past) →
    ∀ node ∈ later.node id, node.currentConfig.isVoter peer = false →
      node.isMember peer = false ∧ peer ∉ node.replicationTargets

/-- A server that does not list `peer` forgets it. -/
theorem forgets_of_unlisted (hwatched : Watched cluster h)
    (hunlisted : peer ∉ (cluster.storageOf id).learners) : cluster.Forgets id peer := by
  intro later past hrun node hnode hvoter
  obtain ⟨⟨h', hwatched'⟩, hout⟩ := Watched.run (fun _ _ hok => hok.1) hrun ⟨h, hwatched⟩
    (fun i p => i = id ∧ p = peer)
    (by rintro c m hok i p hadds ⟨rfl, rfl⟩; exact hok.2 hadds)
    (by rintro i p hlisted ⟨rfl, rfl⟩; exact hunlisted hlisted) later rfl
  have hlists := hwatched'.running id node hnode
  have hout : peer ∉ node.learners := fun hmem =>
    hout id peer ((Storage.mem_learners_iff hlists).mp hmem) ⟨rfl, rfl⟩
  constructor
  · simp only [Node.isMember, hvoter, Bool.false_or]
    exact Bool.eq_false_iff.mpr hout
  · intro htarget
    rcases (Node.mem_replicationTargets.mp htarget).1 with hnamed | hlisted
    · rw [hvoter] at hnamed
      cases hnamed
    · exact hout hlisted

/-- A server whose own configuration names `peer` does not list it. -/
theorem forgets_of_voter (hwatched : Watched cluster h)
    (hnode : cluster.node id = some node)
    (hvoter : node.currentConfig.isVoter peer = true) : cluster.Forgets id peer := by
  refine forgets_of_unlisted hwatched (fun hlisted => ?_)
  have hout := hwatched.apart hnode peer
    ((Storage.mem_learners_iff (hwatched.running id node hnode)).mpr hlisted)
  rw [hvoter] at hout
  cases hout

/-- Once a leader has promoted `peer`, which no other server lists, none does. -/
theorem forgets_of_promotion (hwatched : Watched cluster h) {leader : NodeId}
    {newVoters : List NodeId} (hnode : cluster.node leader = some node)
    (hrole : node.role = .leader)
    (hok : cluster.Careful (.act (.perform leader (.proposeConfigChange newVoters))))
    (hmove : cluster.move (.act (.perform leader (.proposeConfigChange newVoters))) =
      some cluster') (hpeer : peer ∈ newVoters) : cluster'.Forgets id peer := by
  obtain ⟨h', hwatched', hlists⟩ := hwatched.move hok hmove
  refine forgets_of_unlisted hwatched' (fun hlisted => ?_)
  by_cases hother : id = leader
  · subst hother
    obtain ⟨server, node₁, node', effects, storage, hserver, hnode₁, -, hperform, happly,
      rfl⟩ := step_perform hmove
    obtain rfl := Option.some.inj ((node_of_server hserver hnode₁).symm.trans hnode)
    rw [storageOf_update, if_pos rfl] at hlisted
    rw [← List.take_length (l := effects), ← storageOf_server hserver] at happly
    exact Storage.served_drops (hwatched.running id node₁ hnode) hrole hperform
      List.length_pos_of_ne_nil happly hpeer hlisted
  · rcases hlists id peer hlisted with hold | hadds
    · exact (hok.2 node hnode hrole).out hother hpeer hold
    · rcases hadds with hadds | ⟨written, hadds⟩ <;> cases hadds

end Cluster

/-- While a leader adds nobody whom a configuration names that may still come
into force, and only the server that lists a learner promotes it, no learner votes
anywhere. A promoted server that leaves the configuration is no member any more,
on any server. -/
theorem learners_stay_apart {peers : List NodeId} {members : List (NodeId × Nat × Nat)}
    {start now : Cluster} {past : List Cluster}
    (hboot : Cluster.boot peers members = .ok start)
    (hrun : Growth Cluster.Careful start (now :: past)) :
    (∀ id, ∀ node ∈ now.node id, node.Apart) ∧
      (∀ id, ∀ node ∈ now.node id, ∀ peer, node.currentConfig.isVoter peer = true →
        now.Forgets id peer) ∧
      ∀ leader newVoters next, (∃ node ∈ now.node leader, node.role = .leader) →
        now.Careful (.act (.perform leader (.proposeConfigChange newVoters))) →
        now.move (.act (.perform leader (.proposeConfigChange newVoters))) = some next →
        ∀ peer ∈ newVoters, ∀ id, next.Forgets id peer := by
  obtain ⟨⟨h, hwatched⟩, -⟩ := Watched.run (fun _ _ hok => hok) hrun
    ⟨_, boot_watched hboot⟩ (fun _ _ => False) (fun _ _ _ _ _ _ hfalse => hfalse)
    (fun _ _ _ hfalse => hfalse) now rfl
  refine ⟨?_, ?_, ?_⟩
  · exact fun id node hnode => hwatched.apart hnode
  · exact fun id node hnode peer hvoter => Cluster.forgets_of_voter hwatched hnode hvoter
  · rintro leader newVoters next ⟨node, hnode, hrole⟩ hok hmove peer hpeer id
    exact Cluster.forgets_of_promotion hwatched hnode hrole hok hmove hpeer

/-- Node four joins a cluster of one and is promoted. -/
def joinsAndVotes : List Move :=
  [.act (.perform ⟨1⟩ (.tick 1)),
    .start ⟨4⟩ ⟨[], 9, 1, true⟩,
    .act (.perform ⟨1⟩ (.addLearner ⟨4⟩)),
    .act (.perform ⟨1⟩ (.proposeConfigChange [⟨1⟩, ⟨4⟩]))]

theorem promoted_learner_is_forgotten : ∃ start now past,
    Cluster.boot [⟨1⟩] [(⟨1⟩, 1, 1)] = .ok start ∧
      Growth Cluster.Careful start (now :: past) ∧
      (∃ node ∈ now.node ⟨1⟩, node.currentConfig.isVoter ⟨4⟩ = true ∧ node.Apart) ∧
      now.Forgets ⟨1⟩ ⟨4⟩ := by
  obtain ⟨start, now, past, hboot, hrun, node, hnode, hvoter⟩ :=
    Growth.of_check Cluster.Careful [⟨1⟩] [(⟨1⟩, 1, 1)] joinsAndVotes
      (fun now => ∃ node ∈ now.node ⟨1⟩, node.currentConfig.isVoter ⟨4⟩ = true)
      (by decide +kernel)
  obtain ⟨hapart, hforgets, -⟩ := learners_stay_apart hboot hrun
  exact ⟨start, now, past, hboot, hrun, ⟨node, hnode, hvoter, hapart ⟨1⟩ node hnode⟩,
    hforgets ⟨1⟩ node hnode ⟨4⟩ hvoter⟩

/-- Node one adds node four to its learners and loses the lead to node two, which
promotes it. -/
def promotesElsewhere : List Move :=
  [.act (.perform ⟨1⟩ (.tick 9)),
    .act (.perform ⟨2⟩ (.receive ⟨1⟩ (.requestVote ⟨1, ⟨1⟩, 0, 0⟩))),
    .act (.perform ⟨1⟩ (.receive ⟨2⟩ (.requestVoteResponse ⟨1, true⟩))),
    .act (.perform ⟨1⟩ (.addLearner ⟨4⟩)),
    .act (.crash ⟨1⟩),
    .act (.restart ⟨1⟩ 9 1),
    .act (.perform ⟨2⟩ (.tick 9)),
    .act (.perform ⟨1⟩ (.receive ⟨2⟩ (.requestVote ⟨2, ⟨2⟩, 0, 0⟩))),
    .act (.perform ⟨2⟩ (.receive ⟨1⟩ (.requestVoteResponse ⟨2, true⟩))),
    .act (.perform ⟨2⟩ (.addLearner ⟨4⟩)),
    .act (.perform ⟨2⟩ (.proposeConfigChange [⟨1⟩, ⟨2⟩, ⟨4⟩])),
    .act (.perform ⟨2⟩ (.tick 9)),
    .act (.perform ⟨1⟩ (.receive ⟨2⟩ (.appendEntries ⟨2, ⟨2⟩, 0, 0,
      [⟨2, .configuration ⟨[⟨1⟩, ⟨2⟩, ⟨4⟩], some [⟨1⟩, ⟨2⟩]⟩⟩], 0⟩)))]

/-- Then node two removes it again. -/
def removesElsewhere : List Move :=
  promotesElsewhere ++
    [.act (.perform ⟨2⟩ (.receive ⟨1⟩ (.appendEntriesResponse ⟨2, true, 1⟩))),
      .act (.perform ⟨1⟩ (.receive ⟨2⟩ (.appendEntries ⟨2, ⟨2⟩, 1, 2,
        [⟨2, .configuration ⟨[⟨1⟩, ⟨2⟩, ⟨4⟩], none⟩⟩], 1⟩))),
      .act (.perform ⟨2⟩ (.receive ⟨1⟩ (.appendEntriesResponse ⟨2, true, 2⟩))),
      .act (.perform ⟨2⟩ (.proposeConfigChange [⟨1⟩, ⟨2⟩])),
      .act (.perform ⟨2⟩ (.tick 9)),
      .act (.perform ⟨1⟩ (.receive ⟨2⟩ (.appendEntries ⟨2, ⟨2⟩, 2, 2,
        [⟨2, .configuration ⟨[⟨1⟩, ⟨2⟩], some [⟨1⟩, ⟨2⟩, ⟨4⟩]⟩⟩], 2⟩))),
      .act (.perform ⟨2⟩ (.receive ⟨1⟩ (.appendEntriesResponse ⟨2, true, 3⟩))),
      .act (.perform ⟨1⟩ (.receive ⟨2⟩ (.appendEntries ⟨2, ⟨2⟩, 3, 2,
        [⟨2, .configuration ⟨[⟨1⟩, ⟨2⟩], none⟩⟩], 3⟩)))]

/-- Node one follows the promotion and keeps its learner, which is a member for
it even when it has adopted the configuration that removes it. -/
theorem former_leader_keeps_a_promoted_learner :
    (∃ start now past, Cluster.boot [⟨1⟩, ⟨2⟩] [(⟨1⟩, 1, 1), (⟨2⟩, 1, 1)] = .ok start ∧
      Growth Cluster.Orderly start (now :: past) ∧
      ∃ node ∈ now.node ⟨1⟩, ¬ node.Apart) ∧
    ∃ start now past, Cluster.boot [⟨1⟩, ⟨2⟩] [(⟨1⟩, 1, 1), (⟨2⟩, 1, 1)] = .ok start ∧
      Growth Cluster.Orderly start (now :: past) ∧
      ∃ node ∈ now.node ⟨1⟩, node.currentConfig = ⟨[⟨1⟩, ⟨2⟩], none⟩ ∧
        node.isMember ⟨4⟩ = true ∧ ⟨4⟩ ∈ node.replicationTargets := by
  refine ⟨?_, ?_⟩
  · exact Growth.of_check Cluster.Orderly [⟨1⟩, ⟨2⟩] [(⟨1⟩, 1, 1), (⟨2⟩, 1, 1)]
      promotesElsewhere (fun now => ∃ node ∈ now.node ⟨1⟩, ¬ node.Apart)
      (by decide +kernel)
  · exact Growth.of_check Cluster.Orderly [⟨1⟩, ⟨2⟩] [(⟨1⟩, 1, 1), (⟨2⟩, 1, 1)]
      removesElsewhere (fun now => ∃ node ∈ now.node ⟨1⟩,
        node.currentConfig = ⟨[⟨1⟩, ⟨2⟩], none⟩ ∧
        node.isMember ⟨4⟩ = true ∧ ⟨4⟩ ∈ node.replicationTargets)
      (by decide +kernel)

end Kurogane.Sim
