import Kurogane.Runtime.LearnerSets
import Kurogane.Sim.Growth

/-!
What a cluster shows of its logs and snapshots: all that a storage holds or a
message brings. A leader that appends is the only one to show anything new. So a
server that no configuration beyond something committed names stays out of every
configuration there until a leader proposes it.
-/

namespace Kurogane.Sim

open Kurogane.Raft Kurogane.Runtime Kurogane.Consensus

/-- The entry sets a configuration in which `peer` votes. -/
def Names (peer : NodeId) (entry : LogEntry) : Prop :=
  ∃ config ∈ entryConfig entry, config.isVoter peer = true

instance (peer : NodeId) : DecidablePred (Names peer) := fun _ =>
  inferInstanceAs (Decidable (∃ _ ∈ _, _))

namespace Cluster

variable {cluster cluster' : Cluster} {id : NodeId} {server : Server}
  {effects : List Effect} {index : Nat}

/-- Some server has stored `entry` at `index`, or a message carries it there. -/
def Shows (cluster : Cluster) (index : Nat) (entry : LogEntry) : Prop :=
  (∃ id, (cluster.storageOf id).Shows index entry) ∨
    ∃ envelope ∈ cluster.network, envelope.message.Shows index entry

/-- Some server has stored a snapshot that ends at `index`, or a message brings
it. -/
def Rests (cluster : Cluster) (index : Nat) (config : ClusterConfig) : Prop :=
  (∃ id, (cluster.storageOf id).Rests index config) ∨
    0 < index ∧ ∃ envelope ∈ cluster.network, envelope.message.Rests index config

theorem shows_update {entry : LogEntry}
    (h : (cluster.update id server effects).Shows index entry) :
    cluster.Shows index entry ∨ server.storage.Shows index entry ∨
      ∃ effect ∈ effects, effect.Shows index entry := by
  rcases h with ⟨other, hstored⟩ | ⟨envelope, hmem, hsent⟩
  · rw [storageOf_update] at hstored
    split at hstored
    · exact Or.inr (Or.inl hstored)
    · exact Or.inl (Or.inl ⟨other, hstored⟩)
  · rcases List.mem_append.mp hmem with hold | hnew
    · exact Or.inl (Or.inr ⟨envelope, hold, hsent⟩)
    · exact Or.inr (Or.inr ⟨_, (mem_sent hnew).2, hsent⟩)

theorem rests_update {config : ClusterConfig}
    (h : (cluster.update id server effects).Rests index config) :
    cluster.Rests index config ∨ server.storage.Rests index config ∨
      0 < index ∧ ∃ effect ∈ effects, effect.Rests index config := by
  rcases h with ⟨other, hstored⟩ | ⟨hpos, envelope, hmem, hsent⟩
  · rw [storageOf_update] at hstored
    split at hstored
    · exact Or.inr (Or.inl hstored)
    · exact Or.inl (Or.inl ⟨other, hstored⟩)
  · rcases List.mem_append.mp hmem with hold | hnew
    · exact Or.inl (Or.inr ⟨hpos, envelope, hold, hsent⟩)
    · exact Or.inr (Or.inr ⟨hpos, _, (mem_sent hnew).2, hsent⟩)

/-- The server `id` serves `operation`, which leads its node to `node'`, and
executes the first `written` of the effects, or all of them. -/
structure Serves (cluster : Cluster) (id : NodeId) (operation : Operation)
    (written : Nat) (node node' : Node) (effects : List Effect) (storage : Storage) :
    Prop where
  running : cluster.node id = some node
  delivers : cluster.delivers id operation = true
  performs : node.perform operation = some (node', effects)
  applies : (cluster.storageOf id).applyAll (effects.take written) = some storage
  knows : node.KnowsMembership ⟨cluster.peers, none⟩ operation
  settled : effects.length = written ∨ Settled (effects.take written)

/-- An orderly move leaves a storage as it is and sends nothing, or serves a
request, as far as its first effect at least. -/
theorem move_cases {move : Move} (hok : cluster.Orderly move)
    (hmove : cluster.move move = some cluster') :
    (∃ id last, cluster' = cluster.update id ⟨last, cluster.storageOf id⟩ [] ∧
      ∀ node ∈ last, ∃ environment,
        startUp id environment (cluster.storageOf id) = .ok node ∧
          (move = .start id environment ∨ environment.memberIds = cluster.peers)) ∨
      ∃ id operation written node node' effects storage last,
        cluster.Serves id operation written node node' effects storage ∧
          cluster' = cluster.update id ⟨last, storage⟩ (effects.take written) ∧
          (move = .act (.perform id operation) ∧ effects.length = written ∧
              last = some node' ∨
            move = .act (.interrupt id operation written) ∧ 0 < written ∧
              last = none) := by
  cases move with
  | start id environment =>
      obtain ⟨node, hstart, rfl⟩ := launch_ok hmove
      refine Or.inl ⟨id, some node, rfl, ?_⟩
      rintro _ ⟨⟩
      exact ⟨environment, hstart, Or.inl rfl⟩
  | act action =>
      cases action with
      | perform id operation =>
          obtain ⟨server, node, node', effects, storage, hserver, hnode, hdelivers,
            hperform, happly, rfl⟩ := step_perform hmove
          have hrunning := node_of_server hserver hnode
          refine Or.inr ⟨id, operation, effects.length, node, node', effects, storage, _,
            ⟨hrunning, hdelivers, hperform, ?_, hok.2 hdelivers node hrunning, Or.inl rfl⟩,
            ?_, Or.inl ⟨rfl, rfl, rfl⟩⟩
          · rw [storageOf_server hserver, List.take_length]
            exact happly
          · rw [List.take_length]
      | interrupt id operation written =>
          obtain ⟨server, node, node', effects, storage, hserver, hnode, hdelivers,
            hperform, happly, rfl⟩ := step_interrupt hmove
          have hrunning := node_of_server hserver hnode
          rcases Nat.eq_zero_or_pos written with rfl | hpos
          · -- Nothing of the batch has been executed.
            cases happly
            rw [← storageOf_server hserver]
            exact Or.inl ⟨id, none, rfl, by simp⟩
          · refine Or.inr ⟨id, operation, written, node, node', effects, storage, _,
              ⟨hrunning, hdelivers, hperform, ?_, hok.2 hdelivers node hrunning,
                Or.inr (hok.1.crashes hdelivers node hrunning _ hperform)⟩, rfl,
              Or.inr ⟨rfl, hpos, rfl⟩⟩
            rw [storageOf_server hserver]
            exact happly
      | crash id =>
          obtain ⟨server, hserver, rfl⟩ := step_crash hmove
          rw [← storageOf_server hserver]
          exact Or.inl ⟨id, none, rfl, by simp⟩
      | restart id electionTimeout heartbeatInterval =>
          obtain ⟨server, node, hserver, hrecover, rfl⟩ := step_restart hmove
          rw [← storageOf_server hserver] at hrecover ⊢
          refine Or.inl ⟨id, some node, rfl, ?_⟩
          rintro _ ⟨⟩
          exact ⟨⟨cluster.peers, electionTimeout, heartbeatInterval, false⟩, hrecover,
            Or.inr rfl⟩

end Cluster

variable {h h' : Ghost} {cluster cluster' : Cluster} {id : NodeId} {node node' : Node}
  {effects : List Effect} {index : Nat}

theorem Backs.shows_iff {storage : Storage} {durable : Durable} {entry : LogEntry}
    (hbacks : Backs storage durable) :
    storage.Shows index entry ↔ durable.entryAt index = some entry := by
  obtain ⟨data, learners, hmirrors⟩ := hbacks
  exact Storage.shows_iff hmirrors.log
    (congrArg SnapshotMetadata.lastIncludedIndex hmirrors.snapshot)

theorem Backs.boundary {storage : Storage} {durable : Durable}
    (hbacks : Backs storage durable) :
    storage.snapshot.lastIncludedIndex = durable.boundary := by
  obtain ⟨data, learners, hmirrors⟩ := hbacks
  exact congrArg SnapshotMetadata.lastIncludedIndex hmirrors.snapshot

theorem Backs.snapshotConfig {storage : Storage} {durable : Durable}
    (hbacks : Backs storage durable) (hboundary : 0 < durable.boundary) :
    storage.snapshotConfig = durable.snapshot.config := by
  obtain ⟨data, learners, hmirrors⟩ := hbacks
  exact hmirrors.snapshotConfig hboundary

namespace Grown

/-- A node that runs stands for the log of its server and for what is stored. -/
theorem of_running (hrel : Grown cluster h) (hnode : cluster.node id = some node) :
    node.id = id ∧ NodeRel ⟨cluster.peers, none⟩ h node ∧
      Backs (cluster.storageOf id) node.durable := by
  obtain ⟨server, hserver, hrunning⟩ := Option.bind_eq_some_iff.mp hnode
  rw [Cluster.storageOf_server hserver]
  exact (hrel.servers id server hserver).node node hrunning

theorem shows_of_entryAt (hrel : Grown cluster h) (hnode : cluster.node id = some node)
    {entry : LogEntry} (hentry : node.entryAt index = some entry) :
    cluster.Shows index entry := by
  obtain ⟨-, -, hbacks⟩ := hrel.of_running hnode
  rw [← Node.entryAt_durable] at hentry
  exact Or.inl ⟨id, hbacks.shows_iff.mpr hentry⟩

/-- What is stored of the log of a server is shown. -/
theorem shows_of_log (hrel : Grown cluster h) {entry : LogEntry}
    (hlow : (cluster.storageOf id).snapshot.lastIncludedIndex ≤ index)
    (hentry : (h.log id)[index]? = some entry) : cluster.Shows (index + 1) entry := by
  obtain ⟨durable, hbacks, hdurable⟩ := hrel.storage id
  rw [hbacks.boundary] at hlow
  refine Or.inl ⟨id, hbacks.shows_iff.mpr ?_⟩
  rw [Durable.entryAt, if_neg (by omega), hdurable.log, List.getElem?_drop, ← hentry]
  congr 1
  omega

/-- Every entry that is shown is one of a leader's log. -/
theorem shown_backed (hrel : Grown cluster h) {entry : LogEntry}
    (hshows : cluster.Shows (index + 1) entry) :
    ∃ log, h.Backed (membership ⟨cluster.peers, none⟩) log ∧ log[index]? = some entry := by
  rcases hshows with ⟨other, hstored⟩ | ⟨envelope, hmem, hsent⟩
  · obtain ⟨durable, hbacks, hdurable⟩ := hrel.storage other
    rw [hbacks.shows_iff, Durable.entryAt] at hstored
    split at hstored
    · cases hstored
    · rename_i habove
      refine ⟨h.log other, hrel.sound.node_backed other, ?_⟩
      rw [← hstored, hdurable.log, List.getElem?_drop]
      congr 1
      omega
  · have hmessage := hrel.network envelope hmem
    cases hbody : envelope.message with
    | appendEntries request =>
        rw [hbody] at hsent hmessage
        obtain ⟨helected, before, hinit, hlength, -⟩ := hmessage
        obtain ⟨hlow, hentry⟩ := hsent
        refine ⟨_, hrel.sound.leader_backed helected hinit, ?_⟩
        rw [List.getElem?_append_right (by omega), hlength, ← hentry]
        congr 1
        omega
    | _ =>
        rw [hbody] at hsent
        exact hsent.elim

end Grown

namespace Cluster.Serves

variable {operation : Operation} {written : Nat} {storage : Storage}

/-- What is left of a batch shows what the node held before or holds after it. -/
theorem stored (hserves : cluster.Serves id operation written node node' effects storage)
    (hrel : Grown cluster h) {entry : LogEntry} (hshows : storage.Shows index entry) :
    node.entryAt index = some entry ∨ node'.entryAt index = some entry := by
  obtain ⟨-, -, hbacks⟩ := hrel.of_running hserves.running
  have hrecorded := (node.perform_writeAhead hserves.performs).recorded
  obtain ⟨partly, hpart⟩ := Durable.recordAll_take hrecorded written
  obtain ⟨storage', happly, hbacks'⟩ := hbacks.applyAll hpart
  obtain rfl := Option.some.inj (happly.symm.trans hserves.applies)
  rw [hbacks'.shows_iff] at hshows
  rcases hserves.settled with rfl | hsettled
  · rw [List.take_length, hrecorded] at hpart
    cases hpart
    rw [Node.entryAt_durable] at hshows
    exact Or.inr hshows
  · exact (Node.perform_explains hserves.performs hpart).mpr
      (Node.not_torn_of_last hserves.performs hsettled) index entry hshows

/-- Serving a request, a cluster shows nothing new but what a leader appends. -/
theorem shows (hserves : cluster.Serves id operation written node node' effects storage)
    (hrel : Grown cluster h) {last : Option Node} {entry : LogEntry}
    (hshows : (cluster.update id ⟨last, storage⟩ (effects.take written)).Shows index entry) :
    cluster.Shows index entry ∨ node.AppendsOwn operation index entry := by
  have hafter : node'.entryAt index = some entry →
      cluster.Shows index entry ∨ node.AppendsOwn operation index entry := by
    intro hentry
    obtain ⟨-, hnodeRel, -⟩ := hrel.of_running hserves.running
    have hcurrent : node.ConfigCurrent := hnodeRel.config
    rcases Node.perform_sources hcurrent hserves.performs hentry with
      hheld | ⟨sender, message, rfl, hsent⟩ | hown
    · exact Or.inl (hrel.shows_of_entryAt hserves.running hheld)
    · have hmem := hserves.delivers
      simp only [Cluster.delivers, List.contains_iff_mem] at hmem
      exact Or.inl (Or.inr ⟨_, hmem, hsent⟩)
    · exact Or.inr hown
  rcases shows_update hshows with hold | hstored | ⟨effect, hmem, heffect⟩
  · exact Or.inl hold
  · rcases hserves.stored hrel hstored with hbefore | hlater
    · exact Or.inl (hrel.shows_of_entryAt hserves.running hbefore)
    · exact hafter hlater
  · exact hafter ((Node.perform_held hserves.performs effect
      (List.mem_of_mem_take hmem)).entries index entry heffect)

/-- A snapshot that is new ends at what a node has committed, and carries the
configuration its log has there. -/
theorem rests (hserves : cluster.Serves id operation written node node' effects storage)
    (hrel : Grown cluster h) {last : Option Node} {config : ClusterConfig}
    (hrests : (cluster.update id ⟨last, storage⟩ (effects.take written)).Rests index config) :
    cluster.Rests index config ∨
      node.snapshot.lastIncludedIndex < index ∧ index ≤ node.commitIndex ∧
        config = (membership ⟨cluster.peers, none⟩).latest ⟨cluster.peers, none⟩
          ((h.log id).take index) := by
  have heffect : ∀ effect ∈ effects.take written, 0 < index → effect.Rests index config →
      cluster.Rests index config ∨
        node.snapshot.lastIncludedIndex < index ∧ index ≤ node.commitIndex ∧
          config = (membership ⟨cluster.peers, none⟩).latest ⟨cluster.peers, none⟩
            ((h.log id).take index) := by
    intro effect hmem hpos heffect
    obtain ⟨rfl, hnodeRel, hbacks⟩ := hrel.of_running hserves.running
    obtain ⟨rfl, rfl⟩ := (Node.perform_held hserves.performs effect
      (List.mem_of_mem_take hmem)).base index config heffect
    rcases Node.perform_base hserves.performs with ⟨hsnapshot, hconfig⟩ |
      ⟨sender, message, rfl, hsent⟩ | ⟨upToIndex, data, rfl, hlow, hhigh, hindex, hconfig⟩
    · rw [hsnapshot] at hpos ⊢
      rw [hconfig]
      exact Or.inl (Or.inl ⟨node.id, hpos, hbacks.boundary, hbacks.snapshotConfig hpos⟩)
    · have hmem := hserves.delivers
      simp only [Cluster.delivers, List.contains_iff_mem] at hmem
      exact Or.inl (Or.inr ⟨hpos, _, hmem, hsent⟩)
    · have hknows : node.KnowsBoundary ⟨cluster.peers, none⟩ upToIndex :=
        hserves.knows hlow hhigh
      rw [hindex, hconfig]
      refine Or.inr ⟨hlow, hhigh, ?_⟩
      rw [hnodeRel.latest_of_take hknows, hnodeRel.log]
      congr 1
      have hsplit := List.take_append_drop node.snapshot.lastIncludedIndex
        ((h.log node.id).take upToIndex)
      rw [List.take_take, min_eq_left hlow.le] at hsplit
      rw [List.take_drop, Nat.add_sub_cancel' hlow.le]
      exact hsplit
  rcases rests_update hrests with hold | hstored | ⟨hpos, effect, hmem, hrests⟩
  · exact Or.inl hold
  · have hpos := hstored.1
    rcases Storage.rests_applyAll hserves.applies hstored with hold | ⟨effect, hmem, hrests⟩
    · exact Or.inl (Or.inl ⟨id, hold⟩)
    · exact heffect effect hmem hpos hrests
  · exact heffect effect hmem hpos hrests

end Cluster.Serves

/-! ### Staying out -/

/-- `peer` is out of every configuration `id` can take over: `settled` is a
committed beginning of its log after which `peer` does not vote, and nothing the
cluster shows beyond it, on a log that begins with it, names `peer`. -/
structure Bars (cluster : Cluster) (h : Ghost) (id peer : NodeId)
    (settled : List LogEntry) : Prop where
  covered : h.Covered (h.term id) h.clock settled
  held : settled <+: h.log id
  latest : ((membership ⟨cluster.peers, none⟩).latest ⟨cluster.peers, none⟩
    settled).isVoter peer = false
  entries : ∀ index entry, cluster.Shows (index + 1) entry → Names peer entry →
    ¬ h.Follows (membership ⟨cluster.peers, none⟩) settled index entry
  bases : ∀ index config, cluster.Rests index config → settled.length < index →
    config.isVoter peer = false
  fallback : ∀ node ∈ cluster.node id, node.snapshot.lastIncludedIndex = 0 →
    node.snapshotConfig.isVoter peer = true →
    (membership ⟨cluster.peers, none⟩).configs settled ≠ []

/-- What a move may show that has not been shown: entries of a leader. Only a
configuration in force at one can name `peer`. -/
def KeepsOut (cluster cluster' : Cluster) (peer : NodeId) : Prop :=
  ∀ index entry, cluster'.Shows index entry → Names peer entry →
    cluster.Shows index entry ∨
      ∃ leader node, cluster.node leader = some node ∧ node.role = .leader ∧
        node.lastLogIndex < index ∧ entry.term = node.currentTerm ∧
        node.currentConfig.isVoter peer = true

/-- Snapshots are taken inside what is committed. -/
def RestsInside (h : Ghost) (cluster cluster' : Cluster) : Prop :=
  ∀ index config, cluster'.Rests index config →
    cluster.Rests index config ∨
      ∃ other node, cluster.node other = some node ∧
        node.snapshot.lastIncludedIndex < index ∧ index ≤ node.commitIndex ∧
        config = (membership ⟨cluster.peers, none⟩).latest ⟨cluster.peers, none⟩
          ((h.log other).take index)

namespace Bars

variable {peer : NodeId} {settled : List LogEntry}

/-- A log that begins with `settled` does not name `peer` where it goes on. -/
theorem leaves (hbars : Bars cluster h id peer settled) (hrel : Grown cluster h)
    {other : NodeId} (hheld : settled <+: h.log other) {count : Nat}
    (hlow : (cluster.storageOf other).snapshot.lastIncludedIndex ≤ count)
    (hcount : settled.length ≤ count) :
    ((membership ⟨cluster.peers, none⟩).latest ⟨cluster.peers, none⟩
      ((h.log other).take count)).isVoter peer = false := by
  obtain ⟨durable, hbacks, hdurable⟩ := hrel.storage other
  -- From here on the log is shown, and before it `peer` does not vote.
  obtain ⟨start, hfrom, hbase, hshown, hbegin⟩ : ∃ start, start ≤ count ∧
      (cluster.storageOf other).snapshot.lastIncludedIndex ≤ start ∧
      settled.length ≤ start ∧
      ((membership ⟨cluster.peers, none⟩).latest ⟨cluster.peers, none⟩
        ((h.log other).take start)).isVoter peer = false := by
    rcases Nat.lt_or_ge settled.length
        (cluster.storageOf other).snapshot.lastIncludedIndex with hbeyond | hinside
    · refine ⟨_, hlow, le_rfl, hbeyond.le, ?_⟩
      have hpos := Nat.zero_lt_of_lt hbeyond
      have hrests : cluster.Rests (cluster.storageOf other).snapshot.lastIncludedIndex
          (cluster.storageOf other).snapshotConfig := Or.inl ⟨other, hpos, rfl, rfl⟩
      have hout := hbars.bases _ _ hrests hbeyond
      rw [hbacks.boundary] at hpos
      rw [hbacks.snapshotConfig hpos, hdurable.snapshotConfig hpos] at hout
      rw [hbacks.boundary]
      exact hout
    · refine ⟨_, hcount, hinside, le_rfl, ?_⟩
      rw [← List.prefix_iff_eq_take.mp hheld]
      exact hbars.latest
  have hsplit : (h.log other).take count =
      (h.log other).take start ++ ((h.log other).take count).drop start := by
    conv_lhs => rw [← List.take_append_drop start ((h.log other).take count)]
    rw [List.take_take, min_eq_left hfrom]
  rw [hsplit, Rules.latest_append]
  refine Rules.latest_invariant (P := fun c : ClusterConfig => c.isVoter peer = false) _ hbegin
    (fun entry hmem config hconfig => ?_)
  by_contra hvotes
  rw [Bool.not_eq_false] at hvotes
  obtain ⟨place, hplace⟩ := List.getElem?_of_mem hmem
  rw [List.getElem?_drop, List.getElem?_take] at hplace
  split at hplace
  case isFalse => cases hplace
  case isTrue =>
    exact hbars.entries (start + place) entry
      (hrel.shows_of_log (hbase.trans (Nat.le_add_right _ _)) hplace)
      ⟨config, hconfig, hvotes⟩
      ⟨hshown.trans (Nat.le_add_right _ _), h.log other, hrel.sound.node_backed other,
        hheld, hplace⟩

/-- An informed node whose log begins with `settled` works by a configuration
without `peer`. -/
theorem informed (hbars : Bars cluster h id peer settled) (hrel : Grown cluster h)
    {other : NodeId} (hheld : settled <+: h.log other)
    (hnode : cluster.node other = some node) (hinformed : node.Informed ⟨cluster.peers, none⟩) :
    node.currentConfig.isVoter peer = false := by
  obtain ⟨rfl, hnodeRel, hbacks⟩ := hrel.of_running hnode
  rw [hnodeRel.currentConfig hinformed, ← List.take_length (l := h.log node.id)]
  refine hbars.leaves hrel hheld ?_ hheld.length_le
  rw [hbacks.boundary]
  exact hnodeRel.boundary_le_length hrel.sound

/-- So does `id` itself, even before any configuration has reached it. -/
theorem current (hbars : Bars cluster h id peer settled) (hrel : Grown cluster h)
    (hnode : cluster.node id = some node) : node.currentConfig.isVoter peer = false := by
  obtain ⟨rfl, hnodeRel, hbacks⟩ := hrel.of_running hnode
  by_cases hinformed : node.Informed ⟨cluster.peers, none⟩
  · exact hbars.informed hrel hbars.held hnode hinformed
  unfold Node.Informed Node.KnowsStart at hinformed
  simp only [not_or, not_lt, Nat.le_zero] at hinformed
  obtain ⟨⟨hboundary, -⟩, hnone⟩ := hinformed
  rw [Option.not_isSome_iff_eq_none] at hnone
  have hconfig : node.currentConfig = node.snapshotConfig := by
    have hcurrent := congrArg Prod.fst hnodeRel.config
    rw [hnone] at hcurrent
    exact hcurrent
  by_contra hvotes
  rw [Bool.not_eq_false, hconfig] at hvotes
  refine hbars.fallback node hnode hboundary hvotes ?_
  obtain ⟨rest, hrest⟩ := hbars.held
  have hlog := (latestConfigurationIn_eq_none ⟨cluster.peers, none⟩).mp hnone
  rw [hnodeRel.log, hboundary, List.drop_zero, ← hrest, Rules.configs_append,
    List.append_eq_nil_iff] at hlog
  exact hlog.1

/-- A move that keeps `peer` out leaves the bar where it is. -/
theorem move (hbars : Bars cluster h id peer settled) (hrel : Grown cluster h)
    (hrel' : Grown cluster' h') (ext : h.Extends h') (hkeeps : h.Keeps h')
    (hpeers : cluster'.peers = cluster.peers) (hshows : KeepsOut cluster cluster' peer)
    (hrests : RestsInside h cluster cluster')
    (hfallback : ∀ node ∈ cluster'.node id, node.snapshot.lastIncludedIndex = 0 →
      node.snapshotConfig.isVoter peer = true →
      (membership ⟨cluster.peers, none⟩).configs settled ≠ []) :
    Bars cluster' h' id peer settled := by
  have s := hrel.sound
  have s' := hrel'.sound
  rw [hpeers] at s'
  refine ⟨ext.covered hbars.covered (ext.term id) ext.clock,
    hkeeps id settled hbars.covered hbars.held, ?_, ?_, ?_, ?_⟩
  · rw [hpeers]
    exact hbars.latest
  · rw [hpeers]
    intro index entry hshown hnames hfollows
    rcases hshows (index + 1) entry hshown hnames with
      hold | ⟨leader, node, hnode, hrole, hbeyond, hterm, hvotes⟩
    · obtain ⟨log, hlog, hentry⟩ := hrel.shown_backed hold
      exact hbars.entries index entry hold hnames (s'.follows_back ext hlog hentry hfollows)
    · obtain ⟨rfl, hnodeRel, -⟩ := hrel.of_running hnode
      obtain ⟨helected, hlog, -⟩ := hnodeRel.leader hrole
      have hlength := hnodeRel.lastLogIndex s
      have hinit := s.follows_own s' ext helected hbars.covered hterm
        (by rw [← hlog]; omega) hfollows
      rw [← hlog] at hinit
      have hout := hbars.informed hrel hinit hnode (hnodeRel.informed (by simp [hrole]))
      rw [hvotes] at hout
      cases hout
  · intro index config hrest hbeyond
    rcases hrests index config hrest with hold | ⟨other, node, hnode, hlow, hhigh, rfl⟩
    · exact hbars.bases index config hold hbeyond
    · obtain ⟨rfl, hnodeRel, hbacks⟩ := hrel.of_running hnode
      have hcommitted := hnodeRel.committed_covered s
      have htake := hcommitted.shorten (List.take_prefix_take_left hhigh)
      have hheld : settled <+: h.log node.id := by
        rcases s.covered_comparable hbars.covered htake with hin | hin
        · exact hin.trans (List.take_prefix _ _)
        · have hlength := hin.length_le
          have hle := hnodeRel.commit_le_length s
          rw [List.length_take_of_le (hhigh.trans hle)] at hlength
          omega
      refine hbars.leaves hrel hheld ?_ hbeyond.le
      rw [hbacks.boundary]
      exact hlow.le
  · rw [hpeers]
    exact hfallback

/-- What a node has committed is what it has of the log up to there. -/
theorem committed_split (hnodeRel : NodeRel ⟨cluster.peers, none⟩ h node) :
    (h.log node.id).take node.commitIndex =
      (h.log node.id).take node.snapshot.lastIncludedIndex ++
        node.log.take (node.commitIndex - node.snapshot.lastIncludedIndex) := by
  have hle := hnodeRel.boundary_le_commit
  conv_lhs => rw [← List.take_append_drop node.snapshot.lastIncludedIndex
    ((h.log node.id).take node.commitIndex)]
  rw [List.take_take, min_eq_left hle, hnodeRel.log, List.take_drop,
    Nat.add_sub_cancel' hle]

/-- The first configuration to replace the one of the start names its voters. -/
theorem latest_of_unconfigured (hrel : Grown cluster h) {count : Nat}
    (hempty : (membership ⟨cluster.peers, none⟩).configs ((h.log id).take count) = [])
    (hchanged : (membership ⟨cluster.peers, none⟩).configs (h.log id) ≠ [])
    (hout : ∀ place entry, count ≤ place → (h.log id)[place]? = some entry →
      ¬ Names peer entry) :
    ((membership ⟨cluster.peers, none⟩).latest ⟨cluster.peers, none⟩
      ((h.log id).take count)).isVoter peer = false := by
  rw [Rules.latest_of_configs_nil _ _ _ hempty]
  have hchain := hrel.sound.backed_chained (hrel.sound.node_backed id)
  rw [← List.take_append_drop count (h.log id), Rules.chained_append,
    Rules.latest_of_configs_nil _ _ _ hempty] at hchain
  rw [← List.take_append_drop count (h.log id), Rules.configs_append, hempty,
    List.nil_append] at hchanged
  obtain ⟨entry, hmem, config, hconfig, hnext⟩ :=
    Rules.exists_next_of_configs _ hchain.2 hchanged
  obtain ⟨place, hplace⟩ := List.getElem?_of_mem hmem
  rw [List.getElem?_drop] at hplace
  have hjoint : config.oldVoters = some cluster.peers := by
    rcases hnext with ⟨-, hjoint⟩ | ⟨hsome, -⟩
    · exact hjoint
    · cases hsome
  by_contra hvotes
  rw [Bool.not_eq_false] at hvotes
  refine hout (count + place) entry (Nat.le_add_right _ _) hplace ⟨config, hconfig, ?_⟩
  simp only [ClusterConfig.isVoter, Option.getD_none, List.contains_nil,
    Bool.or_false] at hvotes
  simp [ClusterConfig.isVoter, hjoint, List.contains_iff_mem.mp hvotes]

/-- A leader that has committed up to where `peer` does not vote bars it, unless
something is shown beyond that names it. -/
theorem of_leader (hrel : Grown cluster h) (hnode : cluster.node id = some node)
    (hrole : node.role = .leader) (hcommitted : node.committedConfig.isVoter peer = false)
    (hentries : ∀ index entry, node.commitIndex < index → cluster.Shows index entry →
      ¬ Names peer entry)
    (hbases : ∀ index config, node.commitIndex < index → cluster.Rests index config →
      config.isVoter peer = false) :
    Bars cluster h id peer ((h.log id).take node.commitIndex) := by
  obtain ⟨rfl, hnodeRel, hbacks⟩ := hrel.of_running hnode
  have hlength : ((h.log node.id).take node.commitIndex).length = node.commitIndex :=
    List.length_take_of_le (hnodeRel.commit_le_length hrel.sound)
  have hsplit := committed_split hnodeRel
  refine ⟨?_, List.take_prefix _ _, ?_, ?_, ?_, ?_⟩
  · rw [hnodeRel.term]
    exact hnodeRel.committed_covered hrel.sound
  · by_cases hknows : node.KnowsBoundary ⟨cluster.peers, none⟩ node.commitIndex
    · rw [hsplit, ← hnodeRel.latest_of_take hknows]
      exact hcommitted
    · unfold Node.KnowsBoundary Node.KnowsStart at hknows
      simp only [not_or, not_lt, Nat.le_zero, Option.not_isSome_iff_eq_none] at hknows
      obtain ⟨⟨hboundary, hstart⟩, hnone⟩ := hknows
      have hinformed := hnodeRel.informed (by simp [hrole])
      have hfound := (hinformed.resolve_left (by simp [Node.KnowsStart, hboundary, hstart]))
      have hempty : (membership ⟨cluster.peers, none⟩).configs
          ((h.log node.id).take node.commitIndex) = [] := by
        rw [hsplit, Rules.configs_append, (latestConfigurationIn_eq_none _).mp hnone,
          hboundary, List.take_zero]
        rfl
      refine latest_of_unconfigured hrel hempty ?_ ?_
      · intro hconfigs
        rw [(latestConfigurationIn_eq_none _).mpr] at hfound
        · cases hfound
        · rw [hnodeRel.log, hboundary, List.drop_zero]
          exact hconfigs
      · intro place entry hplace hentry
        refine hentries (place + 1) entry (Nat.lt_succ_of_le hplace) ?_
        refine hrel.shows_of_log ?_ hentry
        rw [hbacks.boundary]
        exact hnodeRel.boundary_le_commit.trans hplace
  · intro index entry hshows hnames hfollows
    refine hentries (index + 1) entry ?_ hshows hnames
    have hle := hfollows.1
    omega
  · intro index config hrests hbeyond
    exact hbases index config (by omega) hrests
  · intro other hother hboundary hvotes hnone
    obtain rfl := Option.some.inj (hnode.symm.trans hother)
    rw [hsplit, Rules.configs_append, List.append_eq_nil_iff] at hnone
    unfold Node.committedConfig at hcommitted
    rw [(latestConfigurationIn_eq_none _).mpr hnone.2] at hcommitted
    have hout : node.snapshotConfig.isVoter peer = false := hcommitted
    rw [hvotes] at hout
    cases hout

end Bars

end Kurogane.Sim
