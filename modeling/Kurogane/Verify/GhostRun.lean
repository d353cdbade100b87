import Kurogane.Verify.Serving

/-!
The run of the protocol behind a harness: each call leads from one cluster to another
along its steps, so every guarantee of the protocol holds of the replicas as well.
-/

namespace Kurogane.Verify

open Kurogane.Raft Kurogane.Kv Kurogane.Runtime Kurogane.Consensus
open Kurogane.Sim (Envelope Cluster Ghost Founded IsCommand)

/-- `h` is the history of a run of `cluster`, whose entries all meet `Q` at their
indices. -/
structure Tracks (Q : Nat → LogEntry → Prop) (harness : Harness) (cluster : Cluster)
    (h : Ghost) : Prop where
  mirrors : harness.Mirrors cluster
  founded : Founded cluster h
  within : cluster.Within IsCommand
  places : cluster.Places Q
  reflects : ∀ (id : NodeId) (replica : Replica), harness.replicas[id]? = some replica →
    Reflects h id replica

namespace Tracks

variable {Q : Nat → LogEntry → Prop} {harness harness' : Harness}
  {cluster cluster' : Cluster} {h : Ghost} {id : NodeId} {replica next : Replica}
  {effects : List Effect}

theorem imp {Q' : Nat → LogEntry → Prop} (htracks : Tracks Q harness cluster h)
    (hmono : ∀ index entry, Q index entry → Q' index entry) :
    Tracks Q' harness cluster h :=
  { htracks with places := htracks.places.imp hmono }

/-- An action of the cluster that leaves all replicas but one alone. -/
theorem step (htracks : Tracks Q harness cluster h) {action : Sim.Action}
    (hsteady : cluster.Serving Node.Steady action) (hadmits : cluster.Admits Q action)
    (hstep : cluster.step action = some cluster') (hmirrors : harness'.Mirrors cluster')
    (hreplicas : ∀ (other : NodeId) (found : Replica), harness'.replicas[other]? = some found →
      harness.replicas[other]? = some found ∨
      ∀ h', Founded cluster' h' → cluster'.Within IsCommand →
        (∀ old, harness.replicas[other]? = some old → Reflects h' other old) →
        Reflects h' other found) :
    ∃ h', Tracks Q harness' cluster' h' ∧ h.Extends h' := by
  obtain ⟨h', hrel, hin, hext, hkeeps, -⟩ :=
    Sim.steady_step htracks.founded htracks.within hsteady hstep
  refine ⟨h', ⟨hmirrors, hrel, hin, ?_, fun other found hfound => ?_⟩, hext⟩
  · exact htracks.places.step htracks.within hsteady hadmits hstep hrel.toClusterRel hin
  · rcases hreplicas other found hfound with hold | hnew
    · exact (htracks.reflects other found hold).later hext hkeeps
    · exact hnew h' hrel hin (fun old hold => (htracks.reflects other old hold).later hext hkeeps)

/-- A replica serves a request, and everything it says is sent. -/
theorem perform (htracks : Tracks Q harness cluster h)
    (hreplica : harness.replicas[id]? = some replica) {operation : Operation}
    {request : Request} {deliveries : List Delivery}
    (hdelivers : cluster.delivers id operation = true)
    (hsteady : replica.node.Steady operation)
    (hadmits : cluster.Admits Q (.perform id operation))
    (hperform : replica.node.perform operation = some (next.node, effects))
    (hserved : replica.perform request = .ok (next, deliveries))
    (hexecutes : harness.Executes id next effects harness') :
    ∃ cluster' h', Tracks Q harness' cluster' h' ∧ h.Extends h' ∧
      cluster.network ⊆ cluster'.network := by
  obtain ⟨cluster', hstep, hmirrors, hnetwork⟩ :=
    htracks.mirrors.perform hreplica hdelivers hperform hexecutes
  have hsteady : cluster.Serving Node.Steady (.perform id operation) := by
    intro _ node hnode
    rw [htracks.mirrors.node hreplica] at hnode
    cases hnode
    exact hsteady
  have hsame := hexecutes.replicas
  obtain ⟨h', htracks', hext⟩ := htracks.step hsteady hadmits hstep hmirrors
    (fun other found hfound => by
      by_cases hother : other = id
      · refine Or.inr (fun h' hrel hin hreflects => ?_)
        have hnode := hmirrors.node hfound
        obtain ⟨hid, hnodeRel⟩ := hrel.of_node hnode
        have hlast : found = next := by
          rw [hother, hsame, Std.ExtTreeMap.getElem?_insert_self] at hfound
          exact (Option.some.inj hfound).symm
        rw [hlast] at hid hnodeRel hnode ⊢
        exact (hreflects replica (hother ▸ hreplica)).served hrel.sound hserved hnodeRel hid
          (hin.boundary hnode)
      · refine Or.inl ?_
        rw [hsame] at hfound
        exact (getElem?_insert_other hother).symm.trans hfound)
  exact ⟨cluster', h', htracks', hext, hnetwork⟩

/-- A leader takes in an operation. -/
theorem propose {command : Command} {index : Nat} {deliveries : List Delivery}
    (htracks : Tracks Q harness cluster h) (hreplica : harness.replicas[id]? = some replica)
    (hpropose : replica.propose command = .ok (next, some (index, effects), deliveries))
    (hexecutes : harness.Executes id next effects harness')
    (hplace : Q index ⟨replica.node.currentTerm, .command command.encode⟩) :
    ∃ cluster' h', Tracks Q harness' cluster' h' ∧ h.Extends h' := by
  obtain ⟨hnode, hserved⟩ := Replica.propose_served hpropose
  obtain ⟨-, hindex, -⟩ := Node.propose_entryAt hnode
  have hperform : replica.node.perform (.propose command.encode) =
      some (next.node, effects) := by
    simp only [Node.perform, hnode, Option.bind_eq_bind, Option.bind_some]
  have hadmits : cluster.Admits Q (.perform id (.propose command.encode)) := by
    intro node hfound _
    rw [htracks.mirrors.node hreplica] at hfound
    cases hfound
    exact hindex ▸ hplace
  have hdelivers : cluster.delivers id (.propose command.encode) = true := rfl
  have hsteady : replica.node.Steady (.propose command.encode) := trivial
  obtain ⟨cluster', h', htracks', hext, -⟩ :=
    htracks.perform hreplica hdelivers hsteady hadmits hperform hserved hexecutes
  exact ⟨cluster', h', htracks', hext⟩

theorem deliver {envelope : Envelope} (htracks : Tracks Q harness cluster h)
    (hmem : envelope ∈ cluster.network) (hdeliver : harness.deliver envelope = .ok harness') :
    ∃ cluster' h', Tracks Q harness' cluster' h' ∧ h.Extends h' ∧
      harness.SameOperations harness' ∧ cluster.network ⊆ cluster'.network := by
  rcases Harness.deliver_cases htracks.mirrors.backed hdeliver with
    rfl | ⟨replica, next, effects, deliveries, hreplica, hstep, hexecutes⟩
  · exact ⟨cluster, h, htracks, .refl h, .refl _, List.Subset.refl _⟩
  · obtain ⟨hnode, hserved⟩ := Replica.step_served hstep
    have hdelivers : cluster.delivers envelope.receiver
        (.receive envelope.sender envelope.message) = true :=
      List.contains_iff_mem.mpr hmem
    obtain ⟨cluster', h', htracks', hext, hnetwork⟩ :=
      htracks.perform hreplica hdelivers trivial trivial hnode hserved hexecutes
    exact ⟨cluster', h', htracks', hext, hexecutes.sameOperations, hnetwork⟩

theorem deliverAll {due : List Envelope} (htracks : Tracks Q harness cluster h)
    (hdue : due ⊆ cluster.network) (hdeliver : due.foldlM Harness.deliver harness = .ok harness') :
    ∃ cluster' h', Tracks Q harness' cluster' h' ∧ h.Extends h' ∧
      harness.SameOperations harness' := by
  induction due generalizing harness cluster h with
  | nil =>
      cases hdeliver
      exact ⟨cluster, h, htracks, .refl h, .refl _⟩
  | cons envelope rest ih =>
      obtain ⟨hmem, hrest⟩ := List.cons_subset.mp hdue
      obtain ⟨middle, hmiddle, hdeliver⟩ := bind_eq_ok hdeliver
      obtain ⟨cluster', h', htracks', hext, hsame, hnetwork⟩ := htracks.deliver hmem hmiddle
      obtain ⟨last, h'', hlast, hext', hsame'⟩ :=
        ih htracks' (List.Subset.trans hrest hnetwork) hdeliver
      exact ⟨last, h'', hlast, hext.trans hext', hsame.trans hsame'⟩

theorem tick (htracks : Tracks Q harness cluster h) (htick : harness.tick id = .ok harness') :
    ∃ cluster' h', Tracks Q harness' cluster' h' ∧ h.Extends h' ∧
      harness.SameOperations harness' := by
  obtain ⟨nextTimeout, replica, next, effects, deliveries, hreplica, hstep, hexecutes⟩ :=
    Harness.tick_executes htracks.mirrors.backed htick
  obtain ⟨hnode, hserved⟩ := Replica.step_served hstep
  have hdelivers : cluster.delivers id (.tick nextTimeout) = true := rfl
  obtain ⟨cluster', h', htracks', hext, -⟩ :=
    htracks.perform hreplica hdelivers trivial trivial hnode hserved hexecutes
  exact ⟨cluster', h', htracks', hext, hexecutes.sameOperations⟩

theorem tickAll {ids : List NodeId} (htracks : Tracks Q harness cluster h)
    (htick : ids.foldlM Harness.tick harness = .ok harness') :
    ∃ cluster' h', Tracks Q harness' cluster' h' ∧ h.Extends h' ∧
      harness.SameOperations harness' := by
  refine Sim.foldlM_invariant (fun now => ∃ cluster' h', Tracks Q now cluster' h' ∧
    h.Extends h' ∧ harness.SameOperations now) ?_ ⟨cluster, h, htracks, .refl h, .refl _⟩ htick
  rintro now id next ⟨cluster', h', htracks', hext, hsame⟩ htick
  obtain ⟨last, h'', hlast, hext', hsame'⟩ := htracks'.tick htick
  exact ⟨last, h'', hlast, hext.trans hext', hsame.trans hsame'⟩

/-- Time, isolation and what is recorded of both are nothing to the cluster. -/
theorem stutter (htracks : Tracks Q harness cluster h)
    (hreplicas : harness'.replicas = harness.replicas)
    (hdurable : harness'.durable = harness.durable) (hpeers : harness'.peers = harness.peers)
    (hcarries : ∀ envelope, harness'.Carries envelope → harness.Carries envelope) :
    Tracks Q harness' cluster h where
  mirrors := {
    backed := by
      unfold Harness.Backed
      rw [hreplicas, hdurable]
      exact htracks.mirrors.backed
    peers := htracks.mirrors.peers.trans hpeers.symm
    servers := by
      rw [hreplicas, hdurable]
      exact htracks.mirrors.servers
    network := fun envelope hmem => htracks.mirrors.network envelope (hcarries envelope hmem) }
  founded := htracks.founded
  within := htracks.within
  places := htracks.places
  reflects := by
    rw [hreplicas]
    exact htracks.reflects

/-- The part of a step before the operations are looked at. -/
theorem advance {clock : Nat} (htracks : Tracks Q harness cluster h)
    {middle : Harness}
    (hdeliver : (harness.inbox[clock]?.getD []).foldlM Harness.deliver
      { harness with clock, inbox := harness.inbox.erase clock } = .ok middle)
    (htick : middle.replicas.keys.foldlM Harness.tick middle = .ok harness') :
    ∃ cluster' h', Tracks Q harness' cluster' h' ∧ h.Extends h' ∧
      Harness.SameOperations { harness with clock } harness' := by
  have hstart : Tracks Q { harness with clock, inbox := harness.inbox.erase clock } cluster h := by
    refine htracks.stutter rfl rfl rfl ?_
    rintro envelope ⟨due, envelopes, hdue, hmem⟩
    have hdue : (harness.inbox.erase clock)[due]? = some envelopes := hdue
    rw [Std.ExtTreeMap.getElem?_erase, Option.ite_none_left_eq_some] at hdue
    exact ⟨due, envelopes, hdue.2, hmem⟩
  obtain ⟨cluster', h', htracks', hext, hsame⟩ := hstart.deliverAll
    (fun envelope hmem => htracks.mirrors.network envelope (Harness.carries_of_due hmem)) hdeliver
  obtain ⟨last, h'', hlast, hext', hsame'⟩ := htracks'.tickAll htick
  have hsame'' := hsame.trans hsame'
  exact ⟨last, h'', hlast, hext.trans hext', hsame''.clock, hsame''.pending, hsame''.history⟩

theorem crash (htracks : Tracks Q harness cluster h) (id : NodeId) :
    ∃ cluster' h', Tracks Q (harness.crash id) cluster' h' ∧ h.Extends h' ∧
      harness.SameOperations (harness.crash id) := by
  cases hreplica : harness.replicas[id]? with
  | none =>
      have hdown : harness.replicas.contains id = false := by
        rw [Std.ExtTreeMap.contains_eq_isSome_getElem?, hreplica]
        rfl
      rw [Harness.crash, hdown, if_neg Bool.false_ne_true]
      exact ⟨cluster, h, htracks, .refl h, .refl _⟩
  | some replica =>
      obtain ⟨cluster', hstep, hmirrors⟩ := htracks.mirrors.crash hreplica
      have hup : harness.replicas.contains id = true := by
        rw [Std.ExtTreeMap.contains_eq_isSome_getElem?, hreplica]
        rfl
      rw [Harness.crash, if_pos hup] at hmirrors ⊢
      have hsteady : cluster.Serving Node.Steady (.crash id) := trivial
      obtain ⟨h', htracks', hext⟩ := htracks.step hsteady trivial hstep hmirrors
        (fun other found hfound => Or.inl (by
          have hfound : (harness.replicas.erase id)[other]? = some found := hfound
          rw [Std.ExtTreeMap.getElem?_erase, Option.ite_none_left_eq_some] at hfound
          exact hfound.2))
      exact ⟨cluster', h', htracks', hext, rfl, rfl, rfl⟩

theorem restart (htracks : Tracks Q harness cluster h)
    (hrestart : harness.restart id = .ok harness') :
    ∃ cluster' h', Tracks Q harness' cluster' h' ∧ h.Extends h' ∧
      harness.SameOperations harness' := by
  rcases Harness.restart_cases hrestart with
    rfl | ⟨storage, node, replica, hdown, hstorage, hrecover, hreplica, rfl⟩
  · exact ⟨cluster, h, htracks, .refl h, .refl _⟩
  · obtain rfl := (Replica.recover_spec hreplica).1
    obtain ⟨cluster', hstep, hmirrors⟩ := htracks.mirrors.restart hdown hstorage hrecover
    have hsteady : cluster.Serving Node.Steady
      (.restart id harness.electionTimeout harness.heartbeatInterval) := trivial
    obtain ⟨h', htracks', hext⟩ := htracks.step hsteady trivial hstep hmirrors
      (fun other found hfound => by
        by_cases hother : other = id
        · refine Or.inr (fun h' hrel hin _ => ?_)
          have hnode := hmirrors.node hfound
          have hlast : found = replica := by
            have hfound : (harness.replicas.insert id replica)[other]? = some found := hfound
            rw [hother, Std.ExtTreeMap.getElem?_insert_self] at hfound
            exact (Option.some.inj hfound).symm
          rw [hlast] at hnode ⊢
          exact .started hreplica (hin.boundary hnode)
        · exact Or.inl ((getElem?_insert_other hother).symm.trans hfound))
    exact ⟨cluster', h', htracks', hext, rfl, rfl, rfl⟩

end Tracks

/-! ### The start -/

namespace Harness

variable {harness : Harness} {cluster : Cluster} {replicas : Replicas} {durable : Durables}
  {electionTimeout heartbeatInterval : Nat}

/-- Members join the harness as they join the cluster. -/
theorem Mirrors.joinAll {peers ids : List NodeId} (h : harness.Mirrors cluster)
    (hrecovered : ∀ (id : NodeId) (replica : Replica), harness.replicas[id]? = some replica →
      Replica.recover replica.node = .ok replica)
    (hjoin : ids.foldlM (join peers electionTimeout heartbeatInterval)
      (harness.replicas, harness.durable) = .ok (replicas, durable)) :
    ∃ servers, (ids.map (fun id => (id, electionTimeout, heartbeatInterval))).foldlM
        (Cluster.start peers) cluster.servers = .ok servers ∧
      Mirrors { harness with replicas, durable } { cluster with servers } ∧
      ∀ (id : NodeId) (replica : Replica), replicas[id]? = some replica →
        Replica.recover replica.node = .ok replica := by
  induction ids generalizing harness cluster with
  | nil =>
      cases hjoin
      exact ⟨cluster.servers, rfl, h, hrecovered⟩
  | cons id rest ih =>
      obtain ⟨⟨first, stored⟩, hfirst, hjoin⟩ := bind_eq_ok hjoin
      unfold join at hfirst
      dsimp only at hfirst
      split at hfirst
      · cases hfirst
      rename_i node hnode
      obtain ⟨replica, hrecover, hadd⟩ := bind_eq_ok hfirst
      cases hadd
      have hreplica := ok_of_mapError hrecover
      obtain rfl := (Replica.recover_spec hreplica).1
      have hmirrors : Mirrors { harness with
          replicas := harness.replicas.insert id replica
          durable := harness.durable.insert id .fresh }
          { cluster with servers := cluster.servers.insert id ⟨some replica.node, .fresh⟩ } := by
        have hupdate : { cluster with
            servers := cluster.servers.insert id ⟨some replica.node, .fresh⟩ } =
            cluster.update id ⟨some replica.node, .fresh⟩ [] := by
          simp [Cluster.update, Sim.sent]
        rw [hupdate]
        refine h.update rfl (fun _ => getElem?_insert_other) (fun _ => getElem?_insert_other)
          Std.ExtTreeMap.getElem?_insert_self ?_ (fun _ => Or.inr)
        dsimp only
        rw [Std.ExtTreeMap.getElem?_insert_self]
        rfl
      obtain ⟨servers, hservers, hrest⟩ := ih hmirrors (fun other found hfound => by
        by_cases hother : other = id
        · have hfound : (harness.replicas.insert id replica)[other]? = some found := hfound
          rw [hother, Std.ExtTreeMap.getElem?_insert_self] at hfound
          cases hfound
          exact hreplica
        · exact hrecovered other found ((getElem?_insert_other hother).symm.trans hfound)) hjoin
      refine ⟨servers, ?_, hrest⟩
      rw [List.map_cons, List.foldlM_cons, Cluster.start, hnode]
      exact hservers

/-- A harness that has just been set up. -/
theorem new_tracks {peers : List NodeId} {seed : UInt64}
    {minTimeout maxTimeout minDelay maxDelay applyTimeoutTicks : Nat}
    {Q : Nat → LogEntry → Prop}
    (hnew : new peers electionTimeout heartbeatInterval seed minTimeout maxTimeout minDelay
      maxDelay applyTimeoutTicks = .ok harness) :
    ∃ cluster, Tracks Q harness cluster (.empty NodeId LogEntry) ∧
      harness.pending = [] ∧ harness.history = [] := by
  obtain ⟨⟨replicas, durable⟩, hjoin, hnew⟩ := bind_eq_ok hnew
  cases hnew
  have hempty : Mirrors ⟨∅, ∅, ∅, peers, electionTimeout, heartbeatInterval, Sim.Rng.new seed,
      0, ∅, minTimeout, maxTimeout, minDelay, maxDelay, applyTimeoutTicks, [], [], [], []⟩
      ⟨peers, ∅, []⟩ := by
    refine ⟨fun id replica hreplica => ?_, rfl, fun id => ?_, ?_⟩
    · rw [Std.ExtTreeMap.getElem?_empty] at hreplica
      cases hreplica
    · rw [Std.ExtTreeMap.getElem?_empty, Std.ExtTreeMap.getElem?_empty]
      rfl
    · rintro envelope ⟨due, envelopes, hdue, -⟩
      rw [Std.ExtTreeMap.getElem?_empty] at hdue
      cases hdue
  obtain ⟨servers, hservers, hmirrors, hrecovered⟩ := hempty.joinAll
    (fun id replica hreplica => by
      rw [Std.ExtTreeMap.getElem?_empty] at hreplica
      cases hreplica) hjoin
  have hboot : Cluster.boot peers (peers.map
      (fun id => (id, electionTimeout, heartbeatInterval))) = .ok ⟨peers, servers, []⟩ := by
    rw [Cluster.boot, hservers]
    rfl
  have hin : Cluster.Within IsCommand ⟨peers, servers, []⟩ := Sim.boot_within hboot
  refine ⟨⟨peers, servers, []⟩, ⟨hmirrors, Sim.boot_rel hboot, hin, Sim.boot_places hboot,
    fun id replica hreplica => ?_⟩, rfl, rfl⟩
  exact .started (hrecovered id replica hreplica) (hin.boundary (hmirrors.node hreplica))

end Harness

end Kurogane.Verify
