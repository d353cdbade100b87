import Kurogane.Kv.Boundaries
import Kurogane.Sim.Provenance
import Kurogane.Verify.Harness

/-!
A harness plays one of the runs of a cluster: each replica is the node of a server
with a state machine fed by it, every delivery is one of a message that was sent, and
time, isolation and delays only choose what happens next. So what a replica has
applied is a committed beginning of its log, and its results are those of that log.
-/

namespace Kurogane.Verify

open Kurogane.Raft Kurogane.Kv Kurogane.Runtime Kurogane.Consensus
open Kurogane.Sim (Envelope Cluster Ghost Founded IsCommand Server)

section

variable {α : Type} {id other : NodeId} {nodes : Std.ExtTreeMap NodeId α}

theorem getElem?_insert_other {value : α} (hne : other ≠ id) :
    (nodes.insert id value)[other]? = nodes[other]? := by
  rw [Std.ExtTreeMap.getElem?_insert,
    if_neg (fun heq => hne (Std.LawfulEqCmp.eq_of_compare heq).symm)]

theorem getElem?_erase_other (hne : other ≠ id) :
    (nodes.erase id)[other]? = nodes[other]? := by
  rw [Std.ExtTreeMap.getElem?_erase,
    if_neg (fun heq => hne (Std.LawfulEqCmp.eq_of_compare heq).symm)]

end

theorem ok_of_mapError {α ε ε' : Type} {f : ε → ε'} {answer : Except ε α} {value : α}
    (h : answer.mapError f = .ok value) : answer = .ok value := by
  cases answer with
  | error panic => cases h
  | ok found =>
      cases h
      rfl

namespace Harness

variable {harness harness' : Harness} {id : NodeId} {replica next : Replica}
  {effects : List Effect} {envelope : Envelope}

/-! ### What a request leaves of the harness -/

/-- `envelope` is on its way. -/
def Carries (harness : Harness) (envelope : Envelope) : Prop :=
  ∃ (due : Nat) (envelopes : List Envelope),
    harness.inbox[due]? = some envelopes ∧ envelope ∈ envelopes

theorem carries_of_due {due : Nat} (h : envelope ∈ harness.inbox[due]?.getD []) :
    harness.Carries envelope := by
  cases hdue : harness.inbox[due]? with
  | none =>
      rw [hdue] at h
      cases h
  | some envelopes =>
      rw [hdue] at h
      exact ⟨due, envelopes, hdue, h⟩

theorem send_spec (h : harness.send envelope = .ok harness') :
    ∃ trace rng inbox, harness' = { harness with trace, rng, inbox } ∧
      ∀ other, harness'.Carries other → other = envelope ∨ harness.Carries other := by
  unfold send at h
  split at h
  · cases h
    exact ⟨_, _, _, rfl, fun _ => Or.inr⟩
  · obtain ⟨⟨delay, rng⟩, -, h⟩ := bind_eq_ok h
    obtain ⟨due, -, h⟩ := bind_eq_ok h
    cases h
    refine ⟨_, _, _, rfl, ?_⟩
    rintro other ⟨found, envelopes, hfound, hmem⟩
    rw [Std.ExtTreeMap.getElem?_insert] at hfound
    split at hfound
    · cases hfound
      rcases List.mem_append.mp hmem with hold | hnew
      · exact Or.inr (carries_of_due hold)
      · exact Or.inl (List.mem_singleton.mp hnew)
    · exact Or.inr ⟨found, envelopes, hfound, hmem⟩

theorem foldlM_send_spec {envelopes : List Envelope}
    (h : envelopes.foldlM send harness = .ok harness') :
    ∃ trace rng inbox, harness' = { harness with trace, rng, inbox } ∧
      ∀ other, harness'.Carries other → other ∈ envelopes ∨ harness.Carries other := by
  induction envelopes generalizing harness with
  | nil =>
      cases h
      exact ⟨_, _, _, rfl, fun _ => Or.inr⟩
  | cons envelope rest ih =>
      obtain ⟨middle, hmiddle, h⟩ := bind_eq_ok h
      obtain ⟨_, _, _, rfl, hsent⟩ := send_spec hmiddle
      obtain ⟨_, _, _, rfl, hrest⟩ := ih h
      refine ⟨_, _, _, rfl, fun other hother => ?_⟩
      rcases hrest other hother with hmem | hbefore
      · exact Or.inl (List.mem_cons_of_mem _ hmem)
      · exact (hsent other hbefore).imp_left (fun hsame => List.mem_cons.mpr (Or.inl hsame))

/-- `harness'` has `next` as the replica of `id` and has executed `effects` for it. -/
def Executes (harness : Harness) (id : NodeId) (next : Replica) (effects : List Effect)
    (harness' : Harness) : Prop :=
  ∃ storage storage' trace rng inbox, harness.durable[id]? = some storage ∧
    storage.applyAll effects = some storage' ∧
    harness' = { harness with
      replicas := harness.replicas.insert id next
      durable := harness.durable.insert id storage'
      trace, rng, inbox } ∧
    ∀ envelope, harness'.Carries envelope →
      envelope ∈ Sim.sent id effects ∨ harness.Carries envelope

theorem Executes.replicas (h : harness.Executes id next effects harness') :
    harness'.replicas = harness.replicas.insert id next := by
  obtain ⟨_, _, _, _, _, -, -, rfl, -⟩ := h
  rfl

/-- What is on record of the operations, and the time. -/
structure SameOperations (harness harness' : Harness) : Prop where
  clock : harness'.clock = harness.clock
  pending : harness'.pending = harness.pending
  history : harness'.history = harness.history

theorem Executes.sameOperations (h : harness.Executes id next effects harness') :
    harness.SameOperations harness' := by
  obtain ⟨_, _, _, _, _, -, -, rfl, -⟩ := h
  exact ⟨rfl, rfl, rfl⟩

theorem SameOperations.refl (harness : Harness) : harness.SameOperations harness :=
  ⟨rfl, rfl, rfl⟩

theorem SameOperations.trans {harness'' : Harness} (h : harness.SameOperations harness')
    (h' : harness'.SameOperations harness'') : harness.SameOperations harness'' :=
  ⟨h'.clock.trans h.clock, h'.pending.trans h.pending, h'.history.trans h.history⟩

/-- Every replica has something durable. -/
def Backed (harness : Harness) : Prop :=
  ∀ (id : NodeId) (replica : Replica), harness.replicas[id]? = some replica →
    ∃ storage, harness.durable[id]? = some storage

theorem applyEffects_executes (hbacked : harness.Backed)
    (hreplica : harness.replicas[id]? = some replica)
    (h : { harness with replicas := harness.replicas.insert id next }.applyEffects id effects =
      .ok harness') : harness.Executes id next effects harness' := by
  obtain ⟨storage, hstorage⟩ := hbacked id replica hreplica
  obtain ⟨middle, hpersist, h⟩ := bind_eq_ok h
  unfold persist at hpersist
  rw [hstorage] at hpersist
  dsimp only at hpersist
  split at hpersist
  · cases hpersist
  rename_i storage' hstorage'
  cases hpersist
  obtain ⟨_, _, _, rfl, hsent⟩ := foldlM_send_spec h
  exact ⟨storage, storage', _, _, _, hstorage, hstorage', rfl, hsent⟩

theorem serve_executes {event : Event} (hbacked : harness.Backed)
    (hreplica : harness.replicas[id]? = some replica)
    (h : harness.serve id replica event = .ok harness') :
    ∃ next effects deliveries, replica.step event = .ok (next, effects, deliveries) ∧
      harness.Executes id next effects harness' := by
  obtain ⟨⟨next, effects, deliveries⟩, hstep, h⟩ := bind_eq_ok h
  exact ⟨next, effects, deliveries, ok_of_mapError hstep,
    applyEffects_executes hbacked hreplica h⟩

theorem deliver_cases (hbacked : harness.Backed) (h : harness.deliver envelope = .ok harness') :
    harness' = harness ∨ ∃ replica next effects deliveries,
      harness.replicas[envelope.receiver]? = some replica ∧
      replica.step (.step envelope.sender envelope.message) =
        .ok (next, effects, deliveries) ∧
      harness.Executes envelope.receiver next effects harness' := by
  unfold deliver at h
  split at h
  · cases h
    exact Or.inl rfl
  split at h
  · cases h
    exact Or.inl rfl
  · rename_i replica hreplica
    obtain ⟨next, effects, deliveries, hstep, hexecutes⟩ :=
      serve_executes (show (harness.record _).Backed from hbacked) hreplica h
    exact Or.inr ⟨replica, next, effects, deliveries, hreplica, hstep, hexecutes⟩

theorem tick_executes (hbacked : harness.Backed) (h : harness.tick id = .ok harness') :
    ∃ nextTimeout replica next effects deliveries, harness.replicas[id]? = some replica ∧
      replica.step (.tick nextTimeout) = .ok (next, effects, deliveries) ∧
      harness.Executes id next effects harness' := by
  obtain ⟨⟨nextTimeout, rng⟩, -, h⟩ := bind_eq_ok h
  dsimp only at h
  split at h
  · cases h
  · rename_i replica hreplica
    obtain ⟨next, effects, deliveries, hstep, hexecutes⟩ :=
      serve_executes (show (record { harness with rng } _).Backed from hbacked) hreplica h
    exact ⟨nextTimeout, replica, next, effects, deliveries, hreplica, hstep, hexecutes⟩

/-- An operation is turned down at once, or some leader takes it in. -/
theorem submit_cases {client : ClientId} {target : NodeId} {command : Command}
    (hbacked : harness.Backed)
    (h : harness.submit client target command = .ok harness') :
    harness' = harness.reject client command ∨
      ∃ replica next index effects deliveries entry deadline middle,
        harness.replicas[target]? = some replica ∧
        replica.propose command = .ok (next, some (index, effects), deliveries) ∧
        next.node.entryAt index = some entry ∧
        harness.Executes target next effects middle ∧
        harness' = { middle with
          pending := harness.pending ++
            [⟨client, harness.clock, target, index, entry.term, command, deadline⟩] } := by
  unfold submit at h
  split at h
  · cases h
    exact Or.inl rfl
  rename_i replica hreplica
  obtain ⟨⟨next, answer, deliveries⟩, hpropose, h⟩ := bind_eq_ok h
  have hpropose := ok_of_mapError hpropose
  cases answer with
  | none =>
      cases h
      refine Or.inl ?_
      obtain rfl := Replica.propose_declined hpropose
      have hsame : harness.replicas.insert target next = harness.replicas := by
        refine Std.ExtTreeMap.ext_getElem? (fun id => ?_)
        by_cases hid : id = target
        · rw [hid, Std.ExtTreeMap.getElem?_insert_self, hreplica]
        · exact getElem?_insert_other hid
      rw [hsame]
  | some answer =>
      obtain ⟨index, effects⟩ := answer
      dsimp only at h
      split at h
      · cases h
      rename_i entry hentry
      obtain ⟨middle, hmiddle, h⟩ := bind_eq_ok h
      obtain ⟨deadline, -, h⟩ := bind_eq_ok h
      cases h
      have hexecutes := applyEffects_executes hbacked hreplica hmiddle
      refine Or.inr ⟨replica, next, index, effects, deliveries, entry, deadline, middle,
        hreplica, hpropose, hentry, hexecutes, ?_⟩
      rw [hexecutes.sameOperations.pending, hexecutes.sameOperations.clock]

theorem restart_cases (h : harness.restart id = .ok harness') :
    harness' = harness ∨ ∃ storage node replica, harness.replicas[id]? = none ∧
      harness.durable[id]? = some storage ∧
      Node.recover id harness.peers harness.electionTimeout harness.heartbeatInterval
        storage.hardState storage.log
        ⟨storage.snapshot, storage.snapshotData, storage.snapshotConfig⟩
        storage.learners = .ok node ∧
      Replica.recover node = .ok replica ∧
      harness' = recordFault { harness with replicas := harness.replicas.insert id replica }
        id .restarted := by
  unfold restart at h
  split at h
  · cases h
    exact Or.inl rfl
  rename_i hknown
  split at h
  · cases h
    exact Or.inl rfl
  rename_i storage hstorage
  split at h
  · cases h
  rename_i node hrecover
  obtain ⟨replica, hreplica, h⟩ := bind_eq_ok h
  cases h
  refine Or.inr ⟨storage, node, replica, ?_, hstorage, hrecover, ok_of_mapError hreplica, rfl⟩
  rw [Bool.or_eq_true, not_or] at hknown
  exact Std.ExtTreeMap.getElem?_eq_none_of_contains_eq_false (Bool.not_eq_true _ ▸ hknown.1)

/-- Looking at an operation is a matter of the records. -/
theorem settle_spec (harness : Harness) (op : PendingOp) :
    ∃ pending history, harness.settle op = { harness with pending, history } := by
  unfold settle
  split
  · exact ⟨_, _, rfl⟩
  · split <;> exact ⟨_, _, rfl⟩

theorem resolvePending_spec (harness : Harness) :
    ∃ pending history, harness.resolvePending = { harness with pending, history } := by
  have hall : ∀ (ops : List PendingOp) (start : Harness), ∃ pending history,
      ops.foldl settle start = { start with pending, history } := by
    intro ops
    induction ops with
    | nil => exact fun start => ⟨_, _, rfl⟩
    | cons op rest ih =>
        intro start
        obtain ⟨_, _, hfirst⟩ := start.settle_spec op
        obtain ⟨_, _, hrest⟩ := ih (start.settle op)
        exact ⟨_, _, by rw [List.foldl_cons, hrest, hfirst]⟩
  exact hall harness.pending { harness with pending := [] }

/-! ### The cluster that is played -/

/-- `cluster` has the nodes and storages of the harness, and all it is yet to deliver. -/
structure Mirrors (harness : Harness) (cluster : Cluster) : Prop where
  backed : harness.Backed
  peers : cluster.peers = harness.peers
  servers : ∀ id : NodeId, cluster.servers[id]? = harness.durable[id]?.map
    (fun storage => ⟨harness.replicas[id]?.map Replica.node, storage⟩)
  network : ∀ envelope, harness.Carries envelope → envelope ∈ cluster.network

namespace Mirrors

variable {cluster cluster' : Cluster}

theorem server (h : harness.Mirrors cluster) (hreplica : harness.replicas[id]? = some replica)
    {storage : Storage} (hstorage : harness.durable[id]? = some storage) :
    cluster.servers[id]? = some ⟨some replica.node, storage⟩ := by
  rw [h.servers, hstorage, hreplica]
  rfl

theorem node (h : harness.Mirrors cluster) (hreplica : harness.replicas[id]? = some replica) :
    cluster.node id = some replica.node := by
  obtain ⟨storage, hstorage⟩ := h.backed id replica hreplica
  exact Cluster.node_of_server (h.server hreplica hstorage) rfl

/-- One server has changed, with its replica. -/
theorem update (h : harness.Mirrors cluster) {storage : Storage} {server : Server}
    (hpeers : harness'.peers = harness.peers)
    (hreplicas : ∀ other : NodeId, other ≠ id →
      harness'.replicas[other]? = harness.replicas[other]?)
    (hdurable : ∀ other : NodeId, other ≠ id →
      harness'.durable[other]? = harness.durable[other]?)
    (hstorage : harness'.durable[id]? = some storage)
    (hserver : server = ⟨harness'.replicas[id]?.map Replica.node, storage⟩)
    (hcarries : ∀ envelope, harness'.Carries envelope →
      envelope ∈ Sim.sent id effects ∨ harness.Carries envelope) :
    harness'.Mirrors (cluster.update id server effects) where
  backed other found hfound := by
    by_cases hsame : other = id
    · exact ⟨storage, hsame ▸ hstorage⟩
    · rw [hreplicas other hsame] at hfound
      rw [hdurable other hsame]
      exact h.backed other found hfound
  peers := h.peers.trans hpeers.symm
  servers other := by
    rw [Cluster.servers_update]
    by_cases hsame : other = id
    · rw [hsame, Std.ExtTreeMap.getElem?_insert_self, hstorage, hserver]
      rfl
    · rw [getElem?_insert_other hsame, hreplicas other hsame, hdurable other hsame]
      exact h.servers other
  network envelope hmem := by
    rcases hcarries envelope hmem with hsent | hbefore
    · exact List.mem_append_right _ hsent
    · exact List.mem_append_left _ (h.network envelope hbefore)

/-- A request of a replica is one of its server. -/
theorem perform (h : harness.Mirrors cluster) (hreplica : harness.replicas[id]? = some replica)
    {operation : Operation} (hdelivers : cluster.delivers id operation = true)
    (hperform : replica.node.perform operation = some (next.node, effects))
    (hexecutes : harness.Executes id next effects harness') :
    ∃ cluster', cluster.step (.perform id operation) = some cluster' ∧
      harness'.Mirrors cluster' ∧ cluster.network ⊆ cluster'.network := by
  obtain ⟨storage, storage', trace, rng, inbox, hstorage, happly, rfl, hcarries⟩ := hexecutes
  refine ⟨cluster.update id ⟨some next.node, storage'⟩ effects, ?_,
    h.update rfl (fun _ => getElem?_insert_other) (fun _ => getElem?_insert_other)
      Std.ExtTreeMap.getElem?_insert_self ?_ hcarries, List.subset_append_left _ _⟩
  · simp only [Cluster.step, h.server hreplica hstorage, Option.bind_eq_bind, Option.bind_some,
      hdelivers, if_true, hperform, happly]
  · dsimp only
    rw [Std.ExtTreeMap.getElem?_insert_self]
    rfl

theorem crash (h : harness.Mirrors cluster) (hreplica : harness.replicas[id]? = some replica) :
    ∃ cluster', cluster.step (.crash id) = some cluster' ∧
      (harness.crash id).Mirrors cluster' := by
  obtain ⟨storage, hstorage⟩ := h.backed id replica hreplica
  have hup : harness.replicas.contains id = true := by
    rw [Std.ExtTreeMap.contains_eq_isSome_getElem?, hreplica]
    rfl
  rw [Harness.crash, if_pos hup]
  refine ⟨cluster.update id ⟨none, storage⟩ [], ?_,
    h.update rfl (fun other hne => ?_) (fun _ _ => rfl) hstorage ?_ (fun _ => Or.inr)⟩
  · simp only [Cluster.step, h.server hreplica hstorage, Option.bind_eq_bind, Option.bind_some]
  · exact getElem?_erase_other hne
  · exact congrArg (fun node => Server.mk node storage)
      (congrArg (Option.map Replica.node) Std.ExtTreeMap.getElem?_erase_self).symm

theorem restart (h : harness.Mirrors cluster) (hdown : harness.replicas[id]? = none)
    {storage : Storage} (hstorage : harness.durable[id]? = some storage)
    (hrecover : Node.recover id harness.peers harness.electionTimeout
      harness.heartbeatInterval storage.hardState storage.log
      ⟨storage.snapshot, storage.snapshotData, storage.snapshotConfig⟩
      storage.learners = .ok replica.node) :
    ∃ cluster',
      cluster.step (.restart id harness.electionTimeout harness.heartbeatInterval) =
        some cluster' ∧
      (recordFault { harness with replicas := harness.replicas.insert id replica }
        id .restarted).Mirrors cluster' := by
  have hserver : cluster.servers[id]? = some ⟨none, storage⟩ := by
    rw [h.servers, hstorage, hdown]
    rfl
  refine ⟨cluster.update id ⟨some replica.node, storage⟩ [], ?_,
    h.update rfl (fun other hne => ?_) (fun _ _ => rfl) hstorage ?_ (fun _ => Or.inr)⟩
  · simp only [Cluster.step, hserver, Option.bind_eq_bind, Option.bind_some,
      Option.isNone_none, if_true, h.peers, hrecover]
  · exact getElem?_insert_other hne
  · exact congrArg (fun node => Server.mk node storage)
      (congrArg (Option.map Replica.node) Std.ExtTreeMap.getElem?_insert_self).symm

end Mirrors

end Harness

/-! ### What has been applied -/

/-- What the replica of `id` has applied is a committed beginning of its log. -/
structure Reflects (h : Ghost) (id : NodeId) (replica : Replica) : Prop where
  applied : replica.Exact ((h.log id).take replica.lastApplied)
  covered : h.Covered (h.term id) h.clock ((h.log id).take replica.lastApplied)

namespace Reflects

variable {h h' : Ghost} {id : NodeId} {replica next : Replica}

theorem held (hreflects : Reflects h id replica) :
    replica.lastApplied ≤ (h.log id).length := by
  have hheld := hreflects.applied.stands.held
  rw [List.length_take] at hheld
  exact hheld.trans (Nat.min_le_right _ _)

theorem later (hreflects : Reflects h id replica) (hext : h.Extends h')
    (hkeeps : h.Keeps h') : Reflects h' id replica := by
  obtain ⟨rest, hrest⟩ := hkeeps id _ hreflects.covered (List.take_prefix _ _)
  have hsame : (h'.log id).take replica.lastApplied =
      (h.log id).take replica.lastApplied := by
    rw [← hrest]
    exact List.take_left' (List.length_take_of_le hreflects.held)
  refine ⟨hsame ▸ hreflects.applied, ?_⟩
  rw [hsame]
  exact hext.covered hreflects.covered (hext.term id) hext.clock

/-- A replica that has just started has applied nothing. -/
theorem started {node : Node} (hrecover : Replica.recover node = .ok replica)
    (hboundary : node.snapshot.lastIncludedIndex = 0) : Reflects h id replica := by
  obtain ⟨-, hempty, hnew, -⟩ := Replica.recover_spec hrecover
  have hmachine := hnew hboundary
  have hnone : replica.lastApplied = 0 := congrArg StateMachine.lastApplied hmachine
  have hnil : (h.log id).take replica.lastApplied = [] := by rw [hnone, List.take_zero]
  refine ⟨?_, Or.inl hnil⟩
  rw [hnil]
  refine ⟨hmachine ▸ .initial [], fun index result hresult => ?_⟩
  exact absurd hresult (Replica.appliedResult_of_empty hempty)

/-- A request applies what its node has come to know as committed. -/
theorem served {initial : ClusterConfig} {request : Request} {deliveries : List Delivery}
    (hreflects : Reflects h id replica) (s : h.Sound (Sim.membership initial))
    (hperform : replica.perform request = .ok (next, deliveries))
    (hrel : Sim.NodeRel initial h next.node) (hid : next.node.id = id)
    (hboundary : next.node.snapshot.lastIncludedIndex = 0) : Reflects h id next := by
  obtain ⟨middle, applied, happlies, ⟨hmachine, hresults, -⟩ | ⟨hahead, -, -⟩⟩ :=
    Replica.perform_applies hperform
  · have hfirst : middle.lastApplied = replica.lastApplied :=
      congrArg StateMachine.lastApplied hmachine
    have hle : replica.lastApplied ≤ next.lastApplied := hfirst ▸ happlies.spec.2.1.le
    have hexact : middle.Exact ((h.log id).take replica.lastApplied) := by
      refine ⟨hmachine ▸ hreflects.applied.stands, fun index result hresult => ?_⟩
      unfold Replica.appliedResult at hresult
      rw [hresults] at hresult
      exact hreflects.applied.results index result hresult
    obtain ⟨more, hmore⟩ : (h.log id).take replica.lastApplied <+:
        (h.log id).take next.lastApplied := List.take_prefix_take_left hle
    refine ⟨happlies.exact (fun index hlow hhigh => ?_) (hmore ▸ hexact.append more), ?_⟩
    · rw [hrel.entryAt_whole hboundary (Nat.zero_lt_of_lt hlow), hid, List.getElem?_take,
        if_pos (by omega)]
    · rcases happlies.reached with hsame | hcommitted
      · rw [hsame, hfirst]
        exact hreflects.covered
      · have hcovered := hrel.committed_covered s
        rw [← hrel.term, hid] at hcovered
        exact hcovered.shorten (List.take_prefix_take_left hcommitted)
  · rw [hboundary] at hahead
    exact absurd hahead (Nat.not_lt_zero _)

end Reflects

end Kurogane.Verify
