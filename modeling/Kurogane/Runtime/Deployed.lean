import Kurogane.Runtime.Deployment

/-!
What the runs of a deployment are: runs of the cluster whose nodes its processes hold. A
request an actor has served is the batch of the request and that of the compaction after
it, and a process that stops in the middle has carried out a part of one of them.
-/

namespace Kurogane.Sim

open Kurogane.Raft Kurogane.Runtime
open Kurogane.Kv (Replica)

/-- Rules for a run: what may be asked of a node, and what part of a batch a crash may
leave. -/
structure Rules where
  asks : Node → Operation → Prop
  leaves : List Effect → Prop
  nothing : leaves []
  rest : ∀ first second, leaves (first ++ second) → second ≠ [] → leaves second

/-- The rules of the protocol in a cluster of these founders: whoever campaigns or compacts
is informed of the membership, and no crash separates a snapshot from its splice. -/
def Rules.guarded (founders : List NodeId) : Rules where
  asks node operation :=
    node.Guarded operation ∧ node.KnowsMembership ⟨founders, none⟩ operation
  leaves := Settled
  nothing := settled_nil
  rest _ _ h := h.of_append

instance (founders : List NodeId) (node : Node) :
    DecidablePred ((Rules.guarded founders).asks node) := fun operation =>
  inferInstanceAs (Decidable (node.Guarded operation ∧ node.KnowsMembership _ operation))

instance (founders : List NodeId) : DecidablePred (Rules.guarded founders).leaves :=
  inferInstanceAs (DecidablePred Settled)

def Cluster.CrashesLeave (leaves : List Effect → Prop) (cluster : Cluster) : Action → Prop
  | .interrupt id operation written => cluster.delivers id operation = true →
      ∀ node ∈ cluster.node id, ∀ result ∈ node.perform operation,
        leaves (result.2.take written)
  | .perform _ _ | .crash _ | .restart _ _ _ => True

/-- What a move asks of a node and what it leaves of a batch keeps to the rules. -/
def Cluster.Meets (rules : Rules) (cluster : Cluster) : Move → Prop
  | .act action => cluster.Serving rules.asks action ∧ cluster.CrashesLeave rules.leaves action
  | .start _ _ => True

theorem Cluster.Meets.mono {rules rules' : Rules} {cluster : Cluster} {move : Move}
    (h : cluster.Meets rules move)
    (hasks : ∀ node operation, rules.asks node operation → rules'.asks node operation)
    (hleaves : ∀ effects, rules.leaves effects → rules'.leaves effects) :
    cluster.Meets rules' move := by
  cases move with
  | start id environment => trivial
  | act action =>
      obtain ⟨hserving, hcrashes⟩ := h
      refine ⟨hserving.imp hasks, ?_⟩
      cases action with
      | interrupt id operation written =>
          exact fun hdelivers node hnode result hresult =>
            hleaves _ (hcrashes hdelivers node hnode result hresult)
      | perform id operation | crash id | restart id electionTimeout heartbeatInterval => trivial

theorem Cluster.Meets.orderly {cluster : Cluster} {move : Move}
    (h : cluster.Meets (.guarded cluster.peers) move) : cluster.Orderly move := by
  cases move with
  | start id environment => trivial
  | act action =>
      obtain ⟨hserving, hcrashes⟩ := h
      refine ⟨⟨hserving.imp fun _ _ hasked => hasked.1, ?_⟩,
        hserving.imp fun _ _ hasked => hasked.2⟩
      cases action with
      | interrupt id operation written => exact hcrashes
      | perform id operation | crash id | restart id electionTimeout heartbeatInterval => trivial

/-- Only the server of `id` has become another, and these effects have been sent. -/
structure Fleet.Becomes (fleet : Fleet) (id : NodeId) (replica : Option Replica)
    (storage : Storage) (effects : List Effect) (fleet' : Fleet) : Prop where
  peers : fleet'.cluster.peers = fleet.cluster.peers
  servers : ∀ other : NodeId, fleet'.cluster.servers[other]? =
    if other = id then some ⟨replica.map Replica.node, storage⟩
    else fleet.cluster.servers[other]?
  replicas : ∀ other, fleet'.replicas other =
    if other = id then replica else fleet.replicas other
  network : ∀ envelope ∈ fleet.cluster.network ++ sent id effects,
    envelope ∈ fleet'.cluster.network

namespace Fleet

variable {fleet fleet' last : Fleet} {id : NodeId} {replica : Option Replica}
  {storage : Storage} {effects : List Effect} {move : Move} {reached : Nat}
  {ok ok' : Cluster → Move → Prop}

theorem becomes_update (fleet : Fleet) (id : NodeId) (replica : Option Replica)
    (storage : Storage) (effects : List Effect) :
    fleet.Becomes id replica storage effects (fleet.update id replica storage effects) where
  peers := rfl
  servers other := by
    show (fleet.cluster.servers.insert id _)[other]? = _
    rw [Std.ExtTreeMap.getElem?_insert]
    by_cases hsame : other = id
    · rw [if_pos hsame, hsame, if_pos Std.ReflCmp.compare_self]
    · rw [if_neg hsame,
        if_neg (fun heq => hsame (Std.LawfulEqCmp.eq_of_compare heq).symm)]
  replicas other := Function.update_apply _ _ _ _
  network envelope hmem := hmem

theorem Becomes.update (h : fleet.Becomes id replica storage effects fleet')
    (replica' : Option Replica) (storage' : Storage) (more : List Effect) :
    fleet.Becomes id replica' storage' (effects ++ more)
      (fleet'.update id replica' storage' more) := by
  have hlast := fleet'.becomes_update id replica' storage' more
  refine ⟨hlast.peers.trans h.peers, fun other => ?_, fun other => ?_, fun envelope hmem => ?_⟩
  · rw [hlast.servers, h.servers]
    split <;> rfl
  · rw [hlast.replicas, h.replicas]
    split <;> rfl
  · refine hlast.network envelope (List.mem_append.mpr ?_)
    have hsent : sent id (effects ++ more) = sent id effects ++ sent id more :=
      List.filterMap_append
    rw [hsent, ← List.append_assoc] at hmem
    rcases List.mem_append.mp hmem with hmem | hmem
    · exact Or.inl (h.network envelope hmem)
    · exact Or.inr hmem

theorem Becomes.fewer {executed : List Effect}
    (h : fleet.Becomes id replica storage effects fleet')
    (hsub : ∀ effect ∈ executed, effect ∈ effects) :
    fleet.Becomes id replica storage executed fleet' where
  peers := h.peers
  servers := h.servers
  replicas := h.replicas
  network envelope hmem := by
    refine h.network envelope (List.mem_append.mpr ?_)
    rcases List.mem_append.mp hmem with hmem | hmem
    · exact Or.inl hmem
    · obtain ⟨effect, heffect, hsent⟩ := List.mem_filterMap.mp hmem
      exact Or.inr (List.mem_filterMap.mpr ⟨effect, hsub effect heffect, hsent⟩)

/-! ### Runs -/

theorem Run.one (hok : ok fleet.cluster move) (hstep : fleet.Step move reached fleet') :
    Run ok fleet reached fleet' := by
  have hrun : Run ok fleet (max reached 0) fleet' := .head hok hstep .refl
  rwa [Nat.max_zero] at hrun

theorem Run.trans {later : Nat} (hrun : Run ok fleet reached fleet')
    (hrest : Run ok fleet' later last) : Run ok fleet (max reached later) last := by
  induction hrun with
  | refl =>
      rw [Nat.zero_max]
      exact hrest
  | head hok hstep _ ih =>
      rw [Nat.max_assoc]
      exact .head hok hstep (ih hrest)

theorem Run.mono (hok : ∀ c m, ok c m → ok' c m) (hrun : Run ok fleet reached fleet') :
    Run ok' fleet reached fleet' := by
  induction hrun with
  | refl => exact .refl
  | head hmove hstep _ ih => exact .head (hok _ _ hmove) hstep ih

/-- A run of the fleet is one of its cluster. -/
theorem Run.growth {start : Cluster} {past : List Cluster}
    (hrun : Run ok fleet reached fleet') (hpast : Growth ok start (fleet.cluster :: past)) :
    ∃ later, Growth ok start (fleet'.cluster :: later) := by
  induction hrun generalizing past with
  | refl => exact ⟨past, hpast⟩
  | head hmove hstep _ ih => exact ih (hpast.tail hmove hstep.cluster)

theorem supplies_anything (cluster : Cluster) (move : Move) :
    cluster.Supplies (fun _ => True) move := by
  cases move with
  | start id environment => trivial
  | act action =>
      cases action with
      | perform id operation | interrupt id operation written =>
          exact fun _ _ _ hown => Operation.fit_own hown
      | crash id | restart id electionTimeout heartbeatInterval => trivial

theorem Run.fit (hrun : Run ok fleet reached fleet')
    (hfit : fleet.cluster.Fit (fun _ => True)) : fleet'.cluster.Fit (fun _ => True) := by
  induction hrun with
  | refl => exact hfit
  | head _ hstep _ ih => exact ih (hfit.move trivial (supplies_anything _ _) hstep.cluster)

/-! ### One server -/

/-- `id` runs with this replica and storage. -/
structure Holds (fleet : Fleet) (id : NodeId) (replica : Replica) (storage : Storage) :
    Prop where
  server : fleet.cluster.servers[id]? = some ⟨some replica.node, storage⟩
  replica : fleet.replicas id = some replica

namespace Holds

variable {replica next : Replica} {storage' : Storage} {operation : Operation}
  {rules : Rules}

theorem node (h : fleet.Holds id replica storage) : fleet.cluster.node id = some replica.node :=
  Cluster.node_of_server h.server rfl

theorem of_becomes (h : fleet.Becomes id (some next) storage effects fleet') :
    fleet'.Holds id next storage := by
  refine ⟨?_, ?_⟩
  · rw [h.servers, if_pos rfl]
    rfl
  · rw [h.replicas, if_pos rfl]

theorem becomes_self (h : fleet.Holds id replica storage) :
    fleet.Becomes id (some replica) storage [] fleet where
  peers := rfl
  servers other := by
    split
    · rename_i hsame
      rw [hsame]
      exact h.server
    · rfl
  replicas other := by
    split
    · rename_i hsame
      rw [hsame]
      exact h.replica
    · rfl
  network envelope hmem := by
    rcases List.mem_append.mp hmem with hmem | hmem
    · exact hmem
    · cases hmem

theorem serving (h : fleet.Holds id replica storage) (hmeets : rules.asks replica.node operation) :
    fleet.cluster.Serving rules.asks (.perform id operation) := by
  intro _ node hnode
  rw [h.node] at hnode
  cases hnode
  exact hmeets

theorem performed (rules : Rules) (h : fleet.Holds id replica storage)
    (hdelivers : fleet.cluster.delivers id operation = true)
    (hperforms : replica.Performs operation next effects)
    (happly : storage.applyAll effects = some storage') :
    Run (fun c m => rules.asks replica.node operation → c.Meets rules m) fleet next.lastApplied
      (fleet.update id (some next) storage' effects) := by
  have hmeets : rules.asks replica.node operation →
      fleet.cluster.Meets rules (.act (.perform id operation)) :=
    fun hasked => And.intro (h.serving hasked) trivial
  exact .one hmeets (.performed h.server h.replica hdelivers hperforms happly)

theorem interrupted (rules : Rules) (h : fleet.Holds id replica storage)
    {written : Nat}
    (hdelivers : fleet.cluster.delivers id operation = true)
    (hperforms : replica.Performs operation next effects)
    (happly : storage.applyAll (effects.take written) = some storage') :
    Run (fun c m => rules.asks replica.node operation ∧ rules.leaves (effects.take written) →
      c.Meets rules m) fleet 0 (fleet.update id none storage' (effects.take written)) := by
  refine .one ?_ (.interrupted h.server h.replica hdelivers hperforms happly)
  rintro ⟨hmeets, hsettled⟩
  refine And.intro (h.serving hmeets) fun _ node hnode result hresult => ?_
  rw [h.node] at hnode
  cases hnode
  rw [hperforms.node] at hresult
  cases hresult
  exact hsettled

theorem crashed (rules : Rules) (h : fleet.Holds id replica storage) :
    Run (Cluster.Meets rules) fleet 0 (fleet.update id none storage []) := by
  have hmeets : fleet.cluster.Meets rules (.act (.crash id)) := And.intro trivial trivial
  exact .one hmeets (.crashed h.server)

end Holds

end Fleet

end Kurogane.Sim

namespace Kurogane.Runtime

open Kurogane.Raft
open Kurogane.Kv (Replica)
open Kurogane.Sim (Envelope Server Cluster Fleet Rules sent)

/-! ### Batches of an actor -/

/-- Peers ask with requests and answer with responses. -/
def ActorRequest.Proper : ActorRequest → Prop
  | .peerRequest _ message => message.isRequest = true
  | .peerResponse _ message => message.isRequest = false
  | _ => True

namespace Actor

/-- What a request asks of the node is allowed, and so is the compaction that follows. -/
structure Meets (rules : Rules) (actor : Actor) (request : ActorRequest) : Prop where
  asked : ∀ operation ∈ request.operation, rules.asks actor.replica.node operation
  compacts : ∀ served ∈ (actor.attend request).toOption, ∀ operation ∈ actor.due served,
    rules.asks served.1.node operation

instance (rules : Rules) [∀ node, DecidablePred (rules.asks node)] (actor : Actor) :
    DecidablePred (actor.Meets rules) := fun request =>
  decidable_of_iff ((∀ operation ∈ request.operation, rules.asks actor.replica.node operation) ∧
      ∀ served ∈ (actor.attend request).toOption, ∀ operation ∈ actor.due served,
        rules.asks served.1.node operation)
    ⟨fun ⟨hasked, hcompacts⟩ => ⟨hasked, hcompacts⟩, fun h => ⟨h.asked, h.compacts⟩⟩

theorem reaches_of_attend {actor : Actor} {request : ActorRequest} {replica : Replica}
    {answer : Option (List Effect)} (h : actor.attend request = .ok (replica, answer)) :
    actor.reaches request = replica.lastApplied := by
  unfold reaches
  rw [h]
  rfl

/-- What is not carried out of a batch is the answer to a peer. -/
structure Splits (request : ActorRequest) (id : NodeId) (emitted : List Effect) : Prop where
  whole : ∃ answers, (∀ effect ∈ answers, effect.isSend = true) ∧
    emitted = request.carried emitted ++ answers
  signed : ∀ effect ∈ request.carried emitted, effect.Signed (fun _ => True) id

theorem splits_of_perform {request : ActorRequest} {operation : Operation}
    {node node' : Node} {emitted : List Effect} (hfit : node.Fit (fun _ => True))
    (hproper : request.Proper) (hoperation : request.operation = some operation)
    (hfits : operation.Fit (fun _ => True))
    (h : node.perform operation = some (node', emitted)) : Splits request node.id emitted := by
  have hown : (∀ sender message, operation = .receive sender message →
      message.isRequest = false) → request.carried emitted = emitted →
        Splits request node.id emitted := by
    intro hresponse hsame
    refine ⟨⟨[], List.forall_mem_nil _, by rw [hsame, List.append_nil]⟩, ?_⟩
    rw [hsame]
    exact Node.perform_signed hfit hfits hresponse h
  cases request with
  | peerRequest sender message =>
      cases hoperation
      have hstep : node.step (.step sender message) = some (node', emitted) := h
      obtain ⟨hwritten, hwhole⟩ := carried_peerRequest hfit hfits hproper hstep
      refine ⟨?_, fun effect hmem => ⟨?_, ?_⟩⟩
      · rcases hwhole with rfl | ⟨reply, hreplies, hwhole⟩
        · exact ⟨[], List.forall_mem_nil _, rfl⟩
        · exact ⟨_, List.forall_mem_singleton.mpr rfl, hwhole⟩
      · have hmember : effect ∈ emitted :=
          List.mem_of_mem_dropLast (List.mem_of_mem_filter hmem)
        exact (Node.request_answerTo hfit hfits hproper hstep effect hmember).1
      · rintro receiver message rfl
        exact absurd (hwritten _ hmem) Bool.noConfusion
  | peerResponse sender message =>
      cases hoperation
      exact hown (by rintro sender message ⟨⟩; exact hproper) rfl
  | tick nextTimeout | propose command | proposeConfigChange newVoters
  | addLearner id reachable | removeLearner id =>
      cases hoperation
      exact hown nofun rfl
  | appliedResult index | entryTerm index => cases hoperation

/-- The batch of a compaction is carried out as it is. -/
theorem compaction_signed {node node' : Node} {upToIndex : Nat} {data : Bytes}
    {more : List Effect} (hfit : node.Fit (fun _ => True))
    (h : node.perform (.compact upToIndex data) = some (node', more)) :
    ∀ effect ∈ more, effect.Signed (fun _ => True) node.id := by
  have hfits : Operation.Fit (fun _ => True) (.compact upToIndex data) := trivial
  exact Node.perform_signed hfit hfits nofun h

end Actor

theorem Storage.applyAll_sends {effects : List Effect} (storage : Storage)
    (hsends : ∀ effect ∈ effects, effect.isSend = true) :
    storage.applyAll effects = some storage := by
  induction effects with
  | nil => rfl
  | cons effect rest ih =>
      obtain ⟨hfirst, hrest⟩ := List.forall_mem_cons.mp hsends
      cases effect with
      | send receiver message => exact ih hrest
      | _ => cases hfirst

theorem Storage.applyAll_append (storage : Storage) (first second : List Effect) :
    storage.applyAll (first ++ second) =
      (storage.applyAll first).bind (fun middle => middle.applyAll second) :=
  List.foldlM_append

/-- What is asked of `id` has been sent to it, or comes from its owner. -/
structure Arrives (fleet : Fleet) (id : NodeId) (request : ActorRequest) : Prop where
  proper : request.Proper
  delivers : ∀ operation ∈ request.operation, fleet.cluster.delivers id operation = true

/-- What a fleet does while the process of `id` becomes `host` by `executed`; it is a
sequence of protocol steps where `ok` holds. -/
structure Acts (rules : Rules) (fleet : Fleet) (id : NodeId) (ok : Prop)
    (host : Host) (executed : List Effect) (limit : Nat) (fleet' : Fleet) : Prop where
  run : ∃ reached ≤ limit, Fleet.Run (fun c m => ok → c.Meets rules m) fleet reached fleet'
  becomes : fleet.Becomes id host.replica host.storage executed fleet'
  signed : ∀ effect ∈ executed, effect.Signed (fun _ => True) id

section Serving

variable {fleet : Fleet} {id : NodeId} {actor next : Actor} {request : ActorRequest}
  {reply : ActorReply} {operation : Operation} {replica : Replica} {emitted : List Effect}
  {storage : Storage} {rules : Rules}

theorem splits (h : fleet.Holds id actor.replica storage)
    (hfit : fleet.cluster.Fit (fun _ => True)) (harrives : Arrives fleet id request)
    (hoperation : request.operation = some operation)
    (hperforms : actor.replica.Performs operation replica emitted) :
    Actor.Splits request id emitted := by
  obtain ⟨rfl, hnode⟩ := hfit.of_node h.node
  exact Actor.splits_of_perform hnode harrives.proper hoperation
    (hfit.operation (harrives.delivers operation hoperation) Operation.fit_own)
    hperforms.node

/-- All that a request makes the actor carry out is in its own name, wherever it stops. -/
theorem carriesOut_signed (h : fleet.Holds id actor.replica storage)
    (hfit : fleet.cluster.Fit (fun _ => True)) (harrives : Arrives fleet id request) :
    ∀ effect ∈ actor.carriesOut request, effect.Signed (fun _ => True) id := by
  rcases actor.carriesOut_cases request with hnothing |
    ⟨operation, replica, emitted, answer, hoperation, -, hperforms,
      hcarries | ⟨upToIndex, data, last, more, -, hcompacts, hcarries⟩⟩
  · rw [hnothing]
    exact List.forall_mem_nil _
  · rw [hcarries]
    exact (splits h hfit harrives hoperation hperforms).signed
  · rw [hcarries]
    refine List.forall_mem_append.mpr
      ⟨(splits h hfit harrives hoperation hperforms).signed, ?_⟩
    obtain ⟨rfl, hnode⟩ := hfit.of_node h.node
    have hasked : operation.Fit (fun _ => True) :=
      hfit.operation (harrives.delivers operation hoperation) Operation.fit_own
    have hnode' := (Node.perform_fit hnode hasked hperforms.node).1
    rw [← (Node.perform_writeAhead hperforms.node).id]
    exact Actor.compaction_signed hnode' hcompacts.node

/-- The batch of a request as a step of the cluster; the answer is sent with it. -/
theorem first_acts (rules : Rules)
    (h : fleet.Holds id actor.replica actor.storage)
    (hfit : fleet.cluster.Fit (fun _ => True)) (harrives : Arrives fleet id request)
    (hoperation : request.operation = some operation)
    (hperforms : actor.replica.Performs operation replica emitted)
    (happly : actor.storage.applyAll (request.carried emitted) = some storage) :
    Fleet.Run (fun c m => actor.Meets rules request → c.Meets rules m) fleet replica.lastApplied
      (fleet.update id (some replica) storage emitted) := by
  obtain ⟨answers, hsends, hwhole⟩ := (splits h hfit harrives hoperation hperforms).whole
  have hemitted : actor.storage.applyAll emitted = some storage := by
    rw [hwhole, Storage.applyAll_append, happly]
    exact storage.applyAll_sends hsends
  exact (h.performed rules (harrives.delivers operation hoperation) hperforms hemitted).mono
    (fun c m hok hmeets => hok (hmeets.asked operation hoperation))

/-- The batch of the compaction that may follow. -/
theorem compaction_acts {last : Replica} {upToIndex : Nat} {data : Bytes} {more : List Effect}
    {storage' : Storage} (rules : Rules) (h : fleet.Holds id replica storage)
    (hcompacts : replica.Performs (.compact upToIndex data) last more)
    (happly : storage.applyAll more = some storage') :
    Fleet.Run (fun c m => rules.asks replica.node (.compact upToIndex data) → c.Meets rules m)
      fleet replica.lastApplied (fleet.update id (some last) storage' more) := by
  have happlied := (hcompacts.compacts upToIndex data rfl).2.2
  rw [← happlied]
  exact h.performed rules rfl hcompacts happly

/-- A request that has been served is one step of the cluster, or two. -/
theorem served_acts (h : fleet.Holds id actor.replica actor.storage)
    (hfit : fleet.cluster.Fit (fun _ => True)) (harrives : Arrives fleet id request)
    (hserve : actor.serve request = .ok (next, reply)) (transport : Transport) :
    ∃ fleet', Acts rules fleet id (actor.Meets rules request) (.running next transport)
      (actor.carriesOut request) (actor.reaches request) fleet' ∧
      ∀ operation node emitted, request.operation = some operation →
        actor.replica.node.perform operation = some (node, emitted) →
        ∀ envelope ∈ sent id emitted, envelope ∈ fleet'.cluster.network := by
  have hsigned := carriesOut_signed h hfit harrives
  obtain ⟨hstorage, ⟨hnone, hsame, hnothing⟩ | ⟨operation, replica, emitted, answer, hoperation,
    hattend, hperforms, hbatches⟩⟩ := Actor.serve_performs hserve
  · rw [hnothing] at hstorage hsigned ⊢
    have hkept : actor.storage = next.storage := Option.some_inj.mp hstorage
    rw [← hsame, hkept] at h
    refine ⟨fleet, ⟨⟨0, Nat.zero_le _, .refl⟩, h.becomes_self, hsigned⟩,
      fun operation _ _ hoperation => ?_⟩
    rw [hnone] at hoperation
    cases hoperation
  have hsplits := splits h hfit harrives hoperation hperforms
  have hreaches := (Actor.reaches_of_attend hattend).ge
  have hcarried : ∀ effect ∈ request.carried emitted, effect ∈ emitted := by
    obtain ⟨answers, -, hwhole⟩ := hsplits.whole
    exact fun effect hmem => hwhole ▸ List.mem_append_left answers hmem
  have hsame : ∀ other node found, request.operation = some other →
      actor.replica.node.perform other = some (node, found) → found = emitted := by
    intro other node found hother hfound
    rw [hoperation] at hother
    cases hother
    rw [hperforms.node] at hfound
    cases hfound
    rfl
  rcases hbatches with ⟨rfl, hcarries⟩ | ⟨upToIndex, data, more, hdue, hcompacts, hcarries⟩
  · rw [hcarries] at hstorage hsigned ⊢
    have hbecomes := fleet.becomes_update id (some next.replica) next.storage emitted
    refine ⟨_, ⟨⟨_, hreaches, first_acts rules h hfit harrives hoperation hperforms hstorage⟩,
      hbecomes.fewer hcarried, hsigned⟩, ?_⟩
    intro other node found hother hfound envelope hmem
    rw [hsame other node found hother hfound] at hmem
    exact hbecomes.network envelope (List.mem_append_right _ hmem)
  · rw [hcarries] at hstorage hsigned ⊢
    rw [Storage.applyAll_append] at hstorage
    obtain ⟨middle, hmiddle, hlast⟩ := Option.bind_eq_some_iff.mp hstorage
    have hrun := first_acts rules h hfit harrives hoperation hperforms hmiddle
    have hfirst := fleet.becomes_update id (some replica) middle emitted
    have hholds := Fleet.Holds.of_becomes hfirst
    have hrest := (compaction_acts rules hholds hcompacts hlast).mono
      (fun c m hok (hmeets : actor.Meets rules request) =>
        hok (hmeets.compacts _ (by rw [hattend]; rfl) _ hdue))
    have hbecomes := hfirst.update (some next.replica) next.storage more
    refine ⟨_, ⟨⟨_, (max_self _).le.trans hreaches, hrun.trans hrest⟩,
      hbecomes.fewer fun effect hmem => ?_, hsigned⟩, ?_⟩
    · rcases List.mem_append.mp hmem with hmem | hmem
      · exact List.mem_append_left _ (hcarried effect hmem)
      · exact List.mem_append_right _ hmem
    · intro other node found hother hfound envelope hmem
      rw [hsame other node found hother hfound] at hmem
      exact hbecomes.network envelope (List.mem_append_right _ (by
        rw [sent, List.filterMap_append]
        exact List.mem_append_left _ hmem))

/-- A process that stops in the middle of a request has carried out a part of its batch,
or all of it and a part of the compaction. -/
theorem interrupted_acts (h : fleet.Holds id actor.replica actor.storage)
    (hfit : fleet.cluster.Fit (fun _ => True)) (harrives : Arrives fleet id request)
    {written : Nat}
    (happly : actor.storage.applyAll ((actor.carriesOut request).take written) =
      some storage) :
    ∃ fleet', Acts rules fleet id
      (actor.Meets rules request ∧ rules.leaves ((actor.carriesOut request).take written))
      (.stopped storage) ((actor.carriesOut request).take written)
      (actor.reaches request) fleet' := by
  have hsigned : ∀ effect ∈ (actor.carriesOut request).take written,
      effect.Signed (fun _ => True) id := fun effect hmem =>
    carriesOut_signed h hfit harrives effect (List.mem_of_mem_take hmem)
  rcases actor.carriesOut_cases request with hnothing |
    ⟨operation, replica, emitted, answer, hoperation, hattend, hperforms, hbatches⟩
  · rw [hnothing, List.take_nil] at happly hsigned ⊢
    cases happly
    exact ⟨_, ⟨0, Nat.zero_le _, (h.crashed rules).mono (fun c m hok _ => hok)⟩,
      fleet.becomes_update id none actor.storage [], hsigned⟩
  have hsplits := splits h hfit harrives hoperation hperforms
  have hreaches := (Actor.reaches_of_attend hattend).ge
  obtain ⟨answers, hsends, hwhole⟩ := hsplits.whole
  have hdelivers := harrives.delivers operation hoperation
  -- a part of the batch of the request
  have hpart : ∀ part : Nat, part ≤ (request.carried emitted).length →
      (actor.carriesOut request).take written = (request.carried emitted).take part →
        ∃ fleet', Acts rules fleet id
          (actor.Meets rules request ∧ rules.leaves ((actor.carriesOut request).take written))
          (.stopped storage) ((actor.carriesOut request).take written)
          (actor.reaches request) fleet' := by
    intro part hle htake
    have hemitted : (request.carried emitted).take part = emitted.take part := by
      nth_rewrite 2 [hwhole]
      rw [List.take_append_of_le_length hle]
    rw [htake] at happly hsigned ⊢
    have hrun := h.interrupted rules hdelivers hperforms (hemitted ▸ happly)
    rw [← hemitted] at hrun
    refine ⟨_, ⟨0, Nat.zero_le _, hrun.mono ?_⟩,
      fleet.becomes_update id none storage _, hsigned⟩
    rintro c m hok ⟨hmeets, hsettled⟩
    exact hok ⟨hmeets.asked operation hoperation, hsettled⟩
  rcases hbatches with hcarries | ⟨upToIndex, data, last, more, hdue, hcompacts, hcarries⟩
  · refine hpart (min written (request.carried emitted).length) (Nat.min_le_right _ _) ?_
    rw [hcarries, ← List.take_take, List.take_length]
  rcases Nat.le_total written (request.carried emitted).length with hle | hle
  · refine hpart written hle ?_
    rw [hcarries, List.take_append_of_le_length hle]
  have htake : (actor.carriesOut request).take written = request.carried emitted ++
      more.take (written - (request.carried emitted).length) := by
    rw [hcarries, List.take_append, List.take_of_length_le hle]
  generalize written - (request.carried emitted).length = part at htake
  rw [htake] at happly hsigned ⊢
  rw [Storage.applyAll_append] at happly
  obtain ⟨middle, hmiddle, hlast⟩ := Option.bind_eq_some_iff.mp happly
  have hrun := first_acts rules h hfit harrives hoperation hperforms hmiddle
  have hfirst := fleet.becomes_update id (some replica) middle emitted
  have hholds := Fleet.Holds.of_becomes hfirst
  have hrest := hholds.interrupted rules rfl hcompacts hlast
  have hsettled : rules.leaves (request.carried emitted ++ more.take part) →
      rules.leaves (more.take part) := by
    intro hsettled
    by_cases hnone : more.take part = []
    · rw [hnone]
      exact rules.nothing
    · exact rules.rest _ _ hsettled hnone
  refine ⟨_, ⟨max replica.lastApplied 0, ?_, .trans ?_ (hrest.mono ?_)⟩,
    (hfirst.update none storage _).fewer ?_, hsigned⟩
  · rw [Nat.max_zero]
    exact hreaches
  · exact hrun.mono (fun c m hok hmeets => hok hmeets.1)
  · refine fun c m hok hmeets => hok ⟨?_, hsettled hmeets.2⟩
    exact hmeets.1.compacts _ (by rw [hattend]; rfl) _ hdue
  · intro effect hmem
    rcases List.mem_append.mp hmem with hmem | hmem
    · refine List.mem_append_left _ ?_
      rw [hwhole]
      exact List.mem_append_left _ hmem
    · exact List.mem_append_right _ hmem

end Serving

/-! ### The processes and the cluster -/

namespace Deployment

/-- What a process is asked is allowed, and so is what it leaves where it stops. -/
def Meets (rules : Rules) (deployment : Deployment) : Action → Prop
  | .serve input => ∀ request ∈ deployment.request input,
      ∀ actor ∈ deployment.actor input.host, actor.Meets rules request
  | .interrupt input written => ∀ request ∈ deployment.request input,
      ∀ actor ∈ deployment.actor input.host, actor.Meets rules request ∧
        rules.leaves ((actor.carriesOut request).take written)
  | .crash _ | .start _ _ => True

instance (rules : Rules) [∀ node, DecidablePred (rules.asks node)]
    [DecidablePred rules.leaves] (deployment : Deployment) :
    DecidablePred (deployment.Meets rules) := fun action =>
  match action with
  | .serve input => inferInstanceAs (Decidable (∀ request ∈ deployment.request input,
      ∀ actor ∈ deployment.actor input.host, actor.Meets rules request))
  | .interrupt input written => inferInstanceAs (Decidable
      (∀ request ∈ deployment.request input, ∀ actor ∈ deployment.actor input.host,
        actor.Meets rules request ∧ rules.leaves ((actor.carriesOut request).take written)))
  | .crash _ | .start _ _ => inferInstanceAs (Decidable True)

/-- The fleet has the processes' replicas and storages, and in its network whatever is on
its way between them. -/
structure Refines (deployment : Deployment) (fleet : Fleet) : Prop where
  servers : ∀ id : NodeId, fleet.cluster.servers[id]? = deployment.hosts[id]?.map Host.server
  replicas : ∀ id : NodeId, fleet.replicas id = deployment.hosts[id]?.bind Host.replica
  calls : ∀ call ∈ deployment.calls, ∃ message, outgoing message = some call.request ∧
    message.claimant = some call.caller ∧
    ⟨call.caller, call.callee, message⟩ ∈ fleet.cluster.network
  answers : ∀ answer ∈ deployment.answers,
    ⟨answer.callee, answer.caller, returned answer.reply⟩ ∈ fleet.cluster.network
  fit : fleet.cluster.Fit (fun _ => True)

variable {deployment next : Deployment} {fleet fleet' : Fleet} {id : NodeId}
  {rules : Rules}

theorem actor_some {actor : Actor} (h : deployment.actor id = some actor) :
    ∃ transport, deployment.hosts[id]? = some (.running actor transport) := by
  unfold Deployment.actor at h
  split at h
  · rename_i transport hhost
    cases h
    exact ⟨transport, hhost⟩
  · cases h

theorem actor_update {actor : Actor} {transport : Transport} {effects : List Effect}
    {answers : List Answer} :
    (deployment.update id (.running actor transport) effects answers).actor id =
      some actor := by
  unfold Deployment.actor Deployment.update
  rw [Std.ExtTreeMap.getElem?_insert_self]

theorem launch_some {settings : Settings} {storage : Storage} {actor : Actor}
    (h : launch id settings storage = some actor) :
    ∃ node replica, startUp id settings.environment storage = .ok node ∧
      Replica.recover node = .ok replica ∧
      actor = .new replica storage settings.compactThreshold := by
  simp only [launch, Option.ite_none_right_eq_some] at h
  obtain ⟨node, hnode, h⟩ := Option.bind_eq_some_iff.mp h.2
  obtain ⟨replica, hreplica, h⟩ := Option.bind_eq_some_iff.mp h
  cases h
  exact ⟨node, replica, ok_of_toOption hnode, ok_of_toOption hreplica, rfl⟩

theorem reachedBy_of_request {input : Input} {request : ActorRequest} {actor : Actor}
    (hrequest : deployment.request input = some request)
    (hactor : deployment.actor input.host = some actor) :
    deployment.reachedBy input = actor.reaches request := by
  unfold reachedBy
  rw [hrequest, Option.bind_some, hactor]
  rfl

/-- A call is made of a message for an id that there is a client for, and of nothing
else. -/
theorem mem_callsOf {effects : List Effect} {call : Call} :
    call ∈ deployment.callsOf id effects ↔
      (deployment.transport id).clients.contains call.callee = true ∧
      call.caller = id ∧ call.token = some deployment.token ∧
      ∃ message, .send call.callee message ∈ effects ∧
        outgoing message = some call.request := by
  constructor
  · intro h
    obtain ⟨effect, hmem, h⟩ := List.mem_filterMap.mp h
    split at h
    · obtain ⟨request, hrequest, h⟩ := Option.map_eq_some_iff.mp h
      cases h
      simp only [Transport.send, Option.ite_none_right_eq_some] at hrequest
      exact ⟨hrequest.1, rfl, rfl, _, hmem, hrequest.2⟩
    · cases h
  · obtain ⟨caller, callee, token, request⟩ := call
    rintro ⟨hclient, rfl, rfl, message, hmem, houtgoing⟩
    refine List.mem_filterMap.mpr ⟨_, hmem, ?_⟩
    simp only [Transport.send, hclient, if_true, houtgoing, Option.map_some]

theorem isRequest_returned (reply : Proto.PeerReply) : (returned reply).isRequest = false := by
  cases reply <;> rfl

namespace Refines

theorem coherent (h : deployment.Refines fleet) : fleet.Coherent := by
  intro id
  unfold Cluster.node
  rw [h.servers, h.replicas]
  cases deployment.hosts[id]? <;> rfl

theorem holds (h : deployment.Refines fleet) {actor : Actor}
    (hactor : deployment.actor id = some actor) :
    fleet.Holds id actor.replica actor.storage := by
  obtain ⟨transport, hhost⟩ := actor_some hactor
  refine ⟨?_, ?_⟩
  · rw [h.servers, hhost]
    rfl
  · rw [h.replicas, hhost]
    rfl

theorem storageOf (h : deployment.Refines fleet) (id : NodeId) :
    fleet.cluster.storageOf id = deployment.storageOf id := by
  unfold Cluster.storageOf Deployment.storageOf
  rw [h.servers, Option.map_map]
  rfl

theorem idle (h : deployment.Refines fleet) (hactor : deployment.actor id = none) :
    fleet.cluster.node id = none := by
  unfold Cluster.node
  rw [h.servers]
  unfold Deployment.actor at hactor
  cases hhost : deployment.hosts[id]? with
  | none => rfl
  | some host =>
      rw [hhost] at hactor
      cases host with
      | running actor transport => cases hactor
      | stopped storage => rfl

/-- A call that shows the token is one that a peer has made. -/
theorem called (h : deployment.Refines fleet) {call : Call} {request : ActorRequest}
    (hadmits : deployment.admits (.called call) = true)
    (hrequest : deployment.request (.called call) = some request) :
    ∃ message, received call.request = .ok (call.caller, message) ∧
      request = .peerRequest call.caller message ∧ message.isRequest = true ∧
      ⟨call.caller, call.callee, message⟩ ∈ fleet.cluster.network := by
  have htoken : call.token = some deployment.token := by
    unfold Deployment.request at hrequest
    dsimp only at hrequest
    split at hrequest
    · rename_i hok _
      exact TokenInterceptor.call_ok hok
    · cases hrequest
  have hmem : call ∈ deployment.calls := by
    simpa [admits, htoken] using hadmits
  obtain ⟨message, houtgoing, hclaimant, hsent⟩ := h.calls call hmem
  have hwire : message.OnWire := (h.fit.network _ hsent).onWire
  obtain ⟨sender, hsender, hreceived⟩ := received_outgoing hwire houtgoing
  rw [hclaimant] at hsender
  cases hsender
  refine ⟨message, hreceived, ?_, Message.isRequest_of_claimant hclaimant, hsent⟩
  unfold Deployment.request at hrequest
  dsimp only at hrequest
  rw [hreceived] at hrequest
  split at hrequest
  · rename_i heq
    cases heq
    cases hrequest
    rfl
  · cases hrequest

theorem arrives (h : deployment.Refines fleet) {input : Input} {request : ActorRequest}
    (hadmits : deployment.admits input = true)
    (hrequest : deployment.request input = some request) : Arrives fleet input.host request := by
  cases input with
  | own id own =>
      cases hrequest
      have hown : request.isOwn = true := hadmits
      cases request with
      | peerRequest sender message | peerResponse sender message => cases hown
      | _ => exact ⟨trivial, by rintro operation ⟨⟩ <;> rfl⟩
  | called call =>
      obtain ⟨message, -, rfl, hproper, hsent⟩ := h.called hadmits hrequest
      refine ⟨hproper, ?_⟩
      rintro operation ⟨⟩
      exact List.contains_iff_mem.mpr hsent
  | answered answer =>
      cases hrequest
      refine ⟨isRequest_returned answer.reply, ?_⟩
      rintro operation ⟨⟩
      exact List.contains_iff_mem.mpr (h.answers answer (List.contains_iff_mem.mp hadmits))

/-- A process and its server have become the same. -/
theorem update (h : deployment.Refines fleet) {ok : Prop} {host : Host}
    {executed : List Effect} {limit : Nat} {answers : List Answer}
    (hacts : Acts rules fleet id ok host executed limit fleet')
    (hanswers : ∀ answer ∈ answers,
      ⟨answer.callee, answer.caller, returned answer.reply⟩ ∈ fleet'.cluster.network) :
    (deployment.update id host executed answers).Refines fleet' := by
  obtain ⟨⟨reached, -, hrun⟩, hbecomes, hsigned⟩ := hacts
  have hnetwork : ∀ envelope ∈ fleet.cluster.network, envelope ∈ fleet'.cluster.network :=
    fun envelope hmem => hbecomes.network envelope (List.mem_append_left _ hmem)
  have hhosts : ∀ other : NodeId, (deployment.hosts.insert id host)[other]? =
      if other = id then some host else deployment.hosts[other]? := by
    intro other
    rw [Std.ExtTreeMap.getElem?_insert]
    by_cases hsame : other = id
    · rw [if_pos hsame, hsame, if_pos Std.ReflCmp.compare_self]
    · rw [if_neg hsame,
        if_neg (fun heq => hsame (Std.LawfulEqCmp.eq_of_compare heq).symm)]
  refine ⟨fun other => ?_, fun other => ?_, ?_, ?_, hrun.fit h.fit⟩
  · show _ = ((deployment.hosts.insert id host)[other]?).map Host.server
    rw [hbecomes.servers, hhosts, h.servers]
    split <;> rfl
  · show _ = ((deployment.hosts.insert id host)[other]?).bind Host.replica
    rw [hbecomes.replicas, hhosts, h.replicas]
    split <;> rfl
  · intro call hmem
    rcases List.mem_append.mp hmem with hmem | hmem
    · obtain ⟨message, houtgoing, hclaimant, hsent⟩ := h.calls call hmem
      exact ⟨message, houtgoing, hclaimant, hnetwork _ hsent⟩
    · obtain ⟨-, rfl, -, message, hsend, houtgoing⟩ := mem_callsOf.mp hmem
      refine ⟨message, houtgoing, (hsigned _ hsend).2 _ _ rfl, hbecomes.network _ ?_⟩
      exact List.mem_append_right _ (List.mem_filterMap.mpr ⟨_, hsend, rfl⟩)
  · intro answer hmem
    rcases List.mem_append.mp hmem with hmem | hmem
    · exact hnetwork _ (h.answers answer hmem)
    · exact hanswers answer hmem

/-- What goes back to a caller has been sent by the node that was asked. -/
theorem answered (h : deployment.Refines fleet) {input : Input} {request : ActorRequest}
    {actor last : Actor} {reply : ActorReply} (hadmits : deployment.admits input = true)
    (hrequest : deployment.request input = some request)
    (hactor : deployment.actor input.host = some actor)
    (hserve : actor.serve request = .ok (last, reply))
    (hsent : ∀ operation node emitted, request.operation = some operation →
      actor.replica.node.perform operation = some (node, emitted) →
      ∀ envelope ∈ sent input.host emitted, envelope ∈ fleet'.cluster.network) :
    ∀ answer ∈ answersTo input reply,
      ⟨answer.callee, answer.caller, returned answer.reply⟩ ∈ fleet'.cluster.network := by
  intro answer hmem
  cases input with
  | own id own | answered answer => cases hmem
  | called call =>
      obtain ⟨message, hreceived, rfl, hproper, harrived⟩ := h.called hadmits hrequest
      obtain ⟨node, emitted, hstep, ⟨rfl, -⟩ | ⟨receiver, response, rfl, hlast⟩⟩ :=
        Actor.serve_answers hserve
      · cases hmem
      obtain ⟨-, hnode⟩ := h.fit.of_node (h.holds hactor).node
      have hresponse : .send receiver response ∈ emitted := List.mem_of_getLast? hlast
      obtain ⟨rfl, hreplies⟩ := (Node.request_answerTo hnode (h.fit.network _ harrived)
        hproper hstep _ hresponse).2.1 _ _ rfl
      obtain ⟨proto, hproto, hreturned⟩ := respond_returned hreceived hreplies
      unfold answersTo at hmem
      dsimp only at hmem
      rw [hproto] at hmem
      cases List.mem_singleton.mp hmem
      refine hsent _ node emitted rfl hstep _ (List.mem_filterMap.mpr ⟨_, hresponse, ?_⟩)
      rw [hreturned]
      rfl

/-- Every action of the processes is a run of the cluster. -/
theorem step (h : deployment.Refines fleet) {action : Action}
    (hstep : deployment.step action = some next) :
    ∃ fleet', (∃ reached ≤ deployment.reaches action,
        Fleet.Run (fun c m => deployment.Meets rules action → c.Meets rules m) fleet reached
          fleet') ∧
      next.Refines fleet' := by
  cases action with
  | serve input =>
      simp only [Deployment.step, Option.ite_none_right_eq_some] at hstep
      obtain ⟨hadmits, hstep⟩ := hstep
      split at hstep
      · cases hstep
        exact ⟨fleet, ⟨0, Nat.zero_le _, .refl⟩, h⟩
      · rename_i request hrequest
        obtain ⟨actor, hactor, hstep⟩ := Option.bind_eq_some_iff.mp hstep
        obtain ⟨⟨last, reply⟩, hserve, hstep⟩ := Option.bind_eq_some_iff.mp hstep
        cases hstep
        have hserve := ok_of_toOption hserve
        obtain ⟨fleet', hacts, hsent⟩ :=
          served_acts (h.holds hactor) h.fit (h.arrives hadmits hrequest) hserve
            ((deployment.transport input.host).answered request reply)
        obtain ⟨reached, hle, hrun⟩ := hacts.run
        refine ⟨fleet', ⟨reached, ?_, hrun.mono fun c m hok hmeets => hok ?_⟩,
          h.update hacts (h.answered hadmits hrequest hactor hserve hsent)⟩
        · exact hle.trans (reachedBy_of_request hrequest hactor).ge
        · exact hmeets request hrequest actor hactor
  | interrupt input written =>
      simp only [Deployment.step, Option.ite_none_right_eq_some] at hstep
      obtain ⟨hadmits, hstep⟩ := hstep
      obtain ⟨request, hrequest, hstep⟩ := Option.bind_eq_some_iff.mp hstep
      obtain ⟨actor, hactor, hstep⟩ := Option.bind_eq_some_iff.mp hstep
      obtain ⟨storage, happly, hstep⟩ := Option.bind_eq_some_iff.mp hstep
      cases hstep
      obtain ⟨fleet', hacts⟩ :=
        interrupted_acts (h.holds hactor) h.fit (h.arrives hadmits hrequest) happly
      obtain ⟨reached, hle, hrun⟩ := hacts.run
      refine ⟨fleet', ⟨reached, ?_, hrun.mono fun c m hok hmeets => hok ?_⟩,
        h.update hacts (List.forall_mem_nil _)⟩
      · exact hle.trans (reachedBy_of_request hrequest hactor).ge
      · exact hmeets request hrequest actor hactor
  | crash id =>
      obtain ⟨actor, hactor, hstep⟩ := Option.bind_eq_some_iff.mp hstep
      cases hstep
      have hacts : Acts rules fleet id (deployment.Meets rules (.crash id))
          (.stopped actor.storage) [] 0 (fleet.update id none actor.storage []) :=
        ⟨⟨0, le_rfl, ((h.holds hactor).crashed rules).mono (fun c m hok _ => hok)⟩,
          fleet.becomes_update id none actor.storage [], List.forall_mem_nil _⟩
      exact ⟨_, hacts.run, h.update hacts (List.forall_mem_nil _)⟩
  | start id settings =>
      simp only [Deployment.step, Option.ite_none_left_eq_some] at hstep
      obtain ⟨hstopped, hstep⟩ := hstep
      obtain ⟨actor, hlaunch, hstep⟩ := Option.bind_eq_some_iff.mp hstep
      cases hstep
      obtain ⟨node, replica, hnode, hreplica, rfl⟩ := launch_some hlaunch
      have hidle := h.idle (Option.not_isSome_iff_eq_none.mp hstopped)
      rw [← h.storageOf] at hnode ⊢
      have hrun : Fleet.Run (Cluster.Meets rules) fleet 0
          (fleet.update id (some replica) (fleet.cluster.storageOf id) []) :=
        .one (show fleet.cluster.Meets rules (.start id settings.environment) from trivial)
          (.started hidle hnode hreplica)
      have hacts : Acts rules fleet id (deployment.Meets rules (.start id settings))
          (.running (.new replica (fleet.cluster.storageOf id) settings.compactThreshold)
            (.new id settings)) [] 0
          (fleet.update id (some replica) (fleet.cluster.storageOf id) []) :=
        ⟨⟨0, le_rfl, hrun.mono (fun c m hok _ => hok)⟩,
          fleet.becomes_update id (some replica) _ [], List.forall_mem_nil _⟩
      exact ⟨_, hacts.run, h.update hacts (List.forall_mem_nil _)⟩

end Refines

/-- Where no process has been started, there is no server. -/
theorem empty_refines (founders : List NodeId) (token : String) :
    (empty token).Refines ⟨⟨founders, ∅, []⟩, fun _ => none⟩ := by
  have hboot : Cluster.boot founders [] = .ok ⟨founders, ∅, []⟩ := rfl
  refine ⟨fun id => ?_, fun id => ?_, nofun, nofun, Sim.boot_fit trivial hboot⟩
  · show (∅ : Std.ExtTreeMap NodeId Server)[id]? = (∅ : Std.ExtTreeMap NodeId Host)[id]?.map _
    rw [Std.ExtTreeMap.getElem?_empty, Std.ExtTreeMap.getElem?_empty]
    rfl
  · show none = (∅ : Std.ExtTreeMap NodeId Host)[id]?.bind _
    rw [Std.ExtTreeMap.getElem?_empty]
    rfl

end Deployment

end Kurogane.Runtime
