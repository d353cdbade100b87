import Kurogane.Runtime.Agreement
import Kurogane.Runtime.Upkeep

/-!
When the task of a process panics. Its storage takes in whatever its node emits, its
answers are there to be sent and its map can be restored, so only the node is left to
panic. In runs that keep to the rules of the protocol it does not either.
-/

namespace Kurogane.Sim

open Kurogane.Raft

/-- All that is proposed can be read; a process may stop anywhere. -/
def Rules.legible : Rules where
  asks _ operation := operation.Legible
  leaves _ := True
  nothing := trivial
  rest _ _ _ _ := trivial

instance : DecidablePred Operation.Legible := fun operation =>
  match operation with
  | .propose command => decidable_of_iff ((Kv.Command.decode command).toOption.isSome = true)
      ⟨fun h => by
        obtain ⟨read, hread⟩ := Option.isSome_iff_exists.mp h
        exact ⟨read, ok_of_toOption hread⟩,
      fun ⟨read, hread⟩ => by rw [hread]; rfl⟩
  | .tick _ | .receive _ _ | .proposeConfigChange _ | .addLearner _ | .removeLearner _
  | .compact _ _ => inferInstanceAs (Decidable True)

instance (node : Node) : DecidablePred node.Upholds := fun operation =>
  decidable_of_iff
    (node.Guarded operation ∧ node.NamesTracked operation ∧ operation.Legible)
    ⟨fun ⟨hguarded, hnamed, hlegible⟩ => ⟨hguarded, hnamed, hlegible⟩,
      fun h => ⟨h.guarded, h.named, h.legible⟩⟩

instance (node : Node) : DecidablePred (Rules.legible.asks node) :=
  fun operation => inferInstanceAs (Decidable operation.Legible)

instance : DecidablePred Rules.legible.leaves := fun _ => inferInstanceAs (Decidable True)

/-- Moreover the rules of the protocol, with changes of membership that name members which
the leader tracks. -/
def Rules.upheld (founders : List NodeId) : Rules where
  asks node operation :=
    node.Upholds operation ∧ node.KnowsMembership ⟨founders, none⟩ operation
  leaves := Settled
  nothing := Sim.settled_nil
  rest _ _ h := h.of_append

instance (founders : List NodeId) (node : Node) :
    DecidablePred ((Rules.upheld founders).asks node) := fun operation =>
  inferInstanceAs (Decidable (node.Upholds operation ∧ node.KnowsMembership _ operation))

instance (founders : List NodeId) : DecidablePred (Rules.upheld founders).leaves :=
  inferInstanceAs (DecidablePred Settled)

theorem Cluster.Meets.proposes {cluster : Cluster} {move : Move}
    (h : cluster.Meets .legible move) : cluster.Proposes move := by
  cases move with
  | start id environment => trivial
  | act action => exact h.1

theorem Cluster.Meets.upholds {cluster : Cluster} {move : Move}
    (h : cluster.Meets (.upheld cluster.peers) move) : cluster.Upholds move := by
  have hguarded : cluster.Meets (.guarded cluster.peers) move :=
    h.mono (fun _ _ hasked => ⟨hasked.1.guarded, hasked.2⟩) (fun _ hleft => hleft)
  have hlegible : cluster.Meets .legible move :=
    h.mono (fun _ _ hasked => hasked.1.legible) (fun _ _ => trivial)
  refine ⟨⟨hguarded.orderly, ?_⟩, hlegible.proposes⟩
  cases move with
  | start id environment => trivial
  | act action => exact h.1.imp fun _ _ hasked => hasked.1.named

end Kurogane.Sim

namespace Kurogane.Runtime

open Kurogane.Raft
open Kurogane.Kv (Replica)
open Kurogane.Sim (Cluster Fleet Rules)

theorem ofReplica_error {α : Type} {answer : Except Kv.Panic α} {panic : ActorPanic}
    (h : ofReplica answer = .error panic) :
    ∃ found, answer = .error found ∧ panic = .replica found := by
  cases answer with
  | error found =>
      cases h
      exact ⟨found, rfl, rfl⟩
  | ok a => cases h

namespace Actor

variable {actor next : Actor} {request : ActorRequest} {reply : ActorReply}
  {panic : ActorPanic} {replica : Replica}

/-! ### What may go wrong -/

/-- The replica fails, or the last thing that a peer made the node do was not to answer. -/
theorem attend_error (h : actor.attend request = .error panic) :
    (∃ operation found, request.operation = some operation ∧
      actor.replica.Fails operation found ∧ panic = .replica found) ∨
    ∃ sender message node emitted, request = .peerRequest sender message ∧
      actor.replica.node.step (.step sender message) = some (node, emitted) ∧
      emitted ≠ [] ∧ ∀ receiver answer, emitted.getLast? ≠ some (.send receiver answer) := by
  have hfails : ∀ {α : Type} {answer : Except Kv.Panic α} {operation : Operation},
      request.operation = some operation →
      (∀ found, answer = .error found → actor.replica.Fails operation found) →
      ofReplica answer = .error panic → ∃ operation found, request.operation = some operation ∧
        actor.replica.Fails operation found ∧ panic = .replica found := by
    intro α answer operation hoperation hanswer hfailed
    obtain ⟨found, hfound, rfl⟩ := ofReplica_error hfailed
    exact ⟨operation, found, hoperation, hanswer found hfound, rfl⟩
  cases request with
  | tick nextTimeout =>
      rcases bind_eq_error h with hfailed | ⟨_, -, h⟩
      · exact Or.inl (hfails rfl (fun _ => Kv.Replica.tick_fails) hfailed)
      · cases h
  | peerRequest sender message =>
      rcases bind_eq_error h with hfailed | ⟨⟨last, effects, deliveries⟩, hstep, h⟩
      · exact Or.inl (hfails rfl (fun _ => Kv.Replica.receive_fails) hfailed)
      · obtain ⟨hnode, -⟩ := Kv.Replica.step_served (ofReplica_ok hstep)
        refine Or.inr ⟨sender, message, last.node, effects, rfl, hnode, ?_, ?_⟩
        · rintro rfl
          cases h
        · intro receiver answer hlast
          dsimp only at h
          rw [hlast] at h
          cases h
  | peerResponse sender message =>
      rcases bind_eq_error h with hfailed | ⟨_, -, h⟩
      · exact Or.inl (hfails rfl (fun _ => Kv.Replica.receive_fails) hfailed)
      · cases h
  | propose command =>
      rcases bind_eq_error h with hfailed | ⟨_, -, h⟩
      · exact Or.inl (hfails rfl (fun _ => Kv.Replica.propose_fails) hfailed)
      · cases h
  | proposeConfigChange newVoters =>
      rcases bind_eq_error h with hfailed | ⟨_, -, h⟩
      · exact Or.inl (hfails rfl (fun _ => Kv.Replica.proposeConfigChange_fails) hfailed)
      · cases h
  | addLearner id reachable =>
      simp only [attend] at h
      split at h
      · cases h
      · rcases bind_eq_error h with hfailed | ⟨_, -, h⟩
        · exact Or.inl (hfails rfl (fun _ => Kv.Replica.addLearner_fails) hfailed)
        · cases h
  | removeLearner id =>
      rcases bind_eq_error h with hfailed | ⟨_, -, h⟩
      · exact Or.inl (hfails rfl (fun _ => Kv.Replica.removeLearner_fails) hfailed)
      · cases h
  | appliedResult index | entryTerm index => cases h

/-- What a compaction ends in. -/
inductive CompactionEnds (replica : Replica) (storage : Storage) : ActorPanic → Prop
  | arithmetic : replica.lastApplied < replica.node.snapshot.lastIncludedIndex →
      CompactionEnds replica storage .arithmetic
  | replica {retain : Nat} {found : Kv.Panic} : replica.compact retain = .error found →
      CompactionEnds replica storage (.replica found)
  | storage {retain : Nat} {last : Replica} {answer : Option (List Effect)} :
      replica.compact retain = .ok (last, answer) →
      storage.applyAll (answer.getD []) = none → CompactionEnds replica storage .storage

theorem maybeCompact_error (h : actor.maybeCompact = .error panic) :
    CompactionEnds actor.replica actor.storage panic := by
  unfold maybeCompact at h
  dsimp only at h
  split at h
  · rename_i hbehind
    cases h
    exact .arithmetic hbehind
  split at h
  · cases h
  rcases bind_eq_error h with hfailed | ⟨⟨last, answer⟩, hcompact, h⟩
  · obtain ⟨found, hfound, rfl⟩ := ofReplica_error hfailed
    exact .replica hfound
  · unfold dispatch at h
    dsimp only at h
    split at h
    · rename_i hfull
      cases h
      exact .storage (ofReplica_ok hcompact) hfull
    · cases h

/-- A batch that the storage does not take in, or the compaction after it. -/
def SettlingEnds (storage : Storage) (replica : Replica) (effects : List Effect)
    (panic : ActorPanic) : Prop :=
  storage.applyAll effects = none ∨ ∃ storage', storage.applyAll effects = some storage' ∧
    CompactionEnds replica storage' panic

theorem settling_error {effects : List Effect} {begun : Actor}
    (h : (begun.dispatch effects >>= maybeCompact) = .error panic) :
    SettlingEnds begun.storage begun.replica effects panic := by
  rcases bind_eq_error h with hdispatch | ⟨middle, hdispatch, hcompact⟩
  · unfold dispatch at hdispatch
    split at hdispatch
    · rename_i hfull
      exact Or.inl hfull
    · cases hdispatch
  · obtain ⟨hstorage, hreplica, -⟩ := dispatch_storage hdispatch
    have hends := maybeCompact_error hcompact
    rw [hreplica] at hends
    exact Or.inr ⟨middle.storage, hstorage, hends⟩

/-- Nothing that is answered afterwards panics. -/
theorem answered_error {α : Type} {effects : List Effect} {begun : Actor} {answer : Actor → α}
    (h : (begun.dispatch effects >>= fun middle =>
      middle.maybeCompact >>= fun last => .ok (answer last)) = .error panic) :
    SettlingEnds begun.storage begun.replica effects panic := by
  apply settling_error
  rcases bind_eq_error h with hdispatch | ⟨middle, hdispatch, h⟩
  · rw [hdispatch]
    rfl
  · rw [hdispatch]
    rcases bind_eq_error h with hcompact | ⟨last, -, h⟩
    · exact hcompact
    · cases h

/-- A panic comes from the request itself, or from carrying it out. -/
theorem serve_error (h : actor.serve request = .error panic) :
    actor.attend request = .error panic ∨ ∃ replica effects,
      actor.attend request = .ok (replica, some effects) ∧
      SettlingEnds actor.storage replica effects panic := by
  have h : actor.handle request = .error panic := by
    rcases bind_eq_error h with h | ⟨_, -, h⟩
    · exact h
    · cases h
  cases request with
  | tick nextTimeout =>
      rcases bind_eq_error h with hevent | ⟨_, -, h⟩
      · rcases bind_error_cases hevent with
          hfails | ⟨⟨replica, effects, deliveries⟩, hgoes, hevent⟩
        · exact Or.inl (hfails _)
        · exact Or.inr ⟨replica, effects, hgoes _, settling_error hevent⟩
      · cases h
  | peerRequest sender message =>
      rcases bind_eq_error h with hrequest | ⟨_, -, h⟩
      · obtain ⟨leaderHint, hhint⟩ := actor.updateLeaderHint_cases sender message
        unfold handlePeerRequest at hrequest
        rw [hhint] at hrequest
        rcases bind_eq_error hrequest with hstep |
          ⟨⟨replica, effects, deliveries⟩, hstep, hrequest⟩
        · refine Or.inl ?_
          show (ofReplica (actor.replica.step _) >>= _) = _
          rw [hstep]
          rfl
        · rw [actor.attend_peerRequest hstep]
          dsimp only at hrequest
          cases hlast : effects.getLast? with
          | none =>
              rw [hlast] at hrequest
              cases hrequest
          | some effect =>
              rw [hlast] at hrequest
              cases effect with
              | send receiver answer =>
                  exact Or.inr ⟨replica, _, rfl, answered_error hrequest⟩
              | _ =>
                  cases hrequest
                  exact Or.inl rfl
      · cases h
  | peerResponse sender message =>
      rcases bind_eq_error h with hevent | ⟨_, -, h⟩
      · obtain ⟨leaderHint, hhint⟩ := actor.updateLeaderHint_cases sender message
        unfold handleEvent at hevent
        dsimp only at hevent
        rw [hhint] at hevent
        rcases bind_error_cases hevent with
          hfails | ⟨⟨replica, effects, deliveries⟩, hgoes, hevent⟩
        · exact Or.inl (hfails _)
        · exact Or.inr ⟨replica, effects, hgoes _, settling_error hevent⟩
      · cases h
  | propose command =>
      rcases bind_eq_error h with hpropose | ⟨_, -, h⟩
      · rcases bind_error_cases hpropose with
          hfails | ⟨⟨replica, answer, deliveries⟩, hgoes, hpropose⟩
        · exact Or.inl (hfails _)
        · dsimp only at hpropose
          split at hpropose
          · cases hpropose
          · rename_i index effects
            exact Or.inr ⟨replica, effects, hgoes _, answered_error hpropose⟩
      · cases h
  | proposeConfigChange newVoters =>
      rcases bind_eq_error h with hpropose | ⟨_, -, h⟩
      · rcases bind_error_cases hpropose with
          hfails | ⟨⟨replica, answer, deliveries⟩, hgoes, hpropose⟩
        · exact Or.inl (hfails _)
        · dsimp only at hpropose
          split at hpropose
          · cases hpropose
          · rename_i index effects
            exact Or.inr ⟨replica, effects, hgoes _, answered_error hpropose⟩
      · cases h
  | addLearner id reachable =>
      rcases bind_eq_error h with hadd | ⟨_, -, h⟩
      · unfold Actor.addLearner at hadd
        simp only [attend]
        split at hadd
        · cases hadd
        · rename_i hrole
          rw [if_neg hrole]
          rcases bind_error_cases hadd with
            hfails | ⟨⟨replica, effects, deliveries⟩, hgoes, hadd⟩
          · exact Or.inl (hfails _)
          · exact Or.inr ⟨replica, effects, hgoes _, answered_error hadd⟩
      · cases h
  | removeLearner id =>
      rcases bind_eq_error h with hremove | ⟨_, -, h⟩
      · rcases bind_error_cases hremove with
          hfails | ⟨⟨replica, effects, deliveries⟩, hgoes, hremove⟩
        · exact Or.inl (hfails _)
        · exact Or.inr ⟨replica, effects, hgoes _, settling_error hremove⟩
      · cases h
  | appliedResult index | entryTerm index => cases h

/-- Only the node is left to end a request: it does not do what it is asked, or does not
compact its log afterwards. -/
inductive EndsInNode (actor : Actor) (request : ActorRequest) : ActorPanic → Prop
  | asked {operation : Operation} : request.operation = some operation →
      actor.replica.node.perform operation = none → EndsInNode actor request (.replica .node)
  | compacting {operation : Operation} {replica : Replica} {emitted : List Effect}
      {storage : Storage} {found : Kv.Panic} : request.operation = some operation →
      actor.replica.Performs operation replica emitted →
      actor.storage.applyAll (request.carried emitted) = some storage →
      (found = .node ∧ ∃ upToIndex data,
          replica.node.perform (.compact upToIndex data) = none) ∨
        (found = .indexNotCommitted ∧ replica.node.commitIndex < replica.lastApplied) →
      EndsInNode actor request (.replica found)

/-- The storage takes in what the node emits, and holds what the node does. -/
theorem carried_stored {storage : Storage} {operation : Operation} {emitted : List Effect}
    {id : NodeId} (hretains : storage.Retains actor.replica.node.durable)
    (hperforms : actor.replica.Performs operation replica emitted)
    (hsplits : Splits request id emitted) :
    ∃ storage', storage.applyAll (request.carried emitted) = some storage' ∧
      storage'.Retains replica.node.durable := by
  obtain ⟨storage', happly, hretains'⟩ :=
    hretains.applyAll (Node.perform_writeAhead hperforms.node).recorded
  obtain ⟨answers, hsends, hwhole⟩ := hsplits.whole
  rw [hwhole, Storage.applyAll_append] at happly
  obtain ⟨middle, hmiddle, hlast⟩ := Option.bind_eq_some_iff.mp happly
  rw [middle.applyAll_sends hsends] at hlast
  cases hlast
  exact ⟨_, hmiddle, hretains'⟩

theorem compaction_stored {storage : Storage} {last : Replica} {upToIndex : Nat} {data : Bytes}
    {more : List Effect} (hretains : storage.Retains replica.node.durable)
    (hcompacts : replica.Performs (.compact upToIndex data) last more) :
    storage.applyAll more ≠ none := by
  obtain ⟨storage', happly, -⟩ :=
    hretains.applyAll (Node.perform_writeAhead hcompacts.node).recorded
  rw [happly]
  nofun

/-- What is asked of a replica on behalf of a process is fit for it. -/
theorem asked_fit {fleet : Fleet} {id : NodeId} {operation : Operation}
    (hfit : fleet.cluster.Fit Cargo.Legible) (harrives : Arrives fleet id request)
    (hoperation : request.operation = some operation) (hlegible : operation.Legible) :
    operation.Fit Cargo.Legible := by
  refine hfit.operation (harrives.delivers operation hoperation) fun hown => ?_
  cases request with
  | peerRequest sender message | peerResponse sender message =>
      cases hoperation
      exact absurd rfl (hown sender message)
  | propose command =>
      cases hoperation
      exact hlegible
  | appliedResult index | entryTerm index => cases hoperation
  | _ =>
      cases hoperation
      trivial

theorem ends_in_node {fleet : Fleet} {id : NodeId} (hupkept : fleet.Upkept)
    (h : fleet.Holds id actor.replica actor.storage) (harrives : Arrives fleet id request)
    (hlegible : actor.Meets .legible request)
    (hserve : actor.serve request = .error panic) : actor.EndsInNode request panic := by
  have hkept := hupkept.kept id _ h.replica
  have hretains : actor.storage.Retains actor.replica.node.durable :=
    hupkept.mirrors id _ _ h.server rfl
  obtain ⟨-, hfit⟩ := hupkept.fit.of_node h.node
  have hanything : fleet.cluster.Fit (fun _ => True) := hupkept.fit.imp fun _ _ => trivial
  rcases serve_error hserve with hattend | ⟨replica, effects, hattend, hends⟩
  · rcases attend_error hattend with ⟨operation, found, hoperation, hfails, rfl⟩ |
      ⟨sender, message, node, emitted, rfl, hstep, hnonempty, hlast⟩
    · have hasked := asked_fit hupkept.fit harrives hoperation (hlegible.asked operation hoperation)
      obtain ⟨rfl, hnode⟩ := hkept.fails hfit hasked hfails
      exact .asked hoperation hnode
    · have hasked := asked_fit hupkept.fit harrives rfl (hlegible.asked _ rfl)
      obtain ⟨-, hnothing | ⟨answer, -, hwhole⟩⟩ :=
        carried_peerRequest hfit hasked harrives.proper hstep
      · exact absurd hnothing hnonempty
      · rw [hwhole] at hlast
        exact absurd List.getLast?_concat (hlast sender answer)
  · rcases attend_performs hattend with ⟨-, -, hnone⟩ |
      ⟨operation, emitted, hoperation, hperforms, hsome | ⟨hnone, -⟩⟩
    · cases hnone
    · cases hsome
      have hasked := asked_fit hupkept.fit harrives hoperation (hlegible.asked operation hoperation)
      obtain ⟨storage, hstored, hretains'⟩ :=
        carried_stored hretains hperforms (splits h hanything harrives hoperation hperforms)
      rcases hends with hfull | ⟨storage', happly, hends⟩
      · rw [hstored] at hfull
        cases hfull
      rw [hstored] at happly
      cases happly
      cases hends with
      | arithmetic hbehind =>
          have hfit' := (Node.perform_fit hfit hasked hperforms.node).1
          exact absurd (hkept.performs hfit' hperforms).drained.boundary (Nat.not_le.mpr hbehind)
      | replica hcompact =>
          refine .compacting hoperation hperforms hstored ?_
          exact Kv.Replica.compact_fails hcompact
      | storage hcompact hfull =>
          exact absurd hfull
            (compaction_stored hretains' (Kv.Replica.compact_performs hcompact))
    · cases hnone

theorem sustained_run {fleet fleet' : Fleet} {reached : Nat} (h : fleet.Sustained)
    (hrun : Fleet.Run (Cluster.Meets (.upheld fleet.cluster.peers)) fleet reached fleet') :
    fleet'.Sustained := by
  refine hrun.founders.2.invariant (fun {fleet _ move _} hok hstep h => ?_) h
  obtain ⟨hsame, hmeets⟩ := hok
  rw [← hsame] at hmeets
  exact h.step hmeets.upholds hstep

/-- Where the rules are kept, whatever arrives is served. -/
theorem serves {fleet : Fleet} {id : NodeId} (hsustained : fleet.Sustained)
    (h : fleet.Holds id actor.replica actor.storage) (harrives : Arrives fleet id request)
    (hupholds : actor.Meets (.upheld fleet.cluster.peers) request) :
    ∃ next reply, actor.serve request = .ok (next, reply) := by
  cases hserve : actor.serve request with
  | ok served => exact ⟨served.1, served.2, rfl⟩
  | error panic =>
      exfalso
      have hlegible : actor.Meets .legible request :=
        ⟨fun operation hoperation => (hupholds.asked operation hoperation).1.legible,
          fun served hserved operation hdue =>
            (hupholds.compacts served hserved operation hdue).1.legible⟩
      have hperforms : ∀ {fleet : Fleet} {replica : Replica} {storage : Storage}
          {operation : Operation}, fleet.Sustained → fleet.Holds id replica storage →
          fleet.cluster.delivers id operation = true →
            replica.node.perform operation ≠ none := by
        intro fleet replica storage operation hsustained h hdelivers
        obtain ⟨past, hrel⟩ := hsustained.replicates
        obtain ⟨result, hresult⟩ :=
          Node.perform_some (hrel.leaders id _ h.node) (hrel.ready h.node hdelivers)
        rw [hresult]
        nofun
      cases ends_in_node hsustained.toUpkept h harrives hlegible hserve with
      | asked hoperation hnone =>
          exact hperforms hsustained h (harrives.delivers _ hoperation) hnone
      | @compacting operation replica emitted storage found hoperation hperformed hstored
          hcompacts =>
          -- the fleet once the request itself has been carried out
          have hanything : fleet.cluster.Fit (fun _ => True) :=
            hsustained.fit.imp fun _ _ => trivial
          have hrun := (first_acts (.upheld fleet.cluster.peers) h hanything harrives hoperation
            hperformed hstored).mono (fun c m hok => hok hupholds)
          have hlater := sustained_run hsustained hrun
          have hholds := Fleet.Holds.of_becomes
            (fleet.becomes_update id (some replica) storage emitted)
          rcases hcompacts with ⟨-, upToIndex, data, hnone⟩ | ⟨-, hahead⟩
          · exact hperforms hlater hholds rfl hnone
          · exact Nat.not_lt.mpr (hlater.committed id _ hholds.replica) hahead

end Actor

namespace Deployment

variable {deployment later : Deployment} {founders : List NodeId} {token : String}
  {actions : List Action} {actor : Actor} {input : Input} {request : ActorRequest}

/-- What actions that keep to the rules keep in the cluster of the processes holds after a run. -/
theorem Refines.invariant {rules : Rules} {I : Fleet → Prop} {fleet : Fleet}
    (hkeeps : ∀ {fleet fleet' : Fleet} {move : Sim.Move} {reached : Nat},
      fleet.cluster.Meets rules move → fleet.Step move reached fleet' → I fleet → I fleet')
    (h : deployment.Refines fleet) (hI : I fleet) (halong : deployment.Along rules actions)
    (hrun : deployment.run actions = some later) : ∃ fleet', later.Refines fleet' ∧ I fleet' := by
  obtain ⟨fleet', ⟨reached, -, hran⟩, hlater⟩ := h.run hrun
  have hmeets : Fleet.Run (Cluster.Meets rules) fleet reached fleet' :=
    hran.mono (fun c m hok => hok halong)
  exact ⟨fleet', hlater, hmeets.invariant hkeeps hI⟩

/-- Where no process has been started, nothing is stored or applied. -/
theorem empty_sustained (founders : List NodeId) :
    Fleet.Sustained ⟨⟨founders, ∅, []⟩, fun _ => none⟩ := by
  have hrefines := empty_refines founders ""
  have hboot : Cluster.boot founders [] = .ok ⟨founders, ∅, []⟩ := rfl
  refine ⟨⟨hrefines.coherent, Sim.boot_fit Sim.legible_nothing hboot, nofun, ?_⟩,
    ⟨_, Sim.boot_replicates hboot⟩, nofun⟩
  intro id server node hserver
  rw [hrefines.servers] at hserver
  obtain ⟨host, hhost, -⟩ := Option.map_eq_some_iff.mp hserver
  simp [empty] at hhost

/-! ### All runs -/

/-- Whatever the processes have been asked, their replicas are kept up. -/
theorem legible_run (hlegible : (empty token).Along .legible actions)
    (hrun : (empty token).run actions = some later) :
    ∃ fleet, later.Refines fleet ∧ fleet.Upkept :=
  (empty_refines [] token).invariant
    (fun hmeets hstep hupkept => hupkept.step hmeets.proposes hstep)
    (empty_sustained []).toUpkept hlegible hrun

/-- Whatever reaches a process, its task ends in its node only: never in a storage that
does not take in what the node emits, in a snapshot or a command that cannot be read, in an
entry that is not there, or for lack of an answer. -/
theorem processes_panic_in_nodes_only (hlegible : (empty token).Along .legible actions)
    (hrun : (empty token).run actions = some later)
    (hadmits : later.admits input = true) (hrequest : later.request input = some request)
    (hactor : later.actor input.host = some actor) (hasked : actor.Meets .legible request)
    {panic : ActorPanic} (hserve : actor.serve request = .error panic) :
    panic = .replica .node ∨ panic = .replica .indexNotCommitted := by
  obtain ⟨fleet, hrefines, hupkept⟩ := legible_run hlegible hrun
  cases Actor.ends_in_node hupkept (hrefines.holds hactor) (hrefines.arrives hadmits hrequest)
    hasked hserve with
  | asked => exact Or.inl rfl
  | compacting _ _ _ hcompacts =>
      rcases hcompacts with ⟨rfl, -⟩ | ⟨rfl, -⟩
      · exact Or.inl rfl
      · exact Or.inr rfl

/-- A leader that is told of a voter it does not track fails at its next heartbeat. -/
def unseenVoter : List Action :=
  [.start ⟨1⟩ ⟨[⟨1⟩], 1, 1, 9, false⟩, .serve (.own ⟨1⟩ (.tick 3)),
    .serve (.own ⟨1⟩ (.proposeConfigChange [⟨1⟩, ⟨9⟩]))]

theorem unseen_voter_ends_in_node : ∃ later actor,
    (empty "token").run unseenVoter = some later ∧ later.actor ⟨1⟩ = some actor ∧
    ∃ panic, actor.serve (.tick 1) = .error panic ∧
      (panic = .replica .node ∨ panic = .replica .indexNotCommitted) := by
  have hplayed : (((empty "token").run unseenVoter).bind (fun later =>
      (later.actor ⟨1⟩).map (fun actor => (later, actor)))).any
      (fun (later, actor) => decide ((empty "token").Along .legible unseenVoter ∧
        later.admits (.own ⟨1⟩ (.tick 1)) = true ∧ actor.Meets .legible (.tick 1) ∧
        actor.serve (.tick 1) = .error (.replica .node))) = true := by
    decide +kernel
  obtain ⟨⟨later, actor⟩, hfound, hlegible, hadmits, hasked, hserve⟩ := exists_of_any hplayed
  simp only [Option.bind_eq_some_iff, Option.map_eq_some_iff, Prod.mk.injEq] at hfound
  obtain ⟨_, hrun, _, hactor, rfl, rfl⟩ := hfound
  exact ⟨_, _, hrun, hactor, _, hserve,
    processes_panic_in_nodes_only hlegible hrun hadmits rfl hactor hasked hserve⟩

theorem notStrictlyOrdered_of_pairwise {members : List NodeId}
    (h : members.Pairwise (fun a b => compare a b = .lt)) :
    notStrictlyOrdered members = false := by
  induction members with
  | nil => rfl
  | cons first rest ih =>
      obtain ⟨hfirst, hrest⟩ := List.pairwise_cons.mp h
      cases rest with
      | nil => rfl
      | cons second others =>
          have hlt : first < second := compare_lt_iff_lt.mp (hfirst second List.mem_cons_self)
          have hothers := ih hrest
          unfold notStrictlyOrdered at hothers ⊢
          simpa [hlt] using hothers

/-- Whoever is among its own peers starts, with timeouts that a node accepts. -/
theorem startUp_some {id : NodeId} {settings : Settings}
    (hlisted : settings.memberIds.contains id = true)
    (helection : 0 < settings.electionTimeoutTicks)
    (hheartbeat : 0 < settings.heartbeatIntervalTicks)
    (hle : settings.heartbeatIntervalTicks ≤ settings.electionTimeoutTicks)
    (storage : Storage) : ∃ node, startUp id settings.environment storage = .ok node := by
  have hordered : notStrictlyOrdered settings.memberIds = false :=
    notStrictlyOrdered_of_pairwise Std.ExtTreeSet.ordered_toList
  have hnone : settings.memberIds.isEmpty = false := by
    cases hmembers : settings.memberIds with
    | nil =>
        rw [hmembers] at hlisted
        cases hlisted
    | cons first rest => rfl
  unfold startUp Settings.environment
  split
  · unfold Node.newLearner
    dsimp only
    rw [if_neg (by omega), if_neg (by omega), if_neg (by omega)]
    exact ⟨_, rfl⟩
  · unfold Node.recover
    dsimp only
    rw [hnone, hordered, hlisted]
    simp only [Bool.false_eq_true, Bool.not_true, if_false]
    rw [if_neg (by omega), if_neg (by omega), if_neg (by omega)]
    exact ⟨_, rfl⟩

/-- Wherever a process was stopped, be it between a snapshot and the log above it, it can be
started again. It holds what it had stored, and the map of its snapshot; where it joins over
a storage without a term, a log and a snapshot, it is an empty node. -/
theorem stopped_processes_come_back (hlegible : (empty token).Along .legible actions)
    (hrun : (empty token).run actions = some later) {id : NodeId} {storage : Storage}
    (hhost : later.hosts[id]? = some (.stopped storage)) (settings : Settings)
    (hlisted : settings.memberIds.contains id = true)
    (helection : 0 < settings.electionTimeoutTicks)
    (hheartbeat : 0 < settings.heartbeatIntervalTicks)
    (hle : settings.heartbeatIntervalTicks ≤ settings.electionTimeoutTicks) :
    ∃ actor, launch id settings storage = some actor ∧ actor.storage = storage ∧
      storage.Retains actor.replica.node.durable ∧
      ((settings.joinAsLearner && storage.isFresh) = false →
        storage.Mirrors actor.replica.node.durable) ∧
      actor.replica.lastApplied = storage.snapshot.lastIncludedIndex := by
  obtain ⟨fleet, hrefines, hupkept⟩ := legible_run hlegible hrun
  have hserver : fleet.cluster.servers[id]? = some ⟨none, storage⟩ := by
    rw [hrefines.servers, hhost]
    rfl
  have hstorage := (hupkept.fit.servers id _ hserver).storage
  obtain ⟨node, hnode⟩ := startUp_some hlisted helection hheartbeat hle storage
  have hretains := startUp_retains hnode
  obtain ⟨replica, hreplica⟩ :=
    Kv.Replica.recover_legible (hstorage.startUp Sim.legible_nothing hnode).snapshot
  have hlaunch : launch id settings storage =
      some (.new replica storage settings.compactThreshold) := by
    unfold launch
    rw [if_pos hlisted, hnode]
    show ((Replica.recover node).toOption >>= _) = _
    rw [hreplica]
    rfl
  have hsame : replica.node = node := (Kv.Replica.recover_spec hreplica).1
  refine ⟨_, hlaunch, rfl, ?_, fun hmember => ?_, ?_⟩
  · show storage.Retains replica.node.durable
    rw [hsame]
    exact hretains
  · show storage.Mirrors replica.node.durable
    rw [hsame]
    exact startUp_mirrors hmember hnode
  · show replica.lastApplied = _
    rw [Sim.recovered_lastApplied hreplica]
    exact hretains.boundary.symm

/-- The third process is stopped when it has stored the snapshot it is sent, but not yet
the log above it. -/
def stoppedInstalling : List Action :=
  shippedSnapshot.take 18 ++ [.interrupt (.called ⟨⟨1⟩, ⟨3⟩, some "token", .installSnapshot
    ⟨1, 1, 1, 1, [0, 0, 0, 1, 1, 0, 0, 0, 1, 3], some ⟨[1, 2], []⟩⟩⟩) 1]

theorem stopped_installing_comes_back : ∃ later storage actor,
    (empty "token").run stoppedInstalling = some later ∧
    later.hosts[(⟨3⟩ : NodeId)]? = some (.stopped storage) ∧
    storage.snapshot.lastIncludedIndex = 1 ∧
    launch ⟨3⟩ ⟨[⟨1⟩, ⟨2⟩, ⟨3⟩], 3, 1, 9, true⟩ storage = some actor ∧
    actor.replica.lastApplied = 1 := by
  have hplayed : (((empty "token").run stoppedInstalling).bind (fun later =>
      (later.hosts[(⟨3⟩ : NodeId)]?).map (fun host => (later, host)))).any
      (fun (_, host) => decide ((empty "token").Along .legible stoppedInstalling ∧
        host = .stopped host.storage ∧ host.storage.snapshot.lastIncludedIndex = 1)) = true := by
    decide +kernel
  obtain ⟨⟨later, host⟩, hfound, hlegible, hstopped, hsnapshot⟩ := exists_of_any hplayed
  simp only [Option.bind_eq_some_iff, Option.map_eq_some_iff, Prod.mk.injEq] at hfound
  obtain ⟨_, hrun, _, hhost, rfl, rfl⟩ := hfound
  dsimp only at hlegible hstopped hsnapshot
  rw [hstopped] at hhost
  obtain ⟨actor, hlaunch, -, -, -, happlied⟩ := stopped_processes_come_back hlegible hrun
    hhost ⟨[⟨1⟩, ⟨2⟩, ⟨3⟩], 3, 1, 9, true⟩ (by decide +kernel) (by decide) (by decide) (by decide)
  exact ⟨_, _, actor, hrun, hhost, hsnapshot, hlaunch, happlied.trans hsnapshot⟩

end Deployment

end Kurogane.Runtime
