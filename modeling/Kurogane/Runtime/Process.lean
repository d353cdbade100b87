import Kurogane.Raft.Votes
import Kurogane.Runtime.Storage
import Mathlib.Logic.Relation

/-!
One process over its storage: it serves requests, carries out their effects in
order, may stop between any two effects, and starts again from what is stored.
Nothing is assumed of the messages it receives.
-/

namespace Kurogane.Runtime

open Kurogane.Raft Kurogane.Consensus

/-- No hard state, no log, no snapshot. -/
def Storage.isFresh (storage : Storage) : Bool :=
  storage.hardState = .default && storage.log.isEmpty &&
    storage.snapshot.lastIncludedIndex = 0

/-- What the environment variables of a process say, besides its identity. -/
structure Environment where
  memberIds : List NodeId
  electionTimeoutTicks : Nat
  heartbeatIntervalTicks : Nat
  joinAsLearner : Bool
deriving DecidableEq

/-- The node `main` starts with. -/
def startUp (id : NodeId) (environment : Environment) (storage : Storage) :
    Except ConfigError Node :=
  if environment.joinAsLearner && storage.isFresh then
    Node.newLearner id environment.electionTimeoutTicks
      environment.heartbeatIntervalTicks
  else
    Node.recover id environment.memberIds environment.electionTimeoutTicks
      environment.heartbeatIntervalTicks storage.hardState storage.log
      ⟨storage.snapshot, storage.snapshotData, storage.snapshotConfig⟩
      storage.learners

/-- `sent` is the transcript of all messages, oldest first. -/
structure Process where
  node : Option Node
  storage : Storage
  sent : List (NodeId × Message)

inductive ProcessAction where
  | perform (operation : Operation)
  | interrupt (operation : Operation) (written : Nat)
  | crash
  | restart (environment : Environment)
deriving DecidableEq

/-- The messages among executed effects, with their receivers. -/
def messages (effects : List Effect) : List (NodeId × Message) :=
  effects.filterMap (fun effect =>
    match effect with
    | .send receiver message => some (receiver, message)
    | _ => none)

theorem mem_messages {effects : List Effect} {receiver : NodeId}
    {message : Message} :
    (receiver, message) ∈ messages effects ↔
      .send receiver message ∈ effects := by
  unfold messages
  constructor
  · intro hmem
    obtain ⟨effect, heffect, heq⟩ := List.mem_filterMap.mp hmem
    cases effect <;> simp_all
  · intro hmem
    exact List.mem_filterMap.mpr ⟨_, hmem, rfl⟩

namespace Process

/-- A process that has not been started yet. -/
def stopped (storage : Storage) : Process := ⟨none, storage, []⟩

/-- `none` where the action is not possible: a request to a stopped process, a
start of a running one or with an environment the node rejects, or a panic. -/
def step (id : NodeId) (process : Process) : ProcessAction → Option Process
  | .perform operation => do
      let node ← process.node
      let (node', effects) ← node.perform operation
      let storage ← process.storage.applyAll effects
      some ⟨some node', storage, process.sent ++ messages effects⟩
  | .interrupt operation written => do
      let node ← process.node
      let (_, effects) ← node.perform operation
      let storage ← process.storage.applyAll (effects.take written)
      some ⟨none, storage, process.sent ++ messages (effects.take written)⟩
  | .crash => some { process with node := none }
  | .restart environment =>
      if process.node.isNone then
        match startUp id environment process.storage with
        | .error _ => none
        | .ok node => some { process with node := some node }
      else none

section Inversion

variable {id : NodeId} {process process' : Process} {operation : Operation}

theorem step_perform (h : process.step id (.perform operation) = some process') :
    ∃ node node' effects storage, process.node = some node ∧
      node.perform operation = some (node', effects) ∧
      process.storage.applyAll effects = some storage ∧
      process' = ⟨some node', storage, process.sent ++ messages effects⟩ := by
  obtain ⟨node, hnode, h⟩ := Option.bind_eq_some_iff.mp h
  obtain ⟨⟨node', effects⟩, hperform, h⟩ := Option.bind_eq_some_iff.mp h
  obtain ⟨storage, happly, h⟩ := Option.bind_eq_some_iff.mp h
  cases h
  exact ⟨node, node', effects, storage, hnode, hperform, happly, rfl⟩

theorem step_interrupt {written : Nat}
    (h : process.step id (.interrupt operation written) = some process') :
    ∃ node node' effects storage, process.node = some node ∧
      node.perform operation = some (node', effects) ∧
      process.storage.applyAll (effects.take written) = some storage ∧
      process' = ⟨none, storage,
        process.sent ++ messages (effects.take written)⟩ := by
  obtain ⟨node, hnode, h⟩ := Option.bind_eq_some_iff.mp h
  obtain ⟨⟨node', effects⟩, hperform, h⟩ := Option.bind_eq_some_iff.mp h
  obtain ⟨storage, happly, h⟩ := Option.bind_eq_some_iff.mp h
  cases h
  exact ⟨node, node', effects, storage, hnode, hperform, happly, rfl⟩

theorem step_restart {environment : Environment}
    (h : process.step id (.restart environment) = some process') :
    ∃ node, startUp id environment process.storage = .ok node ∧
      process' = { process with node := some node } := by
  simp only [step] at h
  split at h
  case isFalse => cases h
  case isTrue hstopped =>
    split at h
    case h_1 => cases h
    case h_2 node hstart =>
      cases h
      exact ⟨node, hstart, rfl⟩

end Inversion

/-- Runs whose every action meets `ok` in the state it is taken in. -/
def Run (ok : Process → ProcessAction → Prop) (id : NodeId) :
    Process → Process → Prop :=
  Relation.ReflTransGen (fun process process' =>
    ∃ action, ok process action ∧ process.step id action = some process')

/-- Anything may be asked of the process at any time. -/
def Anything (_ : Process) (_ : ProcessAction) : Prop := True

theorem Run.invariant {ok : Process → ProcessAction → Prop} {id : NodeId}
    (Inv : Process → Prop) {process process' : Process}
    (hstep : ∀ p action p', Inv p → ok p action →
      p.step id action = some p' → Inv p')
    (hrun : Run ok id process process') (h : Inv process) : Inv process' := by
  induction hrun with
  | refl => exact h
  | tail _ hlast ih =>
      obtain ⟨action, hok, haction⟩ := hlast
      exact hstep _ action _ ih hok haction

/-- Plays a whole schedule, as long as every action meets `ok`. -/
def play (ok : Process → ProcessAction → Prop) [∀ process, DecidablePred (ok process)]
    (id : NodeId) (process : Process) (schedule : List ProcessAction) :
    Option Process :=
  schedule.foldlM (fun process action =>
    if ok process action then process.step id action else none) process

instance (process : Process) : DecidablePred (Anything process) :=
  fun _ => inferInstanceAs (Decidable True)

theorem Run.of_schedule {ok : Process → ProcessAction → Prop}
    [∀ process, DecidablePred (ok process)] {id : NodeId}
    {schedule : List ProcessAction} :
    ∀ {process process' : Process},
      process.play ok id schedule = some process' → Run ok id process process' := by
  induction schedule with
  | nil =>
      intro process process' h
      cases h
      exact .refl
  | cons action rest ih =>
      intro process process' h
      obtain ⟨middle, hmiddle, h⟩ := Option.bind_eq_some_iff.mp h
      simp only [Option.ite_none_right_eq_some] at hmiddle
      exact .head ⟨action, hmiddle.1, hmiddle.2⟩ (ih h)

/-- Where a schedule leads to can be computed. -/
theorem Run.of_check (ok : Process → ProcessAction → Prop)
    [∀ process, DecidablePred (ok process)] (id : NodeId) (storage : Storage)
    (schedule : List ProcessAction) (Q : Process → Prop) [DecidablePred Q]
    (hcheck : ((stopped storage).play ok id schedule).map
      (fun process => decide (Q process)) = some true) :
    ∃ process, Run ok id (stopped storage) process ∧ Q process := by
  obtain ⟨process, hplay, hQ⟩ := Option.map_eq_some_iff.mp hcheck
  exact ⟨process, .of_schedule hplay, of_decide_eq_true hQ⟩

end Process

theorem startUp_ok {id : NodeId} {environment : Environment} {storage : Storage}
    {node : Node} (h : startUp id environment storage = .ok node) :
    node.id = id ∧ node.role = .follower ∧
      storage.hardState.voteRecord = node.voteRecord := by
  unfold startUp at h
  split at h
  · rename_i hfresh
    simp only [Storage.isFresh, Bool.and_eq_true, decide_eq_true_eq] at hfresh
    obtain ⟨hid, hrole, hdurable⟩ := Node.newLearner_ok h
    refine ⟨hid, hrole, ?_⟩
    rw [← Node.voteRecord_durable, hdurable, hfresh.2.1.1]
  · obtain ⟨-, hid, hrole, -, -, hdurable, -⟩ := Node.recover_ok h
    refine ⟨hid, hrole, ?_⟩
    rw [← Node.voteRecord_durable, hdurable]

end Kurogane.Runtime
