import Kurogane.Consensus.Traces
import Kurogane.Raft.Overflow
import Kurogane.Runtime.Process

/-!
One process over its storage as it is built: its counters are machine words. In a debug
build a request whose counters overflow takes the process down before it has written or
sent anything, which is a crash like any other. In a release build it is carried out
with what the words wrap to. As long as nothing overflows, either build runs as the
process over numbers without a bound does.
-/

namespace Kurogane.Runtime

open Kurogane.Raft Kurogane.Consensus Kurogane.Words

namespace Storage

/-- The update `apply` makes before it flushes. The position of a splice takes two
subtractions. -/
def applyWith (arith : Arithmetic) (storage : Storage) : Effect → Option Storage
  | .persistHardState term votedFor =>
      some { storage with hardState := ⟨term, votedFor⟩ }
  | .persistLog fromIndex entries => do
      let above ← arith.sub fromIndex storage.snapshot.lastIncludedIndex
      let position ← arith.sub above 1
      some { storage with log := storage.log.take position ++ entries }
  | .persistSnapshot lastIncludedIndex lastIncludedTerm data config =>
      some { storage with
        snapshot := ⟨lastIncludedIndex, lastIncludedTerm⟩
        snapshotData := data
        snapshotConfig := config }
  | .send _ _ => some storage
  | .persistLearners learners => some { storage with learners }

def applyAllWith (arith : Arithmetic) (storage : Storage) (effects : List Effect) :
    Option Storage :=
  effects.foldlM (applyWith arith) storage

/-- `apply` is the update of a debug build. -/
theorem applyWith_debug (storage : Storage) (effect : Effect) :
    storage.applyWith Build.debug.arithmetic effect = storage.apply effect := by
  cases effect with
  | persistLog fromIndex entries =>
      unfold applyWith apply
      dsimp only [Build.arithmetic, Arithmetic.checked]
      by_cases hbelow : storage.snapshot.lastIncludedIndex ≤ fromIndex
      · rw [if_pos hbelow, Option.bind_eq_bind, Option.bind_some]
        by_cases hone : 1 ≤ fromIndex - storage.snapshot.lastIncludedIndex
        · rw [if_pos hone, if_neg (by omega)]
          rfl
        · rw [if_neg hone, if_pos (by omega)]
          rfl
      · rw [if_neg hbelow, if_pos (by omega)]
        rfl
  | _ => rfl

theorem applyAllWith_debug (storage : Storage) (effects : List Effect) :
    storage.applyAllWith Build.debug.arithmetic effects = storage.applyAll effects :=
  congrArg (List.foldlM · storage effects) (funext fun storage =>
    funext fun effect => storage.applyWith_debug effect)

theorem applyWith_narrows {first second : Arithmetic} (h : first.Below second)
    (storage : Storage) (effect : Effect) :
    Narrows (storage.applyWith first effect) (storage.applyWith second effect) := by
  cases effect with
  | persistLog fromIndex entries =>
      exact .bind (h.sub _ _) fun _ => .bind (h.sub _ _) fun _ => .refl _
  | _ => exact .refl _

theorem applyAllWith_narrows {first second : Arithmetic} (h : first.Below second)
    (effects : List Effect) : ∀ storage : Storage,
      Narrows (storage.applyAllWith first effects)
        (storage.applyAllWith second effects) := by
  induction effects with
  | nil => exact fun _ => .refl _
  | cons effect rest ih =>
      exact fun storage => .bind (applyWith_narrows h storage effect) fun _ => ih _

end Storage

/-- The node `main` starts with. -/
def startUpWith (arith : Arithmetic) (id : NodeId) (environment : Environment)
    (storage : Storage) : Option (Except ConfigError Node) :=
  if environment.joinAsLearner && storage.isFresh then
    some (Node.newLearner id environment.electionTimeoutTicks
      environment.heartbeatIntervalTicks)
  else
    Node.recoverWith arith id environment.memberIds environment.electionTimeoutTicks
      environment.heartbeatIntervalTicks storage.hardState storage.log
      ⟨storage.snapshot, storage.snapshotData, storage.snapshotConfig⟩
      storage.learners

theorem startUpWith_exact (id : NodeId) (environment : Environment)
    (storage : Storage) : startUpWith .exact id environment storage =
      some (startUp id environment storage) := by
  unfold startUpWith startUp
  rw [Node.recoverWith_exact]
  split <;> rfl

theorem startUpWith_narrows {first second : Arithmetic} (h : first.Below second)
    (id : NodeId) (environment : Environment) (storage : Storage) :
    Narrows (startUpWith first id environment storage)
      (startUpWith second id environment storage) :=
  .ite (.refl _) (Node.recoverWith_narrows h _ _ _ _ _ _ _ _)

namespace Process

/-- One action of a process built as `build`. `none` where the action is not possible,
or panics. -/
def stepWith (build : Build) (id : NodeId) (process : Process) :
    ProcessAction → Option Process
  | .perform operation => do
      let node ← process.node
      let (node', effects) ← node.performWith build.arithmetic operation
      let storage ← process.storage.applyAllWith build.arithmetic effects
      some ⟨some node', storage, process.sent ++ messages effects⟩
  | .interrupt operation written => do
      let node ← process.node
      let (_, effects) ← node.performWith build.arithmetic operation
      let storage ←
        process.storage.applyAllWith build.arithmetic (effects.take written)
      some ⟨none, storage, process.sent ++ messages (effects.take written)⟩
  | .crash => some { process with node := none }
  | .restart environment =>
      if process.node.isNone then do
        match ← startUpWith build.arithmetic id environment process.storage with
        | .error _ => none
        | .ok node => some { process with node := some node }
      else none

/-- An action in which no counter overflows: it is one a debug build carries out. -/
def InRange (build : Build) (id : NodeId) (process : Process) (action : ProcessAction) :
    Prop :=
  build = .release → (process.stepWith .debug id action).isSome = true

instance (build : Build) (id : NodeId) (process : Process) :
    DecidablePred (process.InRange build id) :=
  fun _ => inferInstanceAs (Decidable (_ → _))

/-- What a debug build does is a step over numbers without a bound. -/
theorem step_of_debug {id : NodeId} {process process' : Process}
    {action : ProcessAction} (h : process.stepWith .debug id action = some process') :
    process.step id action = some process' := by
  have hperform : ∀ (node : Node) (operation : Operation),
      Narrows (node.performWith Build.debug.arithmetic operation)
        (node.perform operation) := fun _ _ _ => Node.performWith_debug
  cases action with
  | perform operation =>
      refine Narrows.bind (.refl process.node) (fun node =>
        .bind (hperform node operation) fun result => .bind ?_ fun _ => .refl _) _ h
      rw [Storage.applyAllWith_debug]
      exact .refl _
  | interrupt operation written =>
      refine Narrows.bind (.refl process.node) (fun node =>
        .bind (hperform node operation) fun result => .bind ?_ fun _ => .refl _) _ h
      rw [Storage.applyAllWith_debug]
      exact .refl _
  | crash => exact h
  | restart environment =>
      have hstart := startUpWith_narrows (Arithmetic.checked_below_exact (2 ^ 64)) id
        environment process.storage
      rw [startUpWith_exact] at hstart
      exact Narrows.ite (.bind hstart fun _ => .refl _) (.refl _) _ h

/-- A release build does the same then. -/
theorem stepWith_narrows (id : NodeId) (process : Process) (action : ProcessAction) :
    Narrows (process.stepWith .debug id action)
      (process.stepWith .release id action) := by
  have hbelow := Arithmetic.checked_below_wrapping (2 ^ 64)
  cases action with
  | perform operation =>
      exact .bind (.refl _) fun node =>
        .bind (Node.performWith_narrows hbelow node operation) fun _ =>
          .bind (Storage.applyAllWith_narrows hbelow _ _) fun _ => .refl _
  | interrupt operation written =>
      exact .bind (.refl _) fun node =>
        .bind (Node.performWith_narrows hbelow node operation) fun _ =>
          .bind (Storage.applyAllWith_narrows hbelow _ _) fun _ => .refl _
  | crash => exact .refl _
  | restart environment =>
      exact .ite (.bind (startUpWith_narrows hbelow id environment _) fun _ => .refl _)
        (.refl _)

/-- In either build an action in which nothing overflows is a step over numbers without
a bound. -/
theorem InRange.step {build : Build} {id : NodeId} {process process' : Process}
    {action : ProcessAction} (hrange : process.InRange build id action)
    (h : process.stepWith build id action = some process') :
    process.step id action = some process' := by
  cases build with
  | debug => exact step_of_debug h
  | release =>
      obtain ⟨found, hfound⟩ := Option.isSome_iff_exists.mp (hrange rfl)
      have hsame := stepWith_narrows id process action found hfound
      obtain rfl : found = process' := Option.some.inj (hsame.symm.trans h)
      exact step_of_debug hfound

/-- The states of a run of a process built as `build`, newest first. -/
abbrev RunWith (build : Build) (id : NodeId)
    (ok : Process → ProcessAction → Prop) : Process → List Process → Prop :=
  Trace (stepWith build id) ok

/-- A run in which nothing overflows is a run over numbers without a bound. -/
theorem RunWith.run {build : Build} {id : NodeId} {start process : Process}
    {past : List Process}
    (hrun : RunWith build id (InRange build id) start (process :: past)) :
    Run Anything id start process := by
  have hall : ∀ current ∈ (process :: past).head?, Run Anything id start current := by
    refine hrun.invariant (fun states => ∀ current ∈ states.head?,
      Run Anything id start current) ?_ ?_
    · rintro current hcurrent
      cases hcurrent
      exact .refl
    · intro current earlier action next hbefore hrange hstep last hlast
      cases hlast
      exact .tail (hbefore current rfl) ⟨action, trivial, hrange.step hstep⟩
  exact hall process rfl

/-- Where a schedule leads a process to that has not been started yet can be
computed. -/
theorem RunWith.of_check (build : Build) (id : NodeId)
    (ok : Process → ProcessAction → Prop) [∀ process, DecidablePred (ok process)]
    (storage : Storage) (schedule : List ProcessAction) (Q : Process → Prop)
    [DecidablePred Q]
    (hcheck : ((Consensus.play (stepWith build id) ok (stopped storage) []
      schedule).bind (fun states => states.head?.map (fun process =>
        decide (Q process)))) = some true) :
    ∃ process past, RunWith build id ok (stopped storage) (process :: past) ∧
      Q process := by
  obtain ⟨states, hstates, hcheck⟩ := Option.bind_eq_some_iff.mp hcheck
  obtain ⟨process, hprocess, hQ⟩ := Option.map_eq_some_iff.mp hcheck
  obtain ⟨past, rfl⟩ := List.head?_eq_some_iff.mp hprocess
  exact ⟨process, past, .of_play .refl hstates, of_decide_eq_true hQ⟩

end Process

end Kurogane.Runtime
