import Kurogane.Kv.Snapshots
import Kurogane.Raft.Transitions

/-!
A node with the state machine it feeds. After every request the entries that have
been committed are applied, one after another; a snapshot that has been installed
beyond the last of them replaces the map. An error stands for a panic.
-/

namespace Kurogane.Kv

open Kurogane.Raft (Bytes Node NodeId Effect Event LogEntry bind_eq_ok bind_eq_error)

abbrev Results := Std.ExtTreeMap Nat ApplyResult

structure Replica where
  node : Node
  stateMachine : StateMachine
  results : Results
deriving DecidableEq

/-- What a replica panics of: a transition of its node, or one of its own
`expect`s. -/
inductive Panic where
  | node
  | snapshotBytes
  | entryMissing
  | commandBytes
  | indexNotCommitted
deriving DecidableEq, Repr

/-- One call into the state machine while a replica drains what is committed. -/
inductive Delivery where
  | restored (boundary : Nat)
  | applied (index : Nat) (command : Command) (result : ApplyResult)
  | skipped (index : Nat)
deriving DecidableEq, Repr

/-- `restore`, of bytes that are expected to be well formed. -/
def StateMachine.mustRestore (machine : StateMachine) (lastApplied : Nat)
    (bytes : Bytes) : Except Panic StateMachine :=
  match machine.restore lastApplied bytes with
  | some (machine, .ok ()) => .ok machine
  | _ => .error .snapshotBytes

/-- One request of a replica's owner. -/
inductive Request where
  | step (event : Event)
  | propose (command : Command)
  | proposeConfigChange (newVoters : List NodeId)
  | addLearner (id : NodeId)
  | removeLearner (id : NodeId)
  | compact (retain : Nat)
deriving DecidableEq

namespace Replica

/-- The map of a node that carries a snapshot is restored from it. -/
def recover (node : Node) : Except Panic Replica := do
  let stateMachine ←
    if 0 < node.snapshot.lastIncludedIndex then
      StateMachine.new.mustRestore node.snapshot.lastIncludedIndex node.snapshotData
    else .ok StateMachine.new
  .ok { node, stateMachine, results := ∅ }

def lastApplied (replica : Replica) : Nat :=
  replica.stateMachine.lastApplied

def appliedResult (replica : Replica) (index : Nat) : Option ApplyResult :=
  replica.results[index]?

/-- Indices the jump skips have no entry anymore, and lose their results. -/
def jump (replica : Replica) : Except Panic (Replica × List Delivery) := do
  let boundary := replica.node.snapshot.lastIncludedIndex
  if replica.lastApplied < boundary then
    let stateMachine ← replica.stateMachine.mustRestore boundary replica.node.snapshotData
    .ok ({ replica with
      stateMachine
      results := replica.results.filter (fun index _ => boundary < index) },
      [.restored boundary])
  else
    .ok (replica, [])

def applyNext (replica : Replica) : Except Panic (Replica × Delivery) :=
  let index := replica.lastApplied + 1
  match replica.node.entryAt index with
  | none => .error .entryMissing
  | some entry =>
      match entry.payload with
      | .command bytes =>
          match Command.decode bytes with
          | .error _ => .error .commandBytes
          | .ok command =>
              let (stateMachine, result) := replica.stateMachine.apply command
              .ok ({ replica with
                stateMachine
                results := replica.results.insert index result },
                .applied index command result)
      | .configuration _ =>
          .ok ({ replica with stateMachine := replica.stateMachine.skip },
            .skipped index)

/-- The loop of `drain_committed`, for at most `rounds` entries. -/
def applyCommitted : Nat → Replica → Except Panic (Replica × List Delivery)
  | 0, replica => .ok (replica, [])
  | rounds + 1, replica =>
      if replica.lastApplied < replica.node.commitIndex then do
        let (replica, delivery) ← replica.applyNext
        let (replica, deliveries) ← applyCommitted rounds replica
        .ok (replica, delivery :: deliveries)
      else .ok (replica, [])

/-- Each round applies one entry, so the loop gets as many rounds as are missing. -/
def drainCommitted (replica : Replica) : Except Panic (Replica × List Delivery) := do
  let (replica, jumped) ← replica.jump
  let (replica, deliveries) ←
    applyCommitted (replica.node.commitIndex - replica.lastApplied) replica
  .ok (replica, jumped ++ deliveries)

/-! ### Requests -/

/-- The replica after a request, its answer and what it has delivered. -/
abbrev Served (α : Type) := Replica × α × List Delivery

/-- `none` when the node is not the leader. -/
def propose (replica : Replica) (command : Command) :
    Except Panic (Served (Option (Nat × List Effect))) :=
  match replica.node.propose command.encode with
  | none => .error .node
  | some none => .ok (replica, none, [])
  | some (some (node, index, effects)) => do
      let (replica, deliveries) ← { replica with node }.drainCommitted
      .ok (replica, some (index, effects), deliveries)

def step (replica : Replica) (event : Event) : Except Panic (Served (List Effect)) :=
  match replica.node.step event with
  | none => .error .node
  | some (node, effects) => do
      let (replica, deliveries) ← { replica with node }.drainCommitted
      .ok (replica, effects, deliveries)

def proposeConfigChange (replica : Replica) (newVoters : List NodeId) :
    Except Panic (Served (Option (Nat × List Effect))) :=
  match replica.node.proposeConfigChange newVoters with
  | none => .error .node
  | some none => .ok (replica, none, [])
  | some (some (node, index, effects)) => do
      let (replica, deliveries) ← { replica with node }.drainCommitted
      .ok (replica, some (index, effects), deliveries)

def addLearner (replica : Replica) (id : NodeId) : Except Panic (Served (List Effect)) := do
  let (node, effects) := replica.node.addLearner id
  let (replica, deliveries) ← { replica with node }.drainCommitted
  .ok (replica, effects, deliveries)

def removeLearner (replica : Replica) (id : NodeId) : Except Panic (Served (List Effect)) := do
  let (node, effects) := replica.node.removeLearner id
  let (replica, deliveries) ← { replica with node }.drainCommitted
  .ok (replica, effects, deliveries)

/-- Compacts all but the last `retain` of the entries that are applied; the bytes
are those of the map as it is. `none` if there is nothing to compact. -/
def compact (replica : Replica) (retain : Nat) :
    Except Panic (Replica × Option (List Effect)) :=
  let upToIndex := replica.lastApplied - retain
  if upToIndex = 0 ∨ upToIndex ≤ replica.node.snapshot.lastIncludedIndex then
    .ok (replica, none)
  else
    match replica.node.compact upToIndex replica.stateMachine.snapshot with
    | none => .error .node
    | some (.error _) => .error .indexNotCommitted
    | some (.ok (node, effects)) => .ok ({ replica with node }, some effects)

def perform (replica : Replica) : Request → Except Panic (Replica × List Delivery)
  | .step event => do
      let (replica, _, deliveries) ← replica.step event
      .ok (replica, deliveries)
  | .propose command => do
      let (replica, _, deliveries) ← replica.propose command
      .ok (replica, deliveries)
  | .proposeConfigChange newVoters => do
      let (replica, _, deliveries) ← replica.proposeConfigChange newVoters
      .ok (replica, deliveries)
  | .addLearner id => do
      let (replica, _, deliveries) ← replica.addLearner id
      .ok (replica, deliveries)
  | .removeLearner id => do
      let (replica, _, deliveries) ← replica.removeLearner id
      .ok (replica, deliveries)
  | .compact retain => do
      let (replica, _) ← replica.compact retain
      .ok (replica, [])

def performAll (replica : Replica) : List Request → Except Panic (Replica × List Delivery)
  | [] => .ok (replica, [])
  | request :: rest => do
      let (replica, deliveries) ← replica.perform request
      let (replica, later) ← replica.performAll rest
      .ok (replica, deliveries ++ later)

end Replica

namespace Replica

variable {replica next : Replica} {delivery : Delivery} {deliveries : List Delivery}
  {request : Request} {panic : Panic}

/-! ### The loop -/

/-- One entry applied or skipped. -/
theorem applyNext_cases (h : replica.applyNext = .ok (next, delivery)) :
    ∃ entry, replica.node.entryAt (replica.lastApplied + 1) = some entry ∧
      ((∃ bytes command, entry.payload = .command bytes ∧
          Command.decode bytes = .ok command ∧
          next = { replica with
            stateMachine := (replica.stateMachine.apply command).1
            results := replica.results.insert (replica.lastApplied + 1)
              (replica.stateMachine.apply command).2 } ∧
          delivery = .applied (replica.lastApplied + 1) command
            (replica.stateMachine.apply command).2) ∨
        ((∃ config, entry.payload = .configuration config) ∧
          next = { replica with stateMachine := replica.stateMachine.skip } ∧
          delivery = .skipped (replica.lastApplied + 1))) := by
  unfold applyNext at h
  dsimp only at h
  split at h
  · cases h
  rename_i entry hentry
  refine ⟨entry, hentry, ?_⟩
  split at h
  · rename_i bytes hpayload
    split at h
    · cases h
    · rename_i command hdecode
      cases h
      exact Or.inl ⟨bytes, command, hpayload, hdecode, rfl, rfl⟩
  · rename_i config hpayload
    cases h
    exact Or.inr ⟨⟨config, hpayload⟩, rfl, rfl⟩

theorem applyNext_lastApplied (h : replica.applyNext = .ok (next, delivery)) :
    next.node = replica.node ∧ next.lastApplied = replica.lastApplied + 1 := by
  obtain ⟨entry, -, ⟨bytes, command, -, -, rfl, -⟩ | ⟨-, rfl, -⟩⟩ := applyNext_cases h
  · refine ⟨rfl, ?_⟩
    cases command <;> rfl
  · exact ⟨rfl, rfl⟩

/-- Entries applied one after another, while some are committed. -/
inductive Applies : Replica → List Delivery → Replica → Prop
  | done {replica : Replica} : Applies replica [] replica
  | next {replica next last : Replica} {delivery : Delivery} {deliveries : List Delivery} :
      replica.lastApplied < replica.node.commitIndex →
      replica.applyNext = .ok (next, delivery) →
      Applies next deliveries last → Applies replica (delivery :: deliveries) last

/-- The loop ends once all that is committed has been applied. -/
theorem applyCommitted_applies {rounds : Nat}
    (h : applyCommitted rounds replica = .ok (next, deliveries)) :
    Applies replica deliveries next ∧
      (replica.node.commitIndex - replica.lastApplied ≤ rounds →
        next.node.commitIndex ≤ next.lastApplied) := by
  induction rounds generalizing replica deliveries with
  | zero =>
      cases h
      exact ⟨.done, fun hnone => Nat.sub_eq_zero_iff_le.mp (Nat.le_zero.mp hnone)⟩
  | succ rounds ih =>
      unfold applyCommitted at h
      split at h
      · rename_i hbehind
        obtain ⟨⟨middle, delivery⟩, hnext, h⟩ := bind_eq_ok h
        obtain ⟨⟨last, later⟩, hlater, h⟩ := bind_eq_ok h
        cases h
        obtain ⟨happlies, hends⟩ := ih hlater
        obtain ⟨hnode, happlied⟩ := applyNext_lastApplied hnext
        refine ⟨.next hbehind hnext happlies, fun henough => hends ?_⟩
        rw [hnode, happlied]
        omega
      · rename_i hdone
        cases h
        exact ⟨.done, fun _ => Nat.not_lt.mp hdone⟩

theorem applyNext_error (h : replica.applyNext = .error panic) :
    replica.node.entryAt (replica.lastApplied + 1) = none ∨ panic = .commandBytes := by
  unfold applyNext at h
  dsimp only at h
  split at h
  · rename_i hnone
    exact Or.inl hnone
  · split at h
    · split at h
      · cases h
        exact Or.inr rfl
      · cases h
    · cases h

/-- Where all that is committed is in the log, the loop finds it. -/
theorem applyCommitted_error {rounds : Nat}
    (hheld : ∀ index, replica.lastApplied < index → index ≤ replica.node.commitIndex →
      ∃ entry, replica.node.entryAt index = some entry)
    (h : applyCommitted rounds replica = .error panic) : panic = .commandBytes := by
  induction rounds generalizing replica with
  | zero => cases h
  | succ rounds ih =>
      unfold applyCommitted at h
      split at h
      · rename_i hbehind
        rcases bind_eq_error h with hnext | ⟨⟨middle, delivery⟩, hnext, h⟩
        · obtain ⟨entry, hentry⟩ := hheld _ (Nat.lt_succ_self _) hbehind
          rcases applyNext_error hnext with hnone | hbytes
          · rw [hentry] at hnone
            cases hnone
          · exact hbytes
        · obtain ⟨hnode, happlied⟩ := applyNext_lastApplied hnext
          rcases bind_eq_error h with hlater | ⟨⟨last, later⟩, -, h⟩
          · refine ih (fun index hlow hhigh => ?_) hlater
            rw [hnode] at hhigh ⊢
            exact hheld index (by omega) hhigh
          · cases h
      · cases h

end Replica

end Kurogane.Kv
