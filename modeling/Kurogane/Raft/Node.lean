import Kurogane.Raft.Types
import Std.Data.ExtTreeMap
import Std.Data.ExtTreeMap.Lemmas
import Std.Data.ExtTreeSet
import Std.Data.ExtTreeSet.Lemmas

/-!
The state of one Raft node, its recovery from durable state, and the
accessors the transitions read it through. `BTreeSet` and `BTreeMap` are the
ordered collections of the standard library; `none` in a result type stands
for a panic of the source.
-/

namespace Kurogane.Raft

abbrev NodeSet := Std.ExtTreeSet NodeId

abbrev Progress := Std.ExtTreeMap NodeId Nat

structure Node where
  id : NodeId
  role : Role
  currentTerm : Nat
  votedFor : Option NodeId
  electionElapsed : Nat
  electionTimeout : Nat
  votesGranted : NodeSet
  heartbeatElapsed : Nat
  heartbeatInterval : Nat
  leaderContactElapsed : Nat
  log : List LogEntry
  commitIndex : Nat
  nextIndex : Progress
  matchIndex : Progress
  snapshot : SnapshotMetadata
  snapshotData : Bytes
  snapshotConfig : ClusterConfig
  currentConfig : ClusterConfig
  currentConfigIndex : Nat
  learners : NodeSet
deriving DecidableEq

/-- The most recent `configuration` payload of `log` with its absolute index;
`boundary` is the index just below the first entry. -/
def latestConfigurationIn (log : List LogEntry) (boundary : Nat) :
    Option (ClusterConfig × Nat) :=
  log.zipIdx.reverse.findSome? (fun (entry, offset) =>
    match entry.payload with
    | .configuration config => some (config, boundary + offset + 1)
    | .command _ => none)

theorem latestConfigurationIn_mem {log : List LogEntry} {boundary index : Nat}
    {config : ClusterConfig}
    (h : latestConfigurationIn log boundary = some (config, index)) :
    ∃ term, ⟨term, .configuration config⟩ ∈ log := by
  unfold latestConfigurationIn at h
  obtain ⟨⟨entry, offset⟩, hmem, hentry⟩ := List.exists_of_findSome?_eq_some h
  have hlog : entry ∈ log :=
    List.fst_mem_of_mem_zipIdx (List.mem_reverse.mp hmem)
  cases hpayload : entry.payload with
  | command bytes => simp [hpayload] at hentry
  | configuration found =>
      simp only [hpayload, Option.some.injEq, Prod.mk.injEq] at hentry
      obtain ⟨rfl, -⟩ := hentry
      exact ⟨entry.term, by rw [← hpayload]; exact hlog⟩

def majorityReached (set : List NodeId) (reached : NodeId → Bool) : Bool :=
  set.length / 2 + 1 ≤ (set.filter reached).length

/-- Some two neighbours of `peers` are not in strictly ascending order. -/
def notStrictlyOrdered (peers : List NodeId) : Bool :=
  (peers.zip peers.tail).any (fun (first, second) => second ≤ first)

theorem ok_of_toOption {α ε : Type} {x : Except ε α} {a : α}
    (h : x.toOption = some a) : x = .ok a := by
  cases x with
  | error e => cases h
  | ok b => exact congrArg Except.ok (Option.some.inj h)

theorem exists_of_any {α : Type} {found : Option α} {P : α → Prop} [DecidablePred P]
    (h : found.any (fun a => decide (P a)) = true) : ∃ a, found = some a ∧ P a := by
  cases found with
  | none => cases h
  | some a => exact ⟨a, rfl, of_decide_eq_true h⟩

section Sequencing

variable {ε α β : Type} {x : Except ε α} {f : α → Except ε β} {b : β} {error : ε}

theorem bind_eq_ok (h : x >>= f = .ok b) : ∃ a, x = .ok a ∧ f a = .ok b := by
  cases x with
  | error error => cases h
  | ok a => exact ⟨a, rfl, h⟩

theorem bind_eq_error (h : x >>= f = .error error) :
    x = .error error ∨ ∃ a, x = .ok a ∧ f a = .error error := by
  cases x with
  | error other =>
      cases h
      exact Or.inl rfl
  | ok a => exact Or.inr ⟨a, rfl, h⟩

/-- A sequence that succeeds goes on from the result of its first step, as any other does
that begins so. -/
theorem bind_ok_cases (h : x >>= f = .ok b) :
    ∃ a, (∀ {γ : Type} (g : α → Except ε γ), x >>= g = g a) ∧ f a = .ok b := by
  obtain ⟨a, rfl, h⟩ := bind_eq_ok h
  exact ⟨a, fun _ => rfl, h⟩

/-- A sequence fails at its first step, whatever is done next, or goes on from its result. -/
theorem bind_error_cases (h : x >>= f = .error error) :
    (∀ {γ : Type} (g : α → Except ε γ), x >>= g = .error error) ∨
      ∃ a, (∀ {γ : Type} (g : α → Except ε γ), x >>= g = g a) ∧ f a = .error error := by
  rcases bind_eq_error h with rfl | ⟨a, rfl, h⟩
  · exact Or.inl fun _ => rfl
  · exact Or.inr ⟨a, fun _ => rfl, h⟩

end Sequencing

namespace Node

def recover (id : NodeId) (peers : List NodeId)
    (electionTimeout heartbeatInterval : Nat) (hardState : HardState)
    (log : List LogEntry) (snapshot : Snapshot) (learners : List NodeId) :
    Except ConfigError Node :=
  if peers.isEmpty then
    .error .emptyConfiguration
  else if notStrictlyOrdered peers then
    .error .membersNotStrictlyOrdered
  else if !peers.contains id then
    .error .localNodeMissing
  else if electionTimeout = 0 then
    .error .zeroElectionTimeout
  else if heartbeatInterval = 0 then
    .error .zeroHeartbeatInterval
  else if heartbeatInterval > electionTimeout then
    .error .heartbeatIntervalExceedsElectionTimeout
  else
    let snapshotConfig :=
      if snapshot.metadata.lastIncludedIndex > 0 then snapshot.config
      else { voters := peers, oldVoters := none }
    let current :=
      (latestConfigurationIn log snapshot.metadata.lastIncludedIndex).getD
        (snapshotConfig, snapshot.metadata.lastIncludedIndex)
    .ok {
      id
      role := .follower
      currentTerm := hardState.currentTerm
      votedFor := hardState.votedFor
      electionElapsed := 0
      electionTimeout
      votesGranted := ∅
      heartbeatElapsed := 0
      heartbeatInterval
      leaderContactElapsed := heartbeatInterval
      log
      commitIndex := snapshot.metadata.lastIncludedIndex
      nextIndex := ∅
      matchIndex := ∅
      snapshot := snapshot.metadata
      snapshotData := snapshot.data
      snapshotConfig
      currentConfig := current.1
      currentConfigIndex := current.2
      learners := .ofList learners }

/-- A fresh node recovers from no prior hard state and an empty log. -/
def new (id : NodeId) (peers : List NodeId)
    (electionTimeout heartbeatInterval : Nat) : Except ConfigError Node :=
  recover id peers electionTimeout heartbeatInterval .default [] .default []

/-- A node joining an existing cluster: a member of no configuration until a
leader's log or snapshot admits it. -/
def newLearner (id : NodeId) (electionTimeout heartbeatInterval : Nat) :
    Except ConfigError Node :=
  if electionTimeout = 0 then
    .error .zeroElectionTimeout
  else if heartbeatInterval = 0 then
    .error .zeroHeartbeatInterval
  else if heartbeatInterval > electionTimeout then
    .error .heartbeatIntervalExceedsElectionTimeout
  else
    .ok {
      id
      role := .follower
      currentTerm := 0
      votedFor := none
      electionElapsed := 0
      electionTimeout
      votesGranted := ∅
      heartbeatElapsed := 0
      heartbeatInterval
      leaderContactElapsed := heartbeatInterval
      log := []
      commitIndex := 0
      nextIndex := ∅
      matchIndex := ∅
      snapshot := .default
      snapshotData := []
      snapshotConfig := { voters := [], oldVoters := none }
      currentConfig := { voters := [], oldVoters := none }
      currentConfigIndex := 0
      learners := ∅ }

def recomputeConfig (node : Node) : Node :=
  let current :=
    (latestConfigurationIn node.log node.snapshot.lastIncludedIndex).getD
      (node.snapshotConfig, node.snapshot.lastIncludedIndex)
  { node with currentConfig := current.1, currentConfigIndex := current.2 }

def lastLogIndex (node : Node) : Nat :=
  node.snapshot.lastIncludedIndex + node.log.length

def lastLogTerm (node : Node) : Nat :=
  (node.log.getLast?.map LogEntry.term).getD node.snapshot.lastIncludedTerm

def isMember (node : Node) (id : NodeId) : Bool :=
  node.currentConfig.isVoter id || node.learners.contains id

/-- Position of absolute `index` within the log; callers ensure that it lies
above the snapshot boundary. -/
def vecIndex (node : Node) (index : Nat) : Nat :=
  index - node.snapshot.lastIncludedIndex - 1

def entryAt (node : Node) (index : Nat) : Option LogEntry :=
  if index = 0 ∨ index ≤ node.snapshot.lastIncludedIndex then none
  else node.log[node.vecIndex index]?

def termAt (node : Node) (index : Nat) : Option Nat :=
  if index = 0 then none
  else if index = node.snapshot.lastIncludedIndex then
    some node.snapshot.lastIncludedTerm
  else if index < node.snapshot.lastIncludedIndex then none
  else (node.entryAt index).map LogEntry.term

/-- The entries from absolute `index` on. Slicing past the end panics. -/
def entriesFrom (node : Node) (index : Nat) : Option (List LogEntry) :=
  if node.vecIndex index ≤ node.log.length then
    some (node.log.drop (node.vecIndex index))
  else none

def quorumSize (node : Node) : Nat :=
  node.currentConfig.voters.length / 2 + 1

/-- Whether an election has been won. The granted votes are counted, not
matched against `voters`; only the old set is matched member by member. -/
def hasQuorum (node : Node) : Bool :=
  let newMajority : Bool := node.quorumSize ≤ node.votesGranted.size
  match node.currentConfig.oldVoters with
  | none => newMajority
  | some oldVoters =>
      newMajority && majorityReached oldVoters node.votesGranted.contains

end Node

end Kurogane.Raft
