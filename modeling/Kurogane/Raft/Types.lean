import Mathlib.Data.Finset.Card
import Mathlib.Data.List.Sort
import Mathlib.Order.Basic
import Mathlib.Order.Compare

/-!
Protocol types of the transport-free Raft core. Terms, indices and timeouts
are `u64` counters in the source and natural numbers here. Where a sum of them
overflows, a debug build of the source panics and a release build goes on with
the wrapped value; the transitions over machine words say what either does,
and agree with those over natural numbers as long as nothing overflows. Opaque
bytes stay a list of bytes.
-/

namespace Kurogane.Raft

/-- Stable identity of one member in a Raft configuration. -/
structure NodeId where
  id : Nat
deriving DecidableEq, Repr

instance : LinearOrder NodeId :=
  LinearOrder.lift' NodeId.id (fun a b h => by
    cases a
    cases b
    exact congrArg NodeId.mk h)

instance : Std.TransOrd NodeId := inferInstance

instance : Std.LawfulEqOrd NodeId where
  eq_of_compare h := compare_eq_iff_eq.mp h

abbrev Bytes := List UInt8

inductive Role where
  | follower
  | candidate
  | leader
deriving DecidableEq, Repr

structure RequestVote where
  term : Nat
  candidateId : NodeId
  lastLogIndex : Nat
  lastLogTerm : Nat
deriving DecidableEq, Repr

structure RequestVoteResponse where
  term : Nat
  granted : Bool
deriving DecidableEq, Repr

/-- A cluster's voting membership. `oldVoters` is present only while a joint
transition is in flight and then holds the set being replaced. -/
structure ClusterConfig where
  voters : List NodeId
  oldVoters : Option (List NodeId)
deriving DecidableEq, Repr

/-- `ClusterConfig::default()`. -/
def ClusterConfig.default : ClusterConfig := ⟨[], none⟩

def ClusterConfig.isVoter (config : ClusterConfig) (id : NodeId) : Bool :=
  config.voters.contains id || (config.oldVoters.getD []).contains id

def ClusterConfig.isJoint (config : ClusterConfig) : Bool :=
  config.oldVoters.isSome

inductive LogPayload where
  | command (bytes : Bytes)
  | configuration (config : ClusterConfig)
deriving DecidableEq, Repr

structure LogEntry where
  term : Nat
  payload : LogPayload
deriving DecidableEq, Repr

/-- A leader's replication message. Empty `entries` is a heartbeat. -/
structure AppendEntries where
  term : Nat
  leaderId : NodeId
  prevLogIndex : Nat
  prevLogTerm : Nat
  entries : List LogEntry
  leaderCommit : Nat
deriving DecidableEq, Repr

structure AppendEntriesResponse where
  term : Nat
  success : Bool
  matchIndex : Nat
deriving DecidableEq, Repr

structure InstallSnapshot where
  term : Nat
  leaderId : NodeId
  lastIncludedIndex : Nat
  lastIncludedTerm : Nat
  data : Bytes
  config : ClusterConfig
deriving DecidableEq, Repr

structure InstallSnapshotResponse where
  term : Nat
  lastIncludedIndex : Nat
deriving DecidableEq, Repr

inductive Message where
  | requestVote (request : RequestVote)
  | requestVoteResponse (response : RequestVoteResponse)
  | appendEntries (request : AppendEntries)
  | appendEntriesResponse (response : AppendEntriesResponse)
  | installSnapshot (request : InstallSnapshot)
  | installSnapshotResponse (response : InstallSnapshotResponse)
deriving DecidableEq, Repr

/-- One explicit input to a node transition. -/
inductive Event where
  | tick (nextTimeout : Nat)
  | step (sender : NodeId) (message : Message)
deriving DecidableEq, Repr

/-- One request of a node's owner. -/
inductive Operation where
  | tick (nextTimeout : Nat)
  | receive (sender : NodeId) (message : Message)
  | propose (command : Bytes)
  | proposeConfigChange (newVoters : List NodeId)
  | addLearner (id : NodeId)
  | removeLearner (id : NodeId)
  | compact (upToIndex : Nat) (snapshotData : Bytes)
deriving DecidableEq, Repr

/-- One side effect emitted by a node transition for its owner to interpret. -/
inductive Effect where
  | send (receiver : NodeId) (message : Message)
  | persistHardState (term : Nat) (votedFor : Option NodeId)
  | persistLog (fromIndex : Nat) (entries : List LogEntry)
  | persistSnapshot (lastIncludedIndex lastIncludedTerm : Nat) (data : Bytes)
      (config : ClusterConfig)
  | persistLearners (learners : List NodeId)
deriving DecidableEq, Repr

def Effect.isSend : Effect → Bool
  | .send _ _ => true
  | _ => false

structure HardState where
  currentTerm : Nat
  votedFor : Option NodeId
deriving DecidableEq, Repr

/-- `HardState::default()`. -/
def HardState.default : HardState := ⟨0, none⟩

/-- `lastIncludedIndex = 0` means no snapshot exists yet, and every absolute
index still lives in the log. -/
structure SnapshotMetadata where
  lastIncludedIndex : Nat
  lastIncludedTerm : Nat
deriving DecidableEq, Repr

/-- `SnapshotMetadata::default()`. -/
def SnapshotMetadata.default : SnapshotMetadata := ⟨0, 0⟩

structure Snapshot where
  metadata : SnapshotMetadata
  data : Bytes
  config : ClusterConfig
deriving DecidableEq, Repr

/-- `Snapshot::default()`. -/
def Snapshot.default : Snapshot := ⟨.default, [], .default⟩

/-- Invalid construction of a Raft node. -/
inductive ConfigError where
  | emptyConfiguration
  | membersNotStrictlyOrdered
  | localNodeMissing
  | zeroElectionTimeout
  | zeroHeartbeatInterval
  | heartbeatIntervalExceedsElectionTimeout
deriving DecidableEq, Repr

/-- Invalid compaction request. -/
inductive CompactError where
  | indexNotCommitted
deriving DecidableEq, Repr

end Kurogane.Raft
