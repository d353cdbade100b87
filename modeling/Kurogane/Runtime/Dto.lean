import Kurogane.Kv.Codec
import Kurogane.Runtime.Mirroring

/-!
The messages of peers and clients as they go over the wire, and the conversions in both
directions. What a conversion from the wire accepts is well formed, and what is well
formed comes back as it was.
-/

namespace Kurogane.Runtime.Proto

open Kurogane.Raft

structure RequestVoteRequest where
  term : Nat
  candidateId : Nat
  lastLogIndex : Nat
  lastLogTerm : Nat
deriving DecidableEq, Repr

structure RequestVoteReply where
  term : Nat
  granted : Bool
deriving DecidableEq, Repr

structure AppendEntriesRequest where
  term : Nat
  leaderId : Nat
  prevLogIndex : Nat
  prevLogTerm : Nat
  entries : List LogEntry
  leaderCommit : Nat
deriving DecidableEq, Repr

structure AppendEntriesReply where
  term : Nat
  success : Bool
  matchIndex : Nat
deriving DecidableEq, Repr

structure InstallSnapshotRequest where
  term : Nat
  leaderId : Nat
  lastIncludedIndex : Nat
  lastIncludedTerm : Nat
  data : Bytes
  config : Option Configuration
deriving DecidableEq, Repr

structure InstallSnapshotReply where
  term : Nat
  lastIncludedIndex : Nat
deriving DecidableEq, Repr

structure ProposeConfigChangeRequest where
  voters : List Nat
deriving DecidableEq, Repr

structure AddLearnerRequest where
  nodeId : Nat
  address : String
deriving DecidableEq, Repr

/-- The `oneof kind` of a command. -/
inductive CommandKind where
  | set (key value : Bytes)
  | delete (key : Bytes)
  | get (key : Bytes)
deriving DecidableEq, Repr

structure Command where
  kind : Option CommandKind
deriving DecidableEq, Repr

/-- The `oneof kind` of a result. -/
inductive ApplyResultKind where
  | set (previous : Option Bytes)
  | delete (previous : Option Bytes)
  | get (value : Option Bytes)
deriving DecidableEq, Repr

structure ApplyResult where
  kind : Option ApplyResultKind
deriving DecidableEq, Repr

end Kurogane.Runtime.Proto

namespace Kurogane.Runtime

open Kurogane.Raft
open Kurogane.Kv (Command ApplyResult)

/-! ### Peers -/

def requestVoteFromProto (proto : Proto.RequestVoteRequest) : RequestVote where
  term := proto.term
  candidateId := ⟨proto.candidateId⟩
  lastLogIndex := proto.lastLogIndex
  lastLogTerm := proto.lastLogTerm

def requestVoteToProto (value : RequestVote) : Proto.RequestVoteRequest where
  term := value.term
  candidateId := value.candidateId.id
  lastLogIndex := value.lastLogIndex
  lastLogTerm := value.lastLogTerm

def requestVoteResponseFromProto (proto : Proto.RequestVoteReply) : RequestVoteResponse where
  term := proto.term
  granted := proto.granted

def requestVoteResponseToProto (value : RequestVoteResponse) : Proto.RequestVoteReply where
  term := value.term
  granted := value.granted

def appendEntriesFromProto (proto : Proto.AppendEntriesRequest) :
    Except InvalidData AppendEntries := do
  let entries ← proto.entries.mapM logEntryFromProto
  .ok {
    term := proto.term
    leaderId := ⟨proto.leaderId⟩
    prevLogIndex := proto.prevLogIndex
    prevLogTerm := proto.prevLogTerm
    entries
    leaderCommit := proto.leaderCommit }

def appendEntriesToProto (value : AppendEntries) : Proto.AppendEntriesRequest where
  term := value.term
  leaderId := value.leaderId.id
  prevLogIndex := value.prevLogIndex
  prevLogTerm := value.prevLogTerm
  entries := value.entries.map logEntryToProto
  leaderCommit := value.leaderCommit

def appendEntriesResponseFromProto (proto : Proto.AppendEntriesReply) :
    AppendEntriesResponse where
  term := proto.term
  success := proto.success
  matchIndex := proto.matchIndex

def appendEntriesResponseToProto (value : AppendEntriesResponse) :
    Proto.AppendEntriesReply where
  term := value.term
  success := value.success
  matchIndex := value.matchIndex

/-- A missing configuration is an empty one. -/
def installSnapshotFromProto (proto : Proto.InstallSnapshotRequest) : InstallSnapshot where
  term := proto.term
  leaderId := ⟨proto.leaderId⟩
  lastIncludedIndex := proto.lastIncludedIndex
  lastIncludedTerm := proto.lastIncludedTerm
  data := proto.data
  config := (proto.config.map configurationFromProto).getD .default

def installSnapshotToProto (value : InstallSnapshot) : Proto.InstallSnapshotRequest where
  term := value.term
  leaderId := value.leaderId.id
  lastIncludedIndex := value.lastIncludedIndex
  lastIncludedTerm := value.lastIncludedTerm
  data := value.data
  config := some (configurationToProto value.config)

def installSnapshotResponseFromProto (proto : Proto.InstallSnapshotReply) :
    InstallSnapshotResponse where
  term := proto.term
  lastIncludedIndex := proto.lastIncludedIndex

def installSnapshotResponseToProto (value : InstallSnapshotResponse) :
    Proto.InstallSnapshotReply where
  term := value.term
  lastIncludedIndex := value.lastIncludedIndex

/-! ### Clients -/

def proposeConfigChangeFromProto (proto : Proto.ProposeConfigChangeRequest) : List NodeId :=
  proto.voters.map NodeId.mk

def proposeConfigChangeToProto (voters : List NodeId) : Proto.ProposeConfigChangeRequest where
  voters := voters.map NodeId.id

def addLearnerFromProto (proto : Proto.AddLearnerRequest) : NodeId × String :=
  (⟨proto.nodeId⟩, proto.address)

def addLearnerToProto (id : NodeId) (address : String) : Proto.AddLearnerRequest where
  nodeId := id.id
  address

/-- `none` is the refusal of a command that is missing its kind. -/
def commandFromProto (proto : Proto.Command) : Option Command :=
  proto.kind.map (fun kind =>
    match kind with
    | .set key value => .set key value
    | .delete key => .delete key
    | .get key => .get key)

def commandToProto (value : Command) : Proto.Command where
  kind :=
    match value with
    | .set key value => some (.set key value)
    | .delete key => some (.delete key)
    | .get key => some (.get key)

/-- `none` is the refusal of a result that is missing its kind. -/
def applyResultFromProto (proto : Proto.ApplyResult) : Option ApplyResult :=
  proto.kind.map (fun kind =>
    match kind with
    | .set previous => .set previous
    | .delete previous => .delete previous
    | .get value => .get value)

def applyResultToProto (value : ApplyResult) : Proto.ApplyResult where
  kind :=
    match value with
    | .set previous => some (.set previous)
    | .delete previous => some (.delete previous)
    | .get value => some (.get value)

end Kurogane.Runtime
