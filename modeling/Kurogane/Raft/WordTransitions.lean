import Kurogane.Raft.Transitions
import Kurogane.Words.Arithmetic

/-!
The transitions over machine words. Terms, indices and timers are `u64` counters, and
every sum and difference of them is written here as the arithmetic of a build: a debug
build panics where one does not fit, a release build goes on with the remainder. What
involves no counter is as in the transitions over numbers without a bound.
-/

namespace Kurogane.Raft

open Kurogane.Words

/-- How the program was built. -/
inductive Build where
  | debug
  | release
deriving DecidableEq, Repr

/-- No profile of the workspace asks for overflow checks of its own. -/
def Build.arithmetic : Build → Arithmetic
  | .debug => .checked (2 ^ 64)
  | .release => .wrapping (2 ^ 64)

/-- The most recent `configuration` payload of `log` with its position. -/
def latestConfigurationOffset (log : List LogEntry) : Option (ClusterConfig × Nat) :=
  log.zipIdx.reverse.findSome? (fun (entry, offset) =>
    match entry.payload with
    | .configuration config => some (config, offset)
    | .command _ => none)

/-- The outer option is a panic, the inner one the source's own. -/
def latestConfigurationWith (arith : Arithmetic) (log : List LogEntry)
    (boundary : Nat) : Option (Option (ClusterConfig × Nat)) :=
  match latestConfigurationOffset log with
  | none => some none
  | some (config, offset) => do
      let below ← arith.add boundary offset
      let index ← arith.add below 1
      some (some (config, index))

namespace Node

variable (arith : Arithmetic)

/-! ### Construction and accessors -/

def recoverWith (id : NodeId) (peers : List NodeId)
    (electionTimeout heartbeatInterval : Nat) (hardState : HardState)
    (log : List LogEntry) (snapshot : Snapshot) (learners : List NodeId) :
    Option (Except ConfigError Node) :=
  if peers.isEmpty then
    some (.error .emptyConfiguration)
  else if notStrictlyOrdered peers then
    some (.error .membersNotStrictlyOrdered)
  else if !peers.contains id then
    some (.error .localNodeMissing)
  else if electionTimeout = 0 then
    some (.error .zeroElectionTimeout)
  else if heartbeatInterval = 0 then
    some (.error .zeroHeartbeatInterval)
  else if heartbeatInterval > electionTimeout then
    some (.error .heartbeatIntervalExceedsElectionTimeout)
  else do
    let snapshotConfig :=
      if snapshot.metadata.lastIncludedIndex > 0 then snapshot.config
      else { voters := peers, oldVoters := none }
    let latest ←
      latestConfigurationWith arith log snapshot.metadata.lastIncludedIndex
    let current :=
      latest.getD (snapshotConfig, snapshot.metadata.lastIncludedIndex)
    some (.ok {
      id
      role := .follower
      currentTerm := hardState.currentTerm
      votedFor := hardState.votedFor
      electionElapsed := 0
      electionTimeout
      votesGranted := ∅
      heartbeatElapsed := 0
      heartbeatInterval
      leaderContactElapsed := heartbeatInterval
      log
      commitIndex := snapshot.metadata.lastIncludedIndex
      nextIndex := ∅
      matchIndex := ∅
      snapshot := snapshot.metadata
      snapshotData := snapshot.data
      snapshotConfig
      currentConfig := current.1
      currentConfigIndex := current.2
      learners := .ofList learners })

def recomputeConfigWith (node : Node) : Option Node := do
  let latest ←
    latestConfigurationWith arith node.log node.snapshot.lastIncludedIndex
  let current := latest.getD (node.snapshotConfig, node.snapshot.lastIncludedIndex)
  some { node with currentConfig := current.1, currentConfigIndex := current.2 }

def lastLogIndexWith (node : Node) : Option Nat :=
  arith.add node.snapshot.lastIncludedIndex node.log.length

def vecIndexWith (node : Node) (index : Nat) : Option Nat := do
  let above ← arith.sub index node.snapshot.lastIncludedIndex
  arith.sub above 1

def entryAtWith (node : Node) (index : Nat) : Option (Option LogEntry) :=
  if index = 0 ∨ index ≤ node.snapshot.lastIncludedIndex then some none
  else do
    let position ← node.vecIndexWith arith index
    some node.log[position]?

def termAtWith (node : Node) (index : Nat) : Option (Option Nat) :=
  if index = 0 then some none
  else if index = node.snapshot.lastIncludedIndex then
    some (some node.snapshot.lastIncludedTerm)
  else if index < node.snapshot.lastIncludedIndex then some none
  else do
    let entry ← node.entryAtWith arith index
    some (entry.map LogEntry.term)

def entriesFromWith (node : Node) (index : Nat) : Option (List LogEntry) := do
  let position ← node.vecIndexWith arith index
  if position ≤ node.log.length then some (node.log.drop position) else none

/-! ### Replication and ticks -/

def replicateToWith (node : Node) (peer : NodeId) : Option Effect := do
  let nextIndex ← node.nextIndex[peer]?
  if nextIndex ≤ node.snapshot.lastIncludedIndex then
    some (.send peer (.installSnapshot {
      term := node.currentTerm
      leaderId := node.id
      lastIncludedIndex := node.snapshot.lastIncludedIndex
      lastIncludedTerm := node.snapshot.lastIncludedTerm
      data := node.snapshotData
      config := node.snapshotConfig }))
  else
    let prevLogIndex ← arith.sub nextIndex 1
    let prevLogTerm ← node.termAtWith arith prevLogIndex
    let entries ← node.entriesFromWith arith nextIndex
    some (.send peer (.appendEntries {
      term := node.currentTerm
      leaderId := node.id
      prevLogIndex
      prevLogTerm := prevLogTerm.getD 0
      entries
      leaderCommit := node.commitIndex }))

def broadcastReplicationWith (node : Node) : Option (List Effect) :=
  node.replicationTargets.toList.mapM (node.replicateToWith arith)

def becomeLeaderWith (node : Node) : Transition := do
  let targets := node.replicationTargets.toList
  let last ← node.lastLogIndexWith arith
  let nextIndex ← arith.add last 1
  let node := { node with
    role := .leader
    heartbeatElapsed := 0
    nextIndex := targets.foldl (fun progress peer =>
      progress.insert peer nextIndex) ∅
    matchIndex := targets.foldl (fun progress peer =>
      progress.insert peer 0) ∅ }
  let effects ← node.broadcastReplicationWith arith
  some (node, effects)

def onLeaderTickWith (node : Node) : Transition := do
  let heartbeatElapsed ← arith.add node.heartbeatElapsed 1
  let leaderContactElapsed ← arith.add node.leaderContactElapsed 1
  let node := { node with heartbeatElapsed, leaderContactElapsed }
  if node.heartbeatElapsed < node.heartbeatInterval then
    some (node, [])
  else
    let node := { node with heartbeatElapsed := 0 }
    let effects ← node.broadcastReplicationWith arith
    some (node, effects)

def campaignWith (node : Node) (nextTimeout : Nat) : Option Node := do
  let currentTerm ← arith.add node.currentTerm 1
  some { node with
    role := .candidate
    currentTerm
    votedFor := some node.id
    votesGranted := (∅ : NodeSet).insert node.id
    electionElapsed := 0
    electionTimeout := nextTimeout }

def requestVotesWith (node : Node) : Option (List Effect) :=
  (node.currentConfig.voters.filter (fun peer => peer ≠ node.id)).mapM
    (fun peer => do
      let lastLogIndex ← node.lastLogIndexWith arith
      some (.send peer (.requestVote {
        term := node.currentTerm
        candidateId := node.id
        lastLogIndex
        lastLogTerm := node.lastLogTerm })))

def startElectionWith (node : Node) (nextTimeout : Nat) : Transition := do
  if !node.currentConfig.isVoter node.id then
    some (node, [])
  else
    let node ← node.campaignWith arith nextTimeout
    if node.hasQuorum then
      let (leader, effects) ← node.becomeLeaderWith arith
      some (leader, node.persistHardState :: effects)
    else
      let requests ← node.requestVotesWith arith
      some (node, node.persistHardState :: requests)

def onTickWith (node : Node) (nextTimeout : Nat) : Transition :=
  if node.role = .leader then
    node.onLeaderTickWith arith
  else do
    let electionElapsed ← arith.add node.electionElapsed 1
    let leaderContactElapsed ← arith.add node.leaderContactElapsed 1
    let node := { node with electionElapsed, leaderContactElapsed }
    if node.electionElapsed < node.electionTimeout then
      some (node, [])
    else
      node.startElectionWith arith nextTimeout

/-! ### Votes -/

def logIsUpToDateWith (node : Node) (request : RequestVote) : Option Bool := do
  let lastLogIndex ← node.lastLogIndexWith arith
  some (node.lastLogTerm < request.lastLogTerm ||
    (node.lastLogTerm = request.lastLogTerm &&
      lastLogIndex ≤ request.lastLogIndex))

def onRequestVoteWith (node : Node) (sender : NodeId) (request : RequestVote) :
    Transition :=
  if request.term < node.currentTerm then
    some (node, [node.voteReply sender false])
  else if node.role = .leader then
    some (node, [node.voteReply sender false])
  else if node.currentConfig.oldVoters.isSome ∧
      node.leaderContactElapsed < node.heartbeatInterval then
    some (node, [node.voteReply sender false])
  else do
    let steppedDown : Bool := node.currentTerm < request.term
    let node := if steppedDown then node.stepDown request.term else node
    let upToDate ← node.logIsUpToDateWith arith request
    let canGrant := upToDate &&
      (node.votedFor.isNone || node.votedFor = some request.candidateId)
    let node :=
      if canGrant then
        { node with votedFor := some request.candidateId, electionElapsed := 0 }
      else node
    let persist := if steppedDown || canGrant then [node.persistHardState] else []
    some (node, persist ++ [node.voteReply sender canGrant])

def onRequestVoteResponseWith (node : Node) (sender : NodeId)
    (response : RequestVoteResponse) : Transition :=
  if node.currentTerm < response.term then
    let node := node.stepDown response.term
    some (node, [node.persistHardState])
  else if response.term < node.currentTerm ∨ node.role ≠ .candidate then
    some (node, [])
  else if response.granted then
    let node := { node with votesGranted := node.votesGranted.insert sender }
    if node.hasQuorum then node.becomeLeaderWith arith else some (node, [])
  else
    some (node, [])

/-! ### Entries and snapshots of a leader -/

def truncateWith (node : Node) (index : Nat) : Option Node := do
  let position ← node.vecIndexWith arith index
  some { node with log := node.log.take position }

/-- The merge loop. The first of the entries left is at position `offset` of the
request, and its index is computed from that. -/
def mergeEntriesWith (node : Node) (changedFrom : Option Nat) (prevLogIndex : Nat)
    (offset : Nat) : List LogEntry → Option (Node × Option Nat)
  | [] => some (node, changedFrom)
  | entry :: rest => do
      let before ← arith.add prevLogIndex offset
      let index ← arith.add before 1
      if index ≤ node.snapshot.lastIncludedIndex then
        node.mergeEntriesWith changedFrom prevLogIndex (offset + 1) rest
      else
        match ← node.termAtWith arith index with
        | some existingTerm =>
            if existingTerm = entry.term then
              node.mergeEntriesWith changedFrom prevLogIndex (offset + 1) rest
            else
              let truncated ← node.truncateWith arith index
              (truncated.push entry).mergeEntriesWith
                (some (changedFrom.getD index)) prevLogIndex (offset + 1) rest
        | none =>
            (node.push entry).mergeEntriesWith
              (some (changedFrom.getD index)) prevLogIndex (offset + 1) rest

def prevLogSatisfiedWith (node : Node) (request : AppendEntries) : Option Bool :=
  if request.prevLogIndex ≤ node.snapshot.lastIncludedIndex then some true
  else do
    let term ← node.termAtWith arith request.prevLogIndex
    some (decide (term = some request.prevLogTerm))

def followCommitWith (node : Node) (leaderCommit : Nat) : Option Node :=
  if node.commitIndex < leaderCommit then do
    let lastLogIndex ← node.lastLogIndexWith arith
    some { node with commitIndex := min leaderCommit lastLogIndex }
  else some node

def persistChangedWith (node : Node) : Option Nat → Option (List Effect)
  | none => some []
  | some fromIndex => do
      let entries ← node.entriesFromWith arith fromIndex
      some [.persistLog fromIndex entries]

def recomputeChangedWith (node : Node) (changedFrom : Option Nat) : Option Node :=
  if changedFrom.isSome then node.recomputeConfigWith arith else some node

def onAppendEntriesWith (node : Node) (sender : NodeId) (request : AppendEntries) :
    Transition := do
  if request.term < node.currentTerm then
    some (node, [node.rejectAppendEntries sender])
  else
    let (node, persistTerm) := node.followLeader request.term
    let satisfied ← node.prevLogSatisfiedWith arith request
    if !satisfied then
      some (node, persistTerm ++ [node.rejectAppendEntries sender])
    else
      let (node, changedFrom) ←
        node.mergeEntriesWith arith none request.prevLogIndex 0 request.entries
      let node ← node.recomputeChangedWith arith changedFrom
      let node ← node.followCommitWith arith request.leaderCommit
      let matchIndex ← arith.add request.prevLogIndex request.entries.length
      let persistLog ← node.persistChangedWith arith changedFrom
      some (node, persistTerm ++ persistLog ++
        [node.appendReply sender true matchIndex])

def installWith (node : Node) (request : InstallSnapshot) : Option Node :=
  { node with
    log := []
    snapshot := ⟨request.lastIncludedIndex, request.lastIncludedTerm⟩
    snapshotData := request.data
    snapshotConfig := request.config
    commitIndex := max node.commitIndex
      request.lastIncludedIndex }.recomputeConfigWith arith

def alreadyCoveredWith (node : Node) (request : InstallSnapshot) : Option Bool := do
  let term ← node.termAtWith arith request.lastIncludedIndex
  some (decide (term = some request.lastIncludedTerm))

def onInstallSnapshotWith (node : Node) (sender : NodeId)
    (request : InstallSnapshot) : Transition := do
  if request.term < node.currentTerm then
    some (node,
      [node.snapshotReply sender node.snapshot.lastIncludedIndex])
  else
    let (node, persistTerm) := node.followLeader request.term
    let covered ← node.alreadyCoveredWith arith request
    if covered then
      some (node, persistTerm ++
        [node.snapshotReply sender request.lastIncludedIndex])
    else
      let node ← node.installWith arith request
      let fromIndex ← arith.add request.lastIncludedIndex 1
      some (node, persistTerm ++
        [.persistSnapshot request.lastIncludedIndex request.lastIncludedTerm
            request.data request.config,
          .persistLog fromIndex [],
          node.snapshotReply sender request.lastIncludedIndex])

/-! ### Commitment -/

def matchOfWith (node : Node) (peer : NodeId) : Option Nat :=
  if peer = node.id then node.lastLogIndexWith arith
  else some ((node.matchIndex[peer]?).getD 0)

def majorityIndexWith (node : Node) (voters : List NodeId) : Option Nat :=
  if voters.isEmpty then none
  else do
    let indices ← voters.mapM (node.matchOfWith arith)
    (indices.insertionSort (· ≤ ·))[voters.length - (voters.length / 2 + 1)]?

def commitCandidateWith (node : Node) : Option Nat := do
  let newCandidate ← node.majorityIndexWith arith node.currentConfig.voters
  match node.currentConfig.oldVoters with
  | none => some newCandidate
  | some oldVoters =>
      let oldCandidate ← node.majorityIndexWith arith oldVoters
      some (min newCandidate oldCandidate)

def commitToWith (node : Node) (candidate : Nat) : Option Node :=
  if node.commitIndex < candidate then do
    let term ← node.termAtWith arith candidate
    if term = some node.currentTerm then some { node with commitIndex := candidate }
    else some node
  else some node

variable {arith}

theorem commitToWith_currentConfig {node node' : Node} {candidate : Nat}
    (h : node.commitToWith arith candidate = some node') :
    node'.currentConfig = node.currentConfig := by
  unfold commitToWith at h
  split at h
  · obtain ⟨term, -, h⟩ := Option.bind_eq_some_iff.mp h
    split at h <;> cases h <;> rfl
  · cases h
    rfl

/-- Appending the follow-up leaves a plain configuration in force. -/
theorem recomputeConfigWith_push_followUp {node node' : Node}
    (h : (node.push node.followUp).recomputeConfigWith arith = some node') :
    node'.currentConfig = { voters := node.currentConfig.voters, oldVoters := none } := by
  obtain ⟨latest, hlatest, h⟩ := Option.bind_eq_some_iff.mp h
  cases h
  have hoffset : latestConfigurationOffset (node.push node.followUp).log =
      some ({ voters := node.currentConfig.voters, oldVoters := none },
        node.log.length) := by
    simp [latestConfigurationOffset, push, followUp, List.zipIdx_append]
  unfold latestConfigurationWith at hlatest
  rw [hoffset] at hlatest
  obtain ⟨below, -, hlatest⟩ := Option.bind_eq_some_iff.mp hlatest
  obtain ⟨index, -, hlatest⟩ := Option.bind_eq_some_iff.mp hlatest
  cases hlatest
  rfl

variable (arith)

def advanceCommitIndexWith (node : Node) : Transition :=
  match node.commitCandidateWith arith with
  | none => none
  | some candidate =>
      match _hcommitted : node.commitToWith arith candidate with
      | none => none
      | some committed =>
          if _hjoint : committed.jointCommitted then
            match _hplain :
                (committed.push committed.followUp).recomputeConfigWith arith with
            | none => none
            | some plain =>
                match plain.lastLogIndexWith arith with
                | none => none
                | some index =>
                    match plain.advanceCommitIndexWith with
                    | none => none
                    | some (last, effects) =>
                        some (last.retireIfExcluded,
                          .persistLog index [committed.followUp] :: effects)
          else
            some (committed.retireIfExcluded, [])
termination_by if node.currentConfig.oldVoters.isSome then 1 else 0
decreasing_by
  rw [recomputeConfigWith_push_followUp _hplain]
  simp only [Option.isSome_none, Bool.false_eq_true, ite_false]
  simp only [jointCommitted, commitToWith_currentConfig _hcommitted,
    Bool.and_eq_true] at _hjoint
  simp [_hjoint.1]

def continueReplicationWith (node : Node) (peer : NodeId) : Option (List Effect) :=
  if node.role = .leader then do
    let nextIndex ← node.nextIndex[peer]?
    let lastLogIndex ← node.lastLogIndexWith arith
    if nextIndex ≤ lastLogIndex then
      let effect ← node.replicateToWith arith peer
      some [effect]
    else some []
  else some []

def trackProgressWith (node : Node) (peer : NodeId) (matchIndex : Nat) :
    Option Node := do
  let nextIndex ← arith.add matchIndex 1
  some { node with
    matchIndex := node.matchIndex.insert peer matchIndex
    nextIndex := node.nextIndex.insert peer nextIndex }

def onInstallSnapshotResponseWith (node : Node) (sender : NodeId)
    (response : InstallSnapshotResponse) : Transition := do
  if node.currentTerm < response.term then
    let node := node.stepDown response.term
    some (node, [node.persistHardState])
  else if response.term < node.currentTerm ∨ node.role ≠ .leader then
    some (node, [])
  else
    let matchIndex ← node.matchIndex[sender]?
    let node ← node.trackProgressWith arith sender
      (max matchIndex response.lastIncludedIndex)
    let (node, effects) ← node.advanceCommitIndexWith arith
    let more ← node.continueReplicationWith arith sender
    some (node, effects ++ more)

def onAppendEntriesResponseWith (node : Node) (sender : NodeId)
    (response : AppendEntriesResponse) : Transition := do
  if node.currentTerm < response.term then
    let node := node.stepDown response.term
    some (node, [node.persistHardState])
  else if response.term < node.currentTerm ∨ node.role ≠ .leader then
    some (node, [])
  else if response.success then
    let matchIndex ← node.matchIndex[sender]?
    let node ← node.trackProgressWith arith sender
      (max matchIndex response.matchIndex)
    let (node, effects) ← node.advanceCommitIndexWith arith
    let more ← node.continueReplicationWith arith sender
    some (node, effects ++ more)
  else
    -- `saturating_sub`: this difference never overflows.
    let nextIndex ← node.nextIndex[sender]?
    let node := { node with
      nextIndex := node.nextIndex.insert sender (max (nextIndex - 1) 1) }
    let more ← node.continueReplicationWith arith sender
    some (node, more)

/-! ### Requests -/

def stepWith (node : Node) : Event → Transition
  | .tick nextTimeout => node.onTickWith arith nextTimeout
  | .step sender (.appendEntries request) =>
      if request.leaderId ≠ sender then some (node, [])
      else node.onAppendEntriesWith arith sender request
  | .step sender (.installSnapshot request) =>
      if request.leaderId ≠ sender then some (node, [])
      else node.onInstallSnapshotWith arith sender request
  | .step sender (.requestVote request) =>
      if !node.isMember sender then some (node, [])
      else if request.candidateId ≠ sender then some (node, [])
      else node.onRequestVoteWith arith sender request
  | .step sender (.requestVoteResponse response) =>
      if !node.isMember sender then some (node, [])
      else node.onRequestVoteResponseWith arith sender response
  | .step sender (.appendEntriesResponse response) =>
      if !node.isMember sender then some (node, [])
      else node.onAppendEntriesResponseWith arith sender response
  | .step sender (.installSnapshotResponse response) =>
      if !node.isMember sender then some (node, [])
      else node.onInstallSnapshotResponseWith arith sender response

def appendOwnWith (node : Node) (entry : LogEntry) :
    Option (Node × Nat × List Effect) := do
  let node ← (node.push entry).recomputeConfigWith arith
  let index ← node.lastLogIndexWith arith
  let (node, effects) ← node.advanceCommitIndexWith arith
  some (node, index, .persistLog index [entry] :: effects)

def proposeWith (node : Node) (command : Bytes) :
    Option (Option (Node × Nat × List Effect)) := do
  if node.role ≠ .leader then
    some none
  else
    let appended ← node.appendOwnWith arith
      { term := node.currentTerm, payload := .command command }
    some (some appended)

def proposeConfigChangeWith (node : Node) (newVoters : List NodeId) :
    Option (Option (Node × Nat × List Effect)) := do
  if node.role ≠ .leader ∨ newVoters.isEmpty then
    some none
  else
    let (node, persist) := node.dropPromoted newVoters
    let (node, index, effects) ← node.appendOwnWith arith (node.jointEntry newVoters)
    some (some (node, index, persist ++ effects))

def addLearnerWith (node : Node) (id : NodeId) : Transition :=
  if node.role ≠ .leader ∨ node.learners.contains id ∨
      node.currentConfig.isVoter id then
    some (node, [])
  else do
    let last ← node.lastLogIndexWith arith
    let nextIndex ← arith.add last 1
    let node := { node with
      learners := node.learners.insert id
      nextIndex := node.nextIndex.insertIfNew id nextIndex
      matchIndex := node.matchIndex.insertIfNew id 0 }
    some (node, [node.persistLearners])

def compactWith (node : Node) (upToIndex : Nat) (snapshotData : Bytes) :
    Option (Except CompactError (Node × List Effect)) := do
  if upToIndex ≤ node.snapshot.lastIncludedIndex then
    some (.ok (node, []))
  else if upToIndex > node.commitIndex then
    some (.error .indexNotCommitted)
  else
    let lastIncludedTerm ← ← node.termAtWith arith upToIndex
    let last ← node.vecIndexWith arith upToIndex
    let drained := node.log.take (last + 1)
    let latest ←
      latestConfigurationWith arith drained node.snapshot.lastIncludedIndex
    let snapshotConfig :=
      match latest with
      | some (config, _) => config
      | none => node.snapshotConfig
    let node ← { node with
      snapshotConfig
      log := node.log.drop (last + 1)
      snapshot := ⟨upToIndex, lastIncludedTerm⟩
      snapshotData }.recomputeConfigWith arith
    let fromIndex ← arith.add upToIndex 1
    let rest ← node.entriesFromWith arith fromIndex
    some (.ok (node,
      [.persistSnapshot upToIndex lastIncludedTerm snapshotData
          node.snapshotConfig,
        .persistLog fromIndex rest]))

def performWith (node : Node) : Operation → Transition
  | .tick nextTimeout => node.stepWith arith (.tick nextTimeout)
  | .receive sender message => node.stepWith arith (.step sender message)
  | .propose command => do
      match ← node.proposeWith arith command with
      | none => some (node, [])
      | some (node, _, effects) => some (node, effects)
  | .proposeConfigChange newVoters => do
      match ← node.proposeConfigChangeWith arith newVoters with
      | none => some (node, [])
      | some (node, _, effects) => some (node, effects)
  | .addLearner id => node.addLearnerWith arith id
  | .removeLearner id => some (node.removeLearner id)
  | .compact upToIndex snapshotData => do
      match ← node.compactWith arith upToIndex snapshotData with
      | .error _ => some (node, [])
      | .ok result => some result

def performAllWith (node : Node) :
    List Operation → Option (Node × List (List Effect))
  | [] => some (node, [])
  | operation :: rest => do
      let (next, batch) ← node.performWith arith operation
      let (last, batches) ← next.performAllWith rest
      some (last, batch :: batches)

end Node

end Kurogane.Raft
