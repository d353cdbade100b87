import Kurogane.Raft.Node

/-!
The transitions of a node, in the order of the source. A transition returns
the node after it with the effects its owner must interpret in order, or
`none` where the source panics. Counters have no bound here; what becomes of
one that overflows is said by the transitions over machine words.
-/

namespace Kurogane.Raft

abbrev Transition := Option (Node × List Effect)

namespace Node

def stepDown (node : Node) (term : Nat) : Node :=
  { node with
    role := .follower
    currentTerm := term
    votedFor := none
    votesGranted := ∅
    nextIndex := ∅
    matchIndex := ∅ }

/-- Demotes a leader excluded by a committed configuration. Unlike `stepDown`
it leaves the term and the vote alone. -/
def retireFromLeadership (node : Node) : Node :=
  { node with
    role := .follower
    votesGranted := ∅
    nextIndex := ∅
    matchIndex := ∅ }

def persistHardState (node : Node) : Effect :=
  .persistHardState node.currentTerm node.votedFor

/-- What a leader owes `peer` now: the entries from its `nextIndex` on, or
the snapshot when those have been compacted away. -/
def replicateTo (node : Node) (peer : NodeId) : Option Effect := do
  let nextIndex ← node.nextIndex[peer]?
  if nextIndex ≤ node.snapshot.lastIncludedIndex then
    some (.send peer (.installSnapshot {
      term := node.currentTerm
      leaderId := node.id
      lastIncludedIndex := node.snapshot.lastIncludedIndex
      lastIncludedTerm := node.snapshot.lastIncludedTerm
      data := node.snapshotData
      config := node.snapshotConfig }))
  else
    let prevLogIndex := nextIndex - 1
    let prevLogTerm := (node.termAt prevLogIndex).getD 0
    let entries ← node.entriesFrom nextIndex
    some (.send peer (.appendEntries {
      term := node.currentTerm
      leaderId := node.id
      prevLogIndex
      prevLogTerm
      entries
      leaderCommit := node.commitIndex }))

/-- Voters, old voters and learners, without the node itself. -/
def replicationTargets (node : Node) : NodeSet :=
  .ofList ((node.currentConfig.voters ++ node.currentConfig.oldVoters.getD [] ++
    node.learners.toList).filter (fun peer => peer ≠ node.id))

def broadcastReplication (node : Node) : Option (List Effect) :=
  node.replicationTargets.toList.mapM node.replicateTo

def becomeLeader (node : Node) : Transition := do
  let targets := node.replicationTargets.toList
  let nextIndex := node.lastLogIndex + 1
  let node := { node with
    role := .leader
    heartbeatElapsed := 0
    nextIndex := targets.foldl (fun progress peer =>
      progress.insert peer nextIndex) ∅
    matchIndex := targets.foldl (fun progress peer =>
      progress.insert peer 0) ∅ }
  let effects ← node.broadcastReplication
  some (node, effects)

def onLeaderTick (node : Node) : Transition := do
  let node := { node with
    heartbeatElapsed := node.heartbeatElapsed + 1
    leaderContactElapsed := node.leaderContactElapsed + 1 }
  if node.heartbeatElapsed < node.heartbeatInterval then
    some (node, [])
  else
    let node := { node with heartbeatElapsed := 0 }
    let effects ← node.broadcastReplication
    some (node, effects)

/-- The candidate a campaign starts from: a new term, voted for itself. -/
def campaign (node : Node) (nextTimeout : Nat) : Node :=
  { node with
    role := .candidate
    currentTerm := node.currentTerm + 1
    votedFor := some node.id
    votesGranted := (∅ : NodeSet).insert node.id
    electionElapsed := 0
    electionTimeout := nextTimeout }

def requestVotes (node : Node) : List Effect :=
  (node.currentConfig.voters.filter (fun peer => peer ≠ node.id)).map
    (fun peer => .send peer (.requestVote {
      term := node.currentTerm
      candidateId := node.id
      lastLogIndex := node.lastLogIndex
      lastLogTerm := node.lastLogTerm }))

def startElection (node : Node) (nextTimeout : Nat) : Transition := do
  if !node.currentConfig.isVoter node.id then
    some (node, [])
  else
    let node := node.campaign nextTimeout
    if node.hasQuorum then
      let (leader, effects) ← node.becomeLeader
      some (leader, node.persistHardState :: effects)
    else
      some (node, node.persistHardState :: node.requestVotes)

def onTick (node : Node) (nextTimeout : Nat) : Transition :=
  if node.role = .leader then
    node.onLeaderTick
  else
    let node := { node with
      electionElapsed := node.electionElapsed + 1
      leaderContactElapsed := node.leaderContactElapsed + 1 }
    if node.electionElapsed < node.electionTimeout then
      some (node, [])
    else
      node.startElection nextTimeout

def voteReply (node : Node) (sender : NodeId) (granted : Bool) : Effect :=
  .send sender (.requestVoteResponse { term := node.currentTerm, granted })

/-- `(last_log_term, last_log_index)` of the request is at least the node's,
compared as a pair. -/
def logIsUpToDate (node : Node) (request : RequestVote) : Bool :=
  node.lastLogTerm < request.lastLogTerm ||
    (node.lastLogTerm = request.lastLogTerm &&
      node.lastLogIndex ≤ request.lastLogIndex)

def onRequestVote (node : Node) (sender : NodeId) (request : RequestVote) :
    Transition :=
  if request.term < node.currentTerm then
    some (node, [node.voteReply sender false])
  else if node.role = .leader then
    some (node, [node.voteReply sender false])
  else if node.currentConfig.oldVoters.isSome ∧
      node.leaderContactElapsed < node.heartbeatInterval then
    some (node, [node.voteReply sender false])
  else
    let steppedDown : Bool := node.currentTerm < request.term
    let node := if steppedDown then node.stepDown request.term else node
    let canGrant := node.logIsUpToDate request &&
      (node.votedFor.isNone || node.votedFor = some request.candidateId)
    let node :=
      if canGrant then
        { node with votedFor := some request.candidateId, electionElapsed := 0 }
      else node
    -- A vote cleared by stepping down must survive a crash as well.
    let persist := if steppedDown || canGrant then [node.persistHardState] else []
    some (node, persist ++ [node.voteReply sender canGrant])

def onRequestVoteResponse (node : Node) (sender : NodeId)
    (response : RequestVoteResponse) : Transition :=
  if node.currentTerm < response.term then
    let node := node.stepDown response.term
    some (node, [node.persistHardState])
  else if response.term < node.currentTerm ∨ node.role ≠ .candidate then
    some (node, [])
  else if response.granted then
    let node := { node with votesGranted := node.votesGranted.insert sender }
    if node.hasQuorum then node.becomeLeader else some (node, [])
  else
    some (node, [])

def appendReply (node : Node) (sender : NodeId) (success : Bool)
    (matchIndex : Nat) : Effect :=
  .send sender (.appendEntriesResponse
    { term := node.currentTerm, success, matchIndex })

def rejectAppendEntries (node : Node) (sender : NodeId) : Effect :=
  node.appendReply sender false 0

/-- A message of a current leader: adopt its term, give up a candidacy, and
restart both timers. The effects persist the hard state if the term moved. -/
def followLeader (node : Node) (term : Nat) : Node × List Effect :=
  let steppedDown : Bool := node.currentTerm < term
  let node :=
    if steppedDown then node.stepDown term
    else if node.role = .candidate then { node with role := .follower }
    else node
  let node := { node with electionElapsed := 0, leaderContactElapsed := 0 }
  (node, if steppedDown then [node.persistHardState] else [])

def push (node : Node) (entry : LogEntry) : Node :=
  { node with log := node.log ++ [entry] }

def truncate (node : Node) (index : Nat) : Node :=
  { node with log := node.log.take (node.vecIndex index) }

/-- The merge loop of `on_append_entries`: the first of `entries` has
absolute index `index`, and `changedFrom` is the first index written. -/
def mergeEntries (node : Node) (changedFrom : Option Nat) (index : Nat) :
    List LogEntry → Node × Option Nat
  | [] => (node, changedFrom)
  | entry :: rest =>
      if index ≤ node.snapshot.lastIncludedIndex then
        node.mergeEntries changedFrom (index + 1) rest
      else
        match node.termAt index with
        | some existingTerm =>
            if existingTerm = entry.term then
              node.mergeEntries changedFrom (index + 1) rest
            else
              ((node.truncate index).push entry).mergeEntries
                (some (changedFrom.getD index)) (index + 1) rest
        | none =>
            (node.push entry).mergeEntries
              (some (changedFrom.getD index)) (index + 1) rest

def prevLogSatisfied (node : Node) (request : AppendEntries) : Bool :=
  request.prevLogIndex ≤ node.snapshot.lastIncludedIndex ||
    node.termAt request.prevLogIndex = some request.prevLogTerm

/-- A follower's commit index follows the leader's, clamped to its own last
index. -/
def followCommit (node : Node) (leaderCommit : Nat) : Node :=
  if node.commitIndex < leaderCommit then
    { node with commitIndex := min leaderCommit node.lastLogIndex }
  else node

/-- The splice that makes a merge durable, if it wrote anything. -/
def persistChanged (node : Node) : Option Nat → Option (List Effect)
  | none => some []
  | some fromIndex => do
      let entries ← node.entriesFrom fromIndex
      some [.persistLog fromIndex entries]

def onAppendEntries (node : Node) (sender : NodeId) (request : AppendEntries) :
    Transition := do
  if request.term < node.currentTerm then
    some (node, [node.rejectAppendEntries sender])
  else
    let (node, persistTerm) := node.followLeader request.term
    if !node.prevLogSatisfied request then
      some (node, persistTerm ++ [node.rejectAppendEntries sender])
    else
      let (node, changedFrom) :=
        node.mergeEntries none (request.prevLogIndex + 1) request.entries
      let node := if changedFrom.isSome then node.recomputeConfig else node
      let node := node.followCommit request.leaderCommit
      let matchIndex := request.prevLogIndex + request.entries.length
      let persistLog ← node.persistChanged changedFrom
      some (node, persistTerm ++ persistLog ++
        [node.appendReply sender true matchIndex])

def snapshotReply (node : Node) (sender : NodeId) (lastIncludedIndex : Nat) :
    Effect :=
  .send sender (.installSnapshotResponse
    { term := node.currentTerm, lastIncludedIndex })

/-- Replaces log and snapshot by the ones of `request`. -/
def install (node : Node) (request : InstallSnapshot) : Node :=
  { node with
    log := []
    snapshot := ⟨request.lastIncludedIndex, request.lastIncludedTerm⟩
    snapshotData := request.data
    snapshotConfig := request.config
    commitIndex := max node.commitIndex
      request.lastIncludedIndex }.recomputeConfig

/-- Staleness is decided by `termAt` alone: a request whose boundary the node
still holds, or has as its own boundary, changes nothing. -/
def alreadyCovered (node : Node) (request : InstallSnapshot) : Bool :=
  node.termAt request.lastIncludedIndex = some request.lastIncludedTerm

def onInstallSnapshot (node : Node) (sender : NodeId)
    (request : InstallSnapshot) : Transition :=
  if request.term < node.currentTerm then
    some (node,
      [node.snapshotReply sender node.snapshot.lastIncludedIndex])
  else
    let (node, persistTerm) := node.followLeader request.term
    if node.alreadyCovered request then
      some (node, persistTerm ++
        [node.snapshotReply sender request.lastIncludedIndex])
    else
      let node := node.install request
      some (node, persistTerm ++
        [.persistSnapshot request.lastIncludedIndex request.lastIncludedTerm
            request.data request.config,
          .persistLog (request.lastIncludedIndex + 1) [],
          node.snapshotReply sender request.lastIncludedIndex])

/-- The index a voter counts for: the whole log for the leader itself, zero
for a peer that is not tracked. -/
def matchOf (node : Node) (peer : NodeId) : Nat :=
  if peer = node.id then node.lastLogIndex
  else (node.matchIndex[peer]?).getD 0

/-- The largest index a majority of `voters` has reached. An empty list of
voters panics: the subtraction of its quorum underflows. -/
def majorityIndex (node : Node) (voters : List NodeId) : Option Nat :=
  if voters.isEmpty then none
  else
    ((voters.map node.matchOf).insertionSort (· ≤ ·))[
      voters.length - (voters.length / 2 + 1)]?

def commitCandidate (node : Node) : Option Nat := do
  let newCandidate ← node.majorityIndex node.currentConfig.voters
  match node.currentConfig.oldVoters with
  | none => some newCandidate
  | some oldVoters =>
      let oldCandidate ← node.majorityIndex oldVoters
      some (min newCandidate oldCandidate)

/-- Only an entry of the current term commits by count. -/
def commitTo (node : Node) (candidate : Nat) : Node :=
  if node.commitIndex < candidate ∧
      node.termAt candidate = some node.currentTerm then
    { node with commitIndex := candidate }
  else node

@[simp] theorem commitTo_currentConfig (node : Node) (candidate : Nat) :
    (node.commitTo candidate).currentConfig = node.currentConfig := by
  unfold commitTo
  split <;> rfl

def followUp (node : Node) : LogEntry :=
  { term := node.currentTerm
    payload := .configuration
      { voters := node.currentConfig.voters, oldVoters := none } }

/-- Appending the follow-up leaves a plain configuration in force. -/
theorem recomputeConfig_push_followUp (node : Node) :
    (node.push node.followUp).recomputeConfig.currentConfig =
      { voters := node.currentConfig.voters, oldVoters := none } := by
  simp [recomputeConfig, push, followUp, latestConfigurationIn,
    List.zipIdx_append]

/-- The current configuration is joint and its entry is committed. -/
def jointCommitted (node : Node) : Bool :=
  node.currentConfig.oldVoters.isSome &&
    node.currentConfigIndex ≤ node.commitIndex

def retireIfExcluded (node : Node) : Node :=
  if node.currentConfig.oldVoters.isNone ∧
      node.currentConfigIndex ≤ node.commitIndex ∧
      !node.currentConfig.voters.contains node.id then
    node.retireFromLeadership
  else node

def advanceCommitIndex (node : Node) : Transition :=
  match node.commitCandidate with
  | none => none
  | some candidate =>
      if _hjoint : (node.commitTo candidate).jointCommitted then
        let joint := node.commitTo candidate
        let plain := (joint.push joint.followUp).recomputeConfig
        match plain.advanceCommitIndex with
        | none => none
        | some (last, effects) =>
            some (last.retireIfExcluded,
              .persistLog plain.lastLogIndex [joint.followUp] :: effects)
      else
        some ((node.commitTo candidate).retireIfExcluded, [])
termination_by if node.currentConfig.oldVoters.isSome then 1 else 0
decreasing_by
  simp only [recomputeConfig_push_followUp, Option.isSome_none,
    Bool.false_eq_true, ite_false]
  simp only [jointCommitted, commitTo_currentConfig, Bool.and_eq_true] at _hjoint
  simp [_hjoint.1]

/-- Another round for a peer that is still behind, unless advancing the
commit index has just demoted this node. -/
def continueReplication (node : Node) (peer : NodeId) : Option (List Effect) :=
  if node.role = .leader then do
    let nextIndex ← node.nextIndex[peer]?
    if nextIndex ≤ node.lastLogIndex then
      let effect ← node.replicateTo peer
      some [effect]
    else some []
  else some []

def trackProgress (node : Node) (peer : NodeId) (matchIndex : Nat) : Node :=
  { node with
    matchIndex := node.matchIndex.insert peer matchIndex
    nextIndex := node.nextIndex.insert peer (matchIndex + 1) }

def onInstallSnapshotResponse (node : Node) (sender : NodeId)
    (response : InstallSnapshotResponse) : Transition := do
  if node.currentTerm < response.term then
    let node := node.stepDown response.term
    some (node, [node.persistHardState])
  else if response.term < node.currentTerm ∨ node.role ≠ .leader then
    some (node, [])
  else
    let matchIndex ← node.matchIndex[sender]?
    let (node, effects) ← (node.trackProgress sender
      (max matchIndex response.lastIncludedIndex)).advanceCommitIndex
    let more ← node.continueReplication sender
    some (node, effects ++ more)

def onAppendEntriesResponse (node : Node) (sender : NodeId)
    (response : AppendEntriesResponse) : Transition := do
  if node.currentTerm < response.term then
    let node := node.stepDown response.term
    some (node, [node.persistHardState])
  else if response.term < node.currentTerm ∨ node.role ≠ .leader then
    some (node, [])
  else if response.success then
    let matchIndex ← node.matchIndex[sender]?
    let (node, effects) ← (node.trackProgress sender
      (max matchIndex response.matchIndex)).advanceCommitIndex
    let more ← node.continueReplication sender
    some (node, effects ++ more)
  else
    let nextIndex ← node.nextIndex[sender]?
    let node := { node with
      nextIndex := node.nextIndex.insert sender (max (nextIndex - 1) 1) }
    let more ← node.continueReplication sender
    some (node, more)

def step (node : Node) : Event → Transition
  | .tick nextTimeout => node.onTick nextTimeout
  | .step sender (.appendEntries request) =>
      if request.leaderId ≠ sender then some (node, [])
      else node.onAppendEntries sender request
  | .step sender (.installSnapshot request) =>
      if request.leaderId ≠ sender then some (node, [])
      else node.onInstallSnapshot sender request
  | .step sender (.requestVote request) =>
      if !node.isMember sender then some (node, [])
      else if request.candidateId ≠ sender then some (node, [])
      else node.onRequestVote sender request
  | .step sender (.requestVoteResponse response) =>
      if !node.isMember sender then some (node, [])
      else node.onRequestVoteResponse sender response
  | .step sender (.appendEntriesResponse response) =>
      if !node.isMember sender then some (node, [])
      else node.onAppendEntriesResponse sender response
  | .step sender (.installSnapshotResponse response) =>
      if !node.isMember sender then some (node, [])
      else node.onInstallSnapshotResponse sender response

/-- Appends an entry to a leader's own log, with the effects that make it
durable and whatever commits at once. -/
def appendOwn (node : Node) (entry : LogEntry) :
    Option (Node × Nat × List Effect) := do
  let node := (node.push entry).recomputeConfig
  let index := node.lastLogIndex
  let (node, effects) ← node.advanceCommitIndex
  some (node, index, .persistLog index [entry] :: effects)

/-- The outer option is a panic, the inner one the source's own: `none` when
the node is not the leader. -/
def propose (node : Node) (command : Bytes) :
    Option (Option (Node × Nat × List Effect)) := do
  if node.role ≠ .leader then
    some none
  else
    let appended ← node.appendOwn
      { term := node.currentTerm, payload := .command command }
    some (some appended)

def persistLearners (node : Node) : Effect :=
  .persistLearners node.learners.toList

/-- A learner named in a new voter set is promoted and no longer tracked as a
learner. -/
def dropPromoted (node : Node) (newVoters : List NodeId) :
    Node × List Effect :=
  let learnerCountBefore := node.learners.size
  let node := { node with
    learners := node.learners.filter (fun id => !newVoters.contains id) }
  (node,
    if node.learners.size ≠ learnerCountBefore then [node.persistLearners]
    else [])

def jointEntry (node : Node) (newVoters : List NodeId) : LogEntry :=
  { term := node.currentTerm
    payload := .configuration
      { voters := newVoters, oldVoters := some node.currentConfig.voters } }

def proposeConfigChange (node : Node) (newVoters : List NodeId) :
    Option (Option (Node × Nat × List Effect)) := do
  if node.role ≠ .leader ∨ newVoters.isEmpty then
    some none
  else
    let (node, persist) := node.dropPromoted newVoters
    let (node, index, effects) ← node.appendOwn (node.jointEntry newVoters)
    some (some (node, index, persist ++ effects))

def addLearner (node : Node) (id : NodeId) : Node × List Effect :=
  if node.role ≠ .leader ∨ node.learners.contains id ∨
      node.currentConfig.isVoter id then
    (node, [])
  else
    let nextIndex := node.lastLogIndex + 1
    let node := { node with
      learners := node.learners.insert id
      nextIndex := node.nextIndex.insertIfNew id nextIndex
      matchIndex := node.matchIndex.insertIfNew id 0 }
    (node, [node.persistLearners])

def removeLearner (node : Node) (id : NodeId) : Node × List Effect :=
  if node.role ≠ .leader ∨ !node.learners.contains id then
    (node, [])
  else
    let node := { node with learners := node.learners.erase id }
    (node, [node.persistLearners])

/-- The configuration of the new boundary is the latest one within the
drained prefix: a later one may still be truncated away. -/
def compact (node : Node) (upToIndex : Nat) (snapshotData : Bytes) :
    Option (Except CompactError (Node × List Effect)) := do
  if upToIndex ≤ node.snapshot.lastIncludedIndex then
    some (.ok (node, []))
  else if upToIndex > node.commitIndex then
    some (.error .indexNotCommitted)
  else
    let lastIncludedTerm ← node.termAt upToIndex
    let drained := node.log.take (node.vecIndex upToIndex + 1)
    let snapshotConfig :=
      match latestConfigurationIn drained node.snapshot.lastIncludedIndex with
      | some (config, _) => config
      | none => node.snapshotConfig
    let node := { node with
      snapshotConfig
      log := node.log.drop (node.vecIndex upToIndex + 1)
      snapshot := ⟨upToIndex, lastIncludedTerm⟩
      snapshotData }.recomputeConfig
    let rest ← node.entriesFrom (upToIndex + 1)
    some (.ok (node,
      [.persistSnapshot upToIndex lastIncludedTerm snapshotData
          node.snapshotConfig,
        .persistLog (upToIndex + 1) rest]))

/-- Serves one request of the owner. A request the node turns down, because
it is not the leader or has not committed that far, changes nothing. -/
def perform (node : Node) : Operation → Transition
  | .tick nextTimeout => node.step (.tick nextTimeout)
  | .receive sender message => node.step (.step sender message)
  | .propose command => do
      match ← node.propose command with
      | none => some (node, [])
      | some (node, _, effects) => some (node, effects)
  | .proposeConfigChange newVoters => do
      match ← node.proposeConfigChange newVoters with
      | none => some (node, [])
      | some (node, _, effects) => some (node, effects)
  | .addLearner id => some (node.addLearner id)
  | .removeLearner id => some (node.removeLearner id)
  | .compact upToIndex snapshotData => do
      match ← node.compact upToIndex snapshotData with
      | .error _ => some (node, [])
      | .ok result => some result

/-- Serves requests one after the other, and keeps the batch of each. -/
def performAll (node : Node) :
    List Operation → Option (Node × List (List Effect))
  | [] => some (node, [])
  | operation :: rest => do
      let (next, batch) ← node.perform operation
      let (last, batches) ← next.performAll rest
      some (last, batch :: batches)

theorem performAll_cons {node node' : Node} {operation : Operation} {rest : List Operation}
    {batches : List (List Effect)}
    (h : node.performAll (operation :: rest) = some (node', batches)) :
    ∃ next batch batches', node.perform operation = some (next, batch) ∧
      next.performAll rest = some (node', batches') ∧
      batches = batch :: batches' := by
  obtain ⟨⟨next, batch⟩, hperform, h⟩ := Option.bind_eq_some_iff.mp h
  obtain ⟨⟨last, batches'⟩, hrest, h⟩ := Option.bind_eq_some_iff.mp h
  cases h
  exact ⟨next, batch, batches', hperform, hrest, rfl⟩

/-- What holds of every request served holds of every batch of a run. -/
theorem performAll_forall {P : Operation → List Effect → Prop}
    {operations : List Operation}
    (hP : ∀ (node node' : Node) operation batch,
      node.perform operation = some (node', batch) → P operation batch) :
    ∀ {node node' : Node} {batches : List (List Effect)},
      node.performAll operations = some (node', batches) →
      List.Forall₂ P operations batches := by
  induction operations with
  | nil =>
      intro node node' batches h
      cases h
      exact .nil
  | cons operation rest ih =>
      intro node node' batches h
      obtain ⟨next, batch, batches', hperform, hlater, rfl⟩ :=
        performAll_cons h
      exact .cons (hP node next operation batch hperform) (ih hlater)

/-- Every request meets `P` at the node it finds. -/
def Along (P : Node → Operation → Prop) (node : Node) : List Operation → Prop
  | [] => True
  | operation :: rest => P node operation ∧
      ∀ result ∈ node.perform operation, result.1.Along P rest

theorem along_of_forall {P : Node → Operation → Prop} (hP : ∀ node operation, P node operation) :
    ∀ (operations : List Operation) (node : Node), node.Along P operations
  | [], _ => trivial
  | operation :: rest, node =>
      ⟨hP node operation, fun result _ => along_of_forall hP rest result.1⟩

theorem Along.invariant {P : Node → Operation → Prop} (Inv : Node → Prop)
    (hstep : ∀ (node node' : Node) operation batch, Inv node → P node operation →
      node.perform operation = some (node', batch) → Inv node')
    {operations : List Operation} :
    ∀ {node node' : Node} {batches : List (List Effect)}, node.Along P operations →
      Inv node → node.performAll operations = some (node', batches) → Inv node' := by
  induction operations with
  | nil =>
      intro node node' batches _ hnode h
      cases h
      exact hnode
  | cons operation rest ih =>
      intro node node' batches hall hnode h
      obtain ⟨hfirst, hrest⟩ := hall
      obtain ⟨next, batch, batches', hperform, hlater, rfl⟩ := performAll_cons h
      exact ih (hrest _ hperform) (hstep node next operation batch hnode hfirst hperform)
        hlater

theorem performAll_invariant (Inv : Node → Prop)
    (hstep : ∀ (node node' : Node) operation batch, Inv node →
      node.perform operation = some (node', batch) → Inv node')
    {operations : List Operation} {node node' : Node} {batches : List (List Effect)}
    (hnode : Inv node) (h : node.performAll operations = some (node', batches)) :
    Inv node' := by
  have halong : node.Along (fun _ _ => True) operations :=
    along_of_forall (fun _ _ => trivial) operations node
  exact halong.invariant Inv
    (fun node node' operation batch hinv _ => hstep node node' operation batch hinv) hnode h

/-- What a node started with `new` has come to after `operations` can be
computed. -/
theorem performAll_of_check (id : NodeId) (peers : List NodeId)
    (electionTimeout heartbeatInterval : Nat) (operations : List Operation)
    (Q : Node → Prop) [DecidablePred Q]
    (hcheck : ((new id peers electionTimeout heartbeatInterval).toOption.bind
      (fun start => (start.performAll operations).map
        (fun result => decide (Q result.1)))) = some true) :
    ∃ start node batches,
      new id peers electionTimeout heartbeatInterval = .ok start ∧
      start.performAll operations = some (node, batches) ∧ Q node := by
  obtain ⟨start, hstart, hcheck⟩ := Option.bind_eq_some_iff.mp hcheck
  obtain ⟨⟨node, batches⟩, hrun, hQ⟩ := Option.map_eq_some_iff.mp hcheck
  exact ⟨start, node, batches, ok_of_toOption hstart, hrun,
    of_decide_eq_true hQ⟩

end Node

end Kurogane.Raft
