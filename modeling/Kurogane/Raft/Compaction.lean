import Kurogane.Raft.Lockstep
import Kurogane.Raft.Merging
import Kurogane.Raft.Replicating

/-!
A log and the same log behind a snapshot. Compaction folds the first entries
into a snapshot that keeps the term of the last of them and the configuration
then in force. No election and no replication can tell the two nodes apart.
-/

namespace Kurogane.Raft.Node

/-- All of a node but its log and its snapshot. -/
def bare (node : Node) : Node :=
  { node with
    log := []
    snapshot := .default
    snapshotData := []
    snapshotConfig := .default
    currentConfigIndex := 0 }

/-- What decides which configuration is in force. -/
def base (node : Node) :
    List LogEntry × SnapshotMetadata × ClusterConfig × ClusterConfig × Nat :=
  (node.log, node.snapshot, node.snapshotConfig, node.currentConfig,
    node.currentConfigIndex)

/-- `other` is `node` with `folded` and `last`, the first entries above index
`below`, folded into its snapshot. A leader has nothing below them left to send. -/
structure Folds (below : Nat) (folded : List LogEntry) (last : LogEntry)
    (node other : Node) : Prop where
  bare : other.bare = node.bare
  starts : node.snapshot.lastIncludedIndex = below
  log : node.log = folded ++ last :: other.log
  snapshot : other.snapshot = ⟨below + folded.length + 1, last.term⟩
  config : other.snapshotConfig =
    ((latestConfigurationIn (folded ++ [last]) below).map Prod.fst).getD node.snapshotConfig
  current : node.ConfigCurrent
  current' : other.ConfigCurrent
  sends : node.role = .leader → ∀ (peer : NodeId) (next : Nat),
    node.nextIndex[peer]? = some next → other.snapshot.lastIncludedIndex < next

variable {below : Nat} {folded : List LogEntry} {last : LogEntry}
  {node node₁ other other₁ : Node} {effects : List Effect}

namespace Folds

/-- The fields the two nodes share. -/
theorem same (h : Folds below folded last node other) :
    other.id = node.id ∧ other.role = node.role ∧
      other.currentTerm = node.currentTerm ∧ other.votedFor = node.votedFor ∧
      other.votesGranted = node.votesGranted ∧ other.electionElapsed = node.electionElapsed ∧
      other.electionTimeout = node.electionTimeout ∧
      other.heartbeatElapsed = node.heartbeatElapsed ∧
      other.heartbeatInterval = node.heartbeatInterval ∧
      other.leaderContactElapsed = node.leaderContactElapsed ∧
      other.commitIndex = node.commitIndex ∧ other.nextIndex = node.nextIndex ∧
      other.matchIndex = node.matchIndex ∧ other.currentConfig = node.currentConfig ∧
      other.learners = node.learners := by
  have hbare := h.bare
  simp only [Node.bare, Node.mk.injEq] at hbare
  obtain ⟨hid, hrole, hterm, hvoted, helapsed, htimeout, hvotes, hheart, hinterval,
    hcontact, -, hcommit, hnext, hmatch, -, -, -, hconfig, -, hlearners⟩ := hbare
  exact ⟨hid, hrole, hterm, hvoted, hvotes, helapsed, htimeout, hheart, hinterval,
    hcontact, hcommit, hnext, hmatch, hconfig, hlearners⟩

theorem boundary (h : Folds below folded last node other) :
    other.snapshot.lastIncludedIndex = below + folded.length + 1 :=
  congrArg SnapshotMetadata.lastIncludedIndex h.snapshot

/-! ### The log -/

theorem lastLogIndex (h : Folds below folded last node other) :
    other.lastLogIndex = node.lastLogIndex := by
  unfold Node.lastLogIndex
  rw [h.boundary, h.starts, h.log, List.length_append, List.length_cons]
  omega

theorem getElem? (h : Folds below folded last node other) {index : Nat}
    (hindex : other.snapshot.lastIncludedIndex < index) :
    node.log[node.vecIndex index]? = other.log[other.vecIndex index]? := by
  have hboundary := h.boundary
  unfold vecIndex
  rw [h.log, h.starts, List.getElem?_append_right (by omega),
    show index - below - 1 - folded.length =
      (index - other.snapshot.lastIncludedIndex - 1) + 1 by omega, List.getElem?_cons_succ]

theorem entryAt (h : Folds below folded last node other) {index : Nat}
    (hindex : other.snapshot.lastIncludedIndex < index) :
    other.entryAt index = node.entryAt index := by
  have hboundary := h.boundary
  have hbelow := h.starts
  unfold Node.entryAt
  rw [if_neg (by omega), if_neg (by omega), h.getElem? hindex]

theorem entryAt_last (h : Folds below folded last node other) :
    node.entryAt other.snapshot.lastIncludedIndex = some last := by
  have hboundary := h.boundary
  have hbelow := h.starts
  unfold Node.entryAt vecIndex
  rw [if_neg (by omega), h.log, hbelow, hboundary,
    show below + folded.length + 1 - below - 1 = folded.length by omega]
  simp

theorem termAt (h : Folds below folded last node other) {index : Nat}
    (hindex : other.snapshot.lastIncludedIndex ≤ index) :
    other.termAt index = node.termAt index := by
  have hboundary := h.boundary
  have hbelow := h.starts
  have hnode : node.termAt index = (node.entryAt index).map LogEntry.term :=
    termAt_above (by omega)
  rcases Nat.eq_or_lt_of_le hindex with rfl | hlt
  · rw [hnode, h.entryAt_last]
    unfold Node.termAt
    rw [if_neg (by omega), if_pos rfl, h.snapshot]
    rfl
  · rw [hnode, termAt_above hlt, h.entryAt hlt]

theorem lastLogTerm (h : Folds below folded last node other) :
    other.lastLogTerm = node.lastLogTerm := by
  unfold Node.lastLogTerm
  rw [h.log, h.snapshot]
  rcases List.eq_nil_or_concat other.log with hlog | ⟨entries, entry, hlog⟩
  · simp [hlog]
  · rw [hlog, List.concat_eq_append, ← List.cons_append, ← List.append_assoc,
      List.getLast?_concat, List.getLast?_concat]
    rfl

theorem entriesFrom (h : Folds below folded last node other) {index : Nat}
    (hindex : other.snapshot.lastIncludedIndex < index) :
    other.entriesFrom index = node.entriesFrom index := by
  have hboundary := h.boundary
  have hvec : node.vecIndex index = folded.length + 1 + other.vecIndex index := by
    unfold vecIndex
    rw [h.starts]
    omega
  have hlength : node.log.length = folded.length + 1 + other.log.length := by
    rw [h.log, List.length_append, List.length_cons]
    omega
  have hdrop : node.log.drop (node.vecIndex index) =
      other.log.drop (other.vecIndex index) := by
    have hsplit : folded ++ last :: other.log = (folded ++ [last]) ++ other.log := by simp
    rw [hvec, h.log, hsplit, ← List.drop_drop, List.drop_left' (by simp)]
  unfold Node.entriesFrom
  rw [hdrop, hvec, hlength]
  by_cases hle : other.vecIndex index ≤ other.log.length
  · rw [if_pos hle, if_pos (by omega)]
  · rw [if_neg hle, if_neg (by omega)]

/-- A change of the other fields that is the same on both sides. -/
theorem still (h : Folds below folded last node other) (hbare : other₁.bare = node₁.bare)
    (hnode : node₁.base = node.base) (hother : other₁.base = other.base)
    (hsends : node₁.role = .leader → ∀ (peer : NodeId) (next : Nat),
      node₁.nextIndex[peer]? = some next → other.snapshot.lastIncludedIndex < next) :
    Folds below folded last node₁ other₁ := by
  simp only [base, Prod.mk.injEq] at hnode hother
  obtain ⟨hlog, hsnapshot, hkept, hconfig, hindex⟩ := hnode
  obtain ⟨hlog', hsnapshot', hkept', hconfig', hindex'⟩ := hother
  refine ⟨hbare, ?_, ?_, ?_, ?_, ?_, ?_, ?_⟩
  · rw [hsnapshot]
    exact h.starts
  · rw [hlog, hlog']
    exact h.log
  · rw [hsnapshot']
    exact h.snapshot
  · rw [hkept', hkept]
    exact h.config
  · unfold ConfigCurrent
    rw [hconfig, hindex, hlog, hsnapshot, hkept]
    exact h.current
  · unfold ConfigCurrent
    rw [hconfig', hindex', hlog', hsnapshot', hkept']
    exact h.current'
  · rw [hsnapshot']
    exact hsends

/-- The same change of the other fields on both sides. -/
theorem update (h : Folds below folded last node other) (f : Node → Node)
    (hbase : ∀ n, (f n).base = n.base) (hbare : ∀ n, (f n).bare = (f n.bare).bare)
    (hsends : (f node).role = .leader → ∀ (peer : NodeId) (next : Nat),
      (f node).nextIndex[peer]? = some next → other.snapshot.lastIncludedIndex < next) :
    Folds below folded last (f node) (f other) := by
  apply h.still _ (hbase node) (hbase other) hsends
  rw [hbare other, h.bare, ← hbare node]

/-! ### Sending -/

theorem replicateTo (h : Folds below folded last node other) {peer : NodeId}
    (hsends : ∀ next, node.nextIndex[peer]? = some next →
      other.snapshot.lastIncludedIndex < next) :
    other.replicateTo peer = node.replicateTo peer := by
  obtain ⟨hid, -, hterm, -, -, -, -, -, -, -, hcommit, hnext, -⟩ := h.same
  have hboundary := h.boundary
  have hstarts := h.starts
  unfold Node.replicateTo
  rw [hnext]
  cases hfound : node.nextIndex[peer]? with
  | none => rfl
  | some next =>
      have hlow := hsends next hfound
      simp only [Option.bind_eq_bind, Option.bind_some]
      rw [if_neg (by omega), if_neg (by omega), h.termAt (by omega), h.entriesFrom hlow,
        hterm, hid, hcommit]

theorem broadcastReplication (h : Folds below folded last node other)
    (hsends : ∀ (peer : NodeId) (next : Nat), node.nextIndex[peer]? = some next →
      other.snapshot.lastIncludedIndex < next) :
    other.broadcastReplication = node.broadcastReplication := by
  obtain ⟨hid, -, -, -, -, -, -, -, -, -, -, -, -, hconfig, hlearners⟩ := h.same
  have htargets : other.replicationTargets = node.replicationTargets := by
    unfold replicationTargets
    rw [hid, hconfig, hlearners]
  have heach : other.replicateTo = node.replicateTo :=
    funext (fun peer => h.replicateTo (hsends peer))
  unfold Node.broadcastReplication
  rw [htargets, heach]

end Folds

/-- Both transitions panic, or both emit the same effects and leave the same node
but for what is folded. -/
def Alike (below : Nat) (folded : List LogEntry) (last : LogEntry) :
    Transition → Transition → Prop
  | none, none => True
  | some (node, effects), some (other, effects') =>
      effects' = effects ∧ Folds below folded last node other
  | _, _ => False

namespace Folds

/-- Sending to all targets after the same change on both sides. -/
theorem broadcasts (h : Folds below folded last node other)
    (hsends : ∀ (peer : NodeId) (next : Nat), node.nextIndex[peer]? = some next →
      other.snapshot.lastIncludedIndex < next) :
    Alike below folded last
      (do
        let effects ← node.broadcastReplication
        some (node, effects))
      (do
        let effects ← other.broadcastReplication
        some (other, effects)) := by
  rw [h.broadcastReplication hsends]
  cases node.broadcastReplication with
  | none => trivial
  | some effects => exact ⟨rfl, h⟩

theorem becomeLeader (h : Folds below folded last node other) :
    Alike below folded last node.becomeLeader other.becomeLeader := by
  obtain ⟨hid, -, -, -, -, -, -, -, -, -, -, -, -, hconfig, hlearners⟩ := h.same
  have htargets : other.replicationTargets = node.replicationTargets := by
    unfold replicationTargets
    rw [hid, hconfig, hlearners]
  have hlast := h.lastLogIndex
  have hsends : ∀ (peer : NodeId) (next : Nat),
      (node.replicationTargets.toList.foldl (fun progress peer =>
        progress.insert peer (node.lastLogIndex + 1)) (∅ : Progress))[peer]? = some next →
      other.snapshot.lastIncludedIndex < next := by
    intro peer next hfound
    rcases foldl_insert_const _ _ _ hfound with rfl | hempty
    · rw [← hlast]
      unfold Node.lastLogIndex
      omega
    · rw [Std.ExtTreeMap.getElem?_empty] at hempty
      cases hempty
  unfold Node.becomeLeader
  dsimp only
  rw [htargets, hlast]
  refine broadcasts (h.update (fun n => { n with
    role := .leader
    heartbeatElapsed := 0
    nextIndex := _
    matchIndex := _ }) (fun _ => rfl) (fun _ => rfl) (fun _ => hsends)) hsends

theorem onLeaderTick (h : Folds below folded last node other) (hrole : node.role = .leader) :
    Alike below folded last node.onLeaderTick other.onLeaderTick := by
  obtain ⟨-, -, -, -, -, -, -, hheart, hinterval, -⟩ := h.same
  unfold Node.onLeaderTick
  by_cases hdue : node.heartbeatElapsed + 1 < node.heartbeatInterval
  · dsimp only
    rw [if_pos hdue, if_pos (by rw [hheart, hinterval]; exact hdue)]
    exact ⟨rfl, h.update (fun n => { n with
      heartbeatElapsed := n.heartbeatElapsed + 1
      leaderContactElapsed := n.leaderContactElapsed + 1 })
      (fun _ => rfl) (fun _ => rfl) (fun _ => h.sends hrole)⟩
  · dsimp only
    rw [if_neg hdue, if_neg (by rw [hheart, hinterval]; exact hdue)]
    refine broadcasts (h.update (fun n => { n with
      heartbeatElapsed := 0
      leaderContactElapsed := n.leaderContactElapsed + 1 })
      (fun _ => rfl) (fun _ => rfl) (fun _ => h.sends hrole)) (h.sends hrole)

/-! ### Elections -/

theorem startElection (h : Folds below folded last node other) (nextTimeout : Nat) :
    Alike below folded last (node.startElection nextTimeout)
      (other.startElection nextTimeout) := by
  obtain ⟨hid, -, -, -, -, -, -, -, -, -, -, -, -, hconfig, -⟩ := h.same
  have hcampaign : Folds below folded last (node.campaign nextTimeout)
      (other.campaign nextTimeout) :=
    h.update (fun n => n.campaign nextTimeout) (fun _ => rfl) (fun _ => rfl) nofun
  have hquorum : (other.campaign nextTimeout).hasQuorum =
      (node.campaign nextTimeout).hasQuorum := by
    obtain ⟨-, -, -, -, hvotes, -, -, -, -, -, -, -, -, hconfig', -⟩ := hcampaign.same
    unfold hasQuorum quorumSize
    rw [hvotes, hconfig']
  have hpersist : (other.campaign nextTimeout).persistHardState =
      (node.campaign nextTimeout).persistHardState := by
    obtain ⟨-, -, hterm, hvoted, -⟩ := hcampaign.same
    unfold persistHardState
    rw [hterm, hvoted]
  have hrequests : (other.campaign nextTimeout).requestVotes =
      (node.campaign nextTimeout).requestVotes := by
    obtain ⟨hid', -, hterm, -, -, -, -, -, -, -, -, -, -, hconfig', -⟩ := hcampaign.same
    unfold requestVotes
    rw [hid', hterm, hconfig', hcampaign.lastLogIndex, hcampaign.lastLogTerm]
  unfold Node.startElection
  rw [hconfig, hid]
  split
  · exact ⟨rfl, h⟩
  dsimp only
  rw [hquorum, hpersist, hrequests]
  split
  · have hleads := hcampaign.becomeLeader
    revert hleads
    generalize (node.campaign nextTimeout).becomeLeader = first
    generalize (other.campaign nextTimeout).becomeLeader = second
    intro hleads
    match first, second, hleads with
    | none, none, _ => trivial
    | some (leader, sends), some (leader', sends'), ⟨hsame, hfolds⟩ =>
        exact ⟨congrArg _ hsame, hfolds⟩
  · exact ⟨rfl, hcampaign⟩

theorem onTick (h : Folds below folded last node other) (nextTimeout : Nat) :
    Alike below folded last (node.onTick nextTimeout) (other.onTick nextTimeout) := by
  obtain ⟨-, hrole, -, -, -, helapsed, htimeout, -⟩ := h.same
  unfold Node.onTick
  by_cases hleader : node.role = .leader
  · rw [if_pos hleader, if_pos (hrole.trans hleader)]
    exact h.onLeaderTick hleader
  have hleader' : ¬ other.role = .leader := by
    rw [hrole]
    exact hleader
  rw [if_neg hleader, if_neg hleader']
  have hticked := h.update (fun n => { n with
    electionElapsed := n.electionElapsed + 1
    leaderContactElapsed := n.leaderContactElapsed + 1 })
    (fun _ => rfl) (fun _ => rfl) (fun hleads => absurd hleads hleader)
  dsimp only at hticked ⊢
  by_cases hwaits : node.electionElapsed + 1 < node.electionTimeout
  · rw [if_pos hwaits, if_pos (by rw [helapsed, htimeout]; exact hwaits)]
    exact ⟨rfl, hticked⟩
  · rw [if_neg hwaits, if_neg (by rw [helapsed, htimeout]; exact hwaits)]
    exact hticked.startElection nextTimeout

theorem voteReply (h : Folds below folded last node other) (sender : NodeId)
    (granted : Bool) : other.voteReply sender granted = node.voteReply sender granted := by
  unfold Node.voteReply
  rw [h.same.2.2.1]

theorem persistHardState (h : Folds below folded last node other) :
    other.persistHardState = node.persistHardState := by
  obtain ⟨-, -, hterm, hvoted, -⟩ := h.same
  unfold Node.persistHardState
  rw [hterm, hvoted]

/-- The last part of a vote, once the term is that of the request. -/
theorem casts (h : Folds below folded last node other) (hrole : node.role ≠ .leader)
    (sender : NodeId) (request : RequestVote) (moved : Bool) :
    Alike below folded last
      (let canGrant := node.logIsUpToDate request &&
        (node.votedFor.isNone || node.votedFor = some request.candidateId)
      let voter := if canGrant then
        { node with votedFor := some request.candidateId, electionElapsed := 0 } else node
      some (voter, (if moved || canGrant then [voter.persistHardState] else []) ++
        [voter.voteReply sender canGrant]))
      (let canGrant := other.logIsUpToDate request &&
        (other.votedFor.isNone || other.votedFor = some request.candidateId)
      let voter := if canGrant then
        { other with votedFor := some request.candidateId, electionElapsed := 0 } else other
      some (voter, (if moved || canGrant then [voter.persistHardState] else []) ++
        [voter.voteReply sender canGrant])) := by
  obtain ⟨-, -, -, hvoted, -⟩ := h.same
  have hlog : other.logIsUpToDate request = node.logIsUpToDate request := by
    unfold logIsUpToDate
    rw [h.lastLogTerm, h.lastLogIndex]
  dsimp only
  rw [hlog, hvoted]
  generalize (node.logIsUpToDate request &&
    (node.votedFor.isNone || node.votedFor = some request.candidateId)) = canGrant
  cases canGrant with
  | true =>
      have hvoter := h.update (fun n => { n with
        votedFor := some request.candidateId, electionElapsed := 0 })
        (fun _ => rfl) (fun _ => rfl) (fun hleads => absurd hleads hrole)
      simp only [if_true, Bool.or_true]
      exact ⟨by rw [hvoter.persistHardState, hvoter.voteReply], hvoter⟩
  | false =>
      simp only [Bool.false_eq_true, if_false, Bool.or_false]
      exact ⟨by rw [h.persistHardState, h.voteReply], h⟩

theorem onRequestVote (h : Folds below folded last node other) (sender : NodeId)
    (request : RequestVote) :
    Alike below folded last (node.onRequestVote sender request)
      (other.onRequestVote sender request) := by
  obtain ⟨-, hrole, hterm, -, -, -, -, -, hinterval, hcontact, -, -, -, hconfig, -⟩ := h.same
  have hrefuse : Alike below folded last (some (node, [node.voteReply sender false]))
      (some (other, [other.voteReply sender false])) :=
    ⟨by rw [h.voteReply], h⟩
  unfold Node.onRequestVote
  by_cases hstale : request.term < node.currentTerm
  · rw [if_pos hstale, if_pos (hterm ▸ hstale)]
    exact hrefuse
  have hstale' : ¬ request.term < other.currentTerm := by
    rw [hterm]
    exact hstale
  rw [if_neg hstale, if_neg hstale']
  by_cases hleader : node.role = .leader
  · rw [if_pos hleader, if_pos (hrole.trans hleader)]
    exact hrefuse
  have hleader' : ¬ other.role = .leader := by
    rw [hrole]
    exact hleader
  rw [if_neg hleader, if_neg hleader']
  by_cases hsticky : node.currentConfig.oldVoters.isSome ∧
      node.leaderContactElapsed < node.heartbeatInterval
  · rw [if_pos hsticky, if_pos (by rw [hconfig, hcontact, hinterval]; exact hsticky)]
    exact hrefuse
  have hsticky' : ¬ (other.currentConfig.oldVoters.isSome ∧
      other.leaderContactElapsed < other.heartbeatInterval) := by
    rw [hconfig, hcontact, hinterval]
    exact hsticky
  rw [if_neg hsticky, if_neg hsticky']
  by_cases hlater : node.currentTerm < request.term
  · have hdown := h.update (fun n => n.stepDown request.term)
      (fun _ => rfl) (fun _ => rfl) nofun
    have hcast := hdown.casts nofun sender request true
    simp only [hterm, hlater, decide_true, if_true]
    exact hcast
  · have hcast := h.casts hleader sender request false
    simp only [hterm, hlater, decide_false, Bool.false_eq_true, if_false, Bool.false_or]
      at hcast ⊢
    exact hcast

theorem onRequestVoteResponse (h : Folds below folded last node other) (sender : NodeId)
    (response : RequestVoteResponse) :
    Alike below folded last (node.onRequestVoteResponse sender response)
      (other.onRequestVoteResponse sender response) := by
  obtain ⟨-, hrole, hterm, -, hvotes, -, -, -, -, -, -, -, -, hconfig, -⟩ := h.same
  unfold Node.onRequestVoteResponse
  by_cases hlater : node.currentTerm < response.term
  · rw [if_pos hlater, if_pos (hterm ▸ hlater)]
    have hdown := h.update (fun n => n.stepDown response.term)
      (fun _ => rfl) (fun _ => rfl) nofun
    exact ⟨by rw [hdown.persistHardState], hdown⟩
  have hlater' : ¬ other.currentTerm < response.term := by
    rw [hterm]
    exact hlater
  rw [if_neg hlater, if_neg hlater']
  by_cases hidle : response.term < node.currentTerm ∨ node.role ≠ .candidate
  · rw [if_pos hidle, if_pos (by rw [hterm, hrole]; exact hidle)]
    exact ⟨rfl, h⟩
  have hidle' : ¬ (response.term < other.currentTerm ∨ other.role ≠ .candidate) := by
    rw [hterm, hrole]
    exact hidle
  rw [if_neg hidle, if_neg hidle']
  split
  · have hcandidate : node.role = .candidate := not_not.mp (fun hno => hidle (Or.inr hno))
    have hcounted := h.update (fun n => { n with votesGranted := n.votesGranted.insert sender })
      (fun _ => rfl) (fun _ => rfl) (fun hleads => by
        have hleads : node.role = .leader := hleads
        rw [hcandidate] at hleads
        cases hleads)
    have hquorum : ({ other with
        votesGranted := other.votesGranted.insert sender } : Node).hasQuorum =
          ({ node with votesGranted := node.votesGranted.insert sender } : Node).hasQuorum := by
      unfold hasQuorum quorumSize
      rw [hvotes, hconfig]
    dsimp only
    rw [hquorum]
    split
    · exact hcounted.becomeLeader
    · exact ⟨rfl, hcounted⟩
  · exact ⟨rfl, h⟩

end Folds

/-! ### Messages of a leader -/

/-- Wherever the message speaks of a folded entry, it has the entry's term. -/
structure AgreesWith (below : Nat) (folded : List LogEntry) (last : LogEntry)
    (request : AppendEntries) : Prop where
  prev : ∀ own, below < request.prevLogIndex →
    (folded ++ [last])[request.prevLogIndex - below - 1]? = some own →
    own.term = request.prevLogTerm
  entries : ∀ sent ∈ request.entries.zipIdx (request.prevLogIndex + 1), ∀ own,
    below < sent.2 → (folded ++ [last])[sent.2 - below - 1]? = some own →
    own.term = sent.1.term

namespace Folds

theorem entryAt_folded (h : Folds below folded last node other) {index : Nat}
    (hlow : below < index) (hhigh : index ≤ other.snapshot.lastIncludedIndex) :
    ∃ own, (folded ++ [last])[index - below - 1]? = some own ∧
      node.termAt index = some own.term := by
  have hboundary := h.boundary
  have hlength : index - below - 1 < (folded ++ [last]).length := by
    rw [List.length_append, List.length_singleton]
    omega
  refine ⟨_, List.getElem?_eq_getElem hlength, ?_⟩
  have hsplit : node.log = (folded ++ [last]) ++ other.log := by
    rw [h.log, List.append_assoc, List.singleton_append]
  have hstarts := h.starts
  rw [termAt_above (by omega)]
  unfold Node.entryAt vecIndex
  rw [if_neg (by omega), hstarts, hsplit, List.getElem?_append_left hlength,
    List.getElem?_eq_getElem hlength]
  rfl

theorem prevLogSatisfied (h : Folds below folded last node other) {request : AppendEntries}
    (hagrees : AgreesWith below folded last request) :
    other.prevLogSatisfied request = node.prevLogSatisfied request := by
  have hboundary := h.boundary
  have hstarts := h.starts
  unfold Node.prevLogSatisfied
  by_cases hlow : request.prevLogIndex ≤ below
  · have hother : request.prevLogIndex ≤ other.snapshot.lastIncludedIndex := by omega
    have hnode : request.prevLogIndex ≤ node.snapshot.lastIncludedIndex := by omega
    simp only [hother, hnode, decide_true, Bool.true_or]
  by_cases hhigh : request.prevLogIndex ≤ other.snapshot.lastIncludedIndex
  · obtain ⟨own, hown, hterm⟩ := h.entryAt_folded (Nat.not_le.mp hlow) hhigh
    rw [hterm, hagrees.prev own (Nat.not_le.mp hlow) hown]
    simp only [hhigh, decide_true, Bool.true_or, Bool.or_true]
  · have hnode : ¬ request.prevLogIndex ≤ node.snapshot.lastIncludedIndex := by omega
    rw [h.termAt (Nat.le_of_lt (Nat.not_le.mp hhigh))]
    simp only [hhigh, hnode, decide_false, Bool.false_or]

theorem firstNew (h : Folds below folded last node other) {entries : List LogEntry}
    {index : Nat} (hagrees : ∀ sent ∈ entries.zipIdx index, ∀ own, below < sent.2 →
      (folded ++ [last])[sent.2 - below - 1]? = some own → own.term = sent.1.term) :
    other.firstNew index entries = node.firstNew index entries := by
  induction entries generalizing index with
  | nil => rfl
  | cons entry rest ih =>
      rw [List.zipIdx_cons, List.forall_mem_cons] at hagrees
      obtain ⟨hfirst, hrest⟩ := hagrees
      have hboundary := h.boundary
      have hstarts := h.starts
      have hheld : (index ≤ other.snapshot.lastIncludedIndex ∨
          other.termAt index = some entry.term) ↔
            (index ≤ node.snapshot.lastIncludedIndex ∨
              node.termAt index = some entry.term) := by
        by_cases hlow : index ≤ below
        · exact ⟨fun _ => Or.inl (by omega), fun _ => Or.inl (by omega)⟩
        by_cases hhigh : index ≤ other.snapshot.lastIncludedIndex
        · obtain ⟨own, hown, hterm⟩ := h.entryAt_folded (Nat.not_le.mp hlow) hhigh
          have hsame := hfirst own (Nat.not_le.mp hlow) hown
          exact ⟨fun _ => Or.inr (by rw [hterm, hsame]), fun _ => Or.inl hhigh⟩
        · rw [h.termAt (Nat.le_of_lt (Nat.not_le.mp hhigh))]
          refine or_congr_left ⟨fun hle => absurd hle hhigh, fun hle => ?_⟩
          omega
      unfold Node.firstNew
      rw [ih hrest]
      by_cases hheld' : index ≤ node.snapshot.lastIncludedIndex ∨
          node.termAt index = some entry.term
      · rw [if_pos hheld', if_pos (hheld.mpr hheld')]
      · rw [if_neg hheld', if_neg (fun hother => hheld' (hheld.mp hother))]

/-- Both nodes take over the same entries. -/
theorem adopt (h : Folds below folded last node other) {entries : List LogEntry}
    {index : Nat} (hindex : index ≤ other.lastLogIndex + 1) :
    Folds below folded last (node.adopt (other.firstNew index entries))
      (other.adopt (other.firstNew index entries)) := by
  cases hfound : other.firstNew index entries with
  | none => exact h
  | some found =>
      obtain ⟨fromIndex, rest⟩ := found
      obtain ⟨hlow, -, hhigh, -⟩ := firstNew_range hindex hfound
      have hboundary := h.boundary
      have hstarts := h.starts
      have hvec : node.vecIndex fromIndex =
          (folded ++ [last]).length + other.vecIndex fromIndex := by
        unfold vecIndex
        rw [List.length_append, List.length_singleton]
        omega
      have hsplit : node.log = (folded ++ [last]) ++ other.log := by
        rw [h.log, List.append_assoc, List.singleton_append]
      have hlog : node.log.take (node.vecIndex fromIndex) ++ rest =
          folded ++ last :: (other.log.take (other.vecIndex fromIndex) ++ rest) := by
        rw [hvec, hsplit, List.take_length_add_append, List.append_assoc, List.append_assoc,
          List.singleton_append]
      have hcurrent : (node.adopt (some (fromIndex, rest))).ConfigCurrent :=
        configCurrent_recomputeConfig _
      have hcurrent' : (other.adopt (some (fromIndex, rest))).ConfigCurrent :=
        configCurrent_recomputeConfig _
      have hconfig : (other.adopt (some (fromIndex, rest))).currentConfig =
          (node.adopt (some (fromIndex, rest))).currentConfig := by
        rw [hcurrent.config, hcurrent'.config, adopt_snapshotConfig, adopt_snapshotConfig,
          h.config, show (node.adopt (some (fromIndex, rest))).log =
            (folded ++ [last]) ++ (other.log.take (other.vecIndex fromIndex) ++ rest) by
            rw [List.append_assoc, List.singleton_append]; exact hlog,
          adopt_snapshot, adopt_snapshot, hstarts]
        exact (latestConfigurationIn_append _ _ _ _ _).symm
      refine ⟨?_, h.starts, hlog, h.snapshot, h.config, hcurrent, hcurrent', h.sends⟩
      have hbare := h.bare
      simp only [Node.bare, Node.adopt, recomputeConfig, Node.mk.injEq] at hbare hconfig ⊢
      obtain ⟨hid, hrole, hterm, hvoted, helapsed, htimeout, hvotes, hheart, hinterval,
        hcontact, -, hcommit, hnext, hmatch, -, -, -, -, -, hlearners⟩ := hbare
      exact ⟨hid, hrole, hterm, hvoted, helapsed, htimeout, hvotes, hheart, hinterval,
        hcontact, trivial, hcommit, hnext, hmatch, trivial, trivial, trivial, hconfig, trivial,
        hlearners⟩

theorem followCommit (h : Folds below folded last node other) (leaderCommit : Nat) :
    Folds below folded last (node.followCommit leaderCommit)
      (other.followCommit leaderCommit) := by
  obtain ⟨-, -, -, -, -, -, -, -, -, -, hcommit, -⟩ := h.same
  unfold Node.followCommit
  rw [hcommit, h.lastLogIndex]
  split
  · exact h.update (fun n => { n with commitIndex := min leaderCommit node.lastLogIndex })
      (fun _ => rfl) (fun _ => rfl) h.sends
  · exact h

theorem followLeader (h : Folds below folded last node other) (term : Nat) :
    Folds below folded last (node.followLeader term).1 (other.followLeader term).1 ∧
      (other.followLeader term).2 = (node.followLeader term).2 := by
  obtain ⟨-, hrole, hterm, -⟩ := h.same
  unfold Node.followLeader
  by_cases hlater : node.currentTerm < term
  · have hdown := h.update (fun n => { n.stepDown term with
      electionElapsed := 0, leaderContactElapsed := 0 }) (fun _ => rfl) (fun _ => rfl) nofun
    simp only [hterm, hlater, decide_true, if_true]
    exact ⟨hdown, rfl⟩
  by_cases hcandidate : node.role = .candidate
  · have hgives := h.update (fun n => { n with
      role := .follower, electionElapsed := 0, leaderContactElapsed := 0 })
      (fun _ => rfl) (fun _ => rfl) nofun
    simp only [hterm, hlater, hrole, hcandidate, decide_false, Bool.false_eq_true, if_false,
      if_true] at hgives ⊢
    exact ⟨hgives, trivial⟩
  · have hheard := h.update (fun n => { n with
      electionElapsed := 0, leaderContactElapsed := 0 })
      (fun _ => rfl) (fun _ => rfl) h.sends
    simp only [hterm, hlater, hrole, hcandidate, decide_false, Bool.false_eq_true, if_false]
      at hheard ⊢
    exact ⟨hheard, trivial⟩

theorem onAppendEntries (h : Folds below folded last node other) (sender : NodeId)
    {request : AppendEntries} (hagrees : AgreesWith below folded last request) :
    Alike below folded last (node.onAppendEntries sender request)
      (other.onAppendEntries sender request) := by
  have hterm := h.same.2.2.1
  have hreply : ∀ {first second : Node} (success : Bool) (count : Nat),
      Folds below folded last first second →
      second.appendReply sender success count = first.appendReply sender success count :=
    fun _ _ hfolds => appendReply_congr hfolds.same.2.2.1
  obtain ⟨hfollow, hpersist⟩ := h.followLeader request.term
  have hprev := h.prevLogSatisfied hagrees
  rcases Nat.lt_or_ge request.term node.currentTerm with hstale | hnew
  · rw [onAppendEntries_stale hstale, onAppendEntries_stale (hterm ▸ hstale)]
    exact ⟨by rw [rejectAppendEntries, rejectAppendEntries, hreply _ _ h], h⟩
  have hnew' : other.currentTerm ≤ request.term := hterm ▸ hnew
  cases hsatisfied : node.prevLogSatisfied request with
  | false =>
      rw [onAppendEntries_rejects hnew hsatisfied,
        onAppendEntries_rejects hnew' (hprev.trans hsatisfied)]
      exact ⟨by rw [rejectAppendEntries, rejectAppendEntries, hreply _ _ hfollow, hpersist],
        hfollow⟩
  | true =>
      have hsatisfied' := hprev.trans hsatisfied
      have hindex : request.prevLogIndex + 1 ≤
          (other.followLeader request.term).1.lastLogIndex + 1 := by
        obtain ⟨hlog, hsnapshot, -⟩ := other.followLeader_log request.term
        have hle := prevLogSatisfied_le hsatisfied'
        unfold Node.lastLogIndex at hle ⊢
        rw [hlog, hsnapshot]
        omega
      obtain ⟨hlog, hsnapshot, -⟩ := other.followLeader_log request.term
      have hadopted : Folds below folded last _ ((other.followLeader request.term).1.adopt
          ((other.followLeader request.term).1.firstNew (request.prevLogIndex + 1)
            request.entries)) := hfollow.adopt hindex
      rw [firstNew_congr hlog hsnapshot] at hadopted
      rw [onAppendEntries_accepts hnew hsatisfied, onAppendEntries_accepts hnew' hsatisfied',
        ← h.firstNew hagrees.entries]
      exact ⟨by rw [hpersist, hreply _ _ hadopted], hadopted.followCommit _⟩

end Folds

/-! ### Runs -/

/-- A tick, a vote, or entries that agree with what is folded. -/
def Follows (below : Nat) (folded : List LogEntry) (last : LogEntry) : Operation → Prop
  | .tick _ | .receive _ (.requestVote _) | .receive _ (.requestVoteResponse _) => True
  | .receive _ (.appendEntries request) => AgreesWith below folded last request
  | _ => False

namespace Folds

theorem perform (h : Folds below folded last node other) {operation : Operation}
    (hfollows : Follows below folded last operation) :
    Alike below folded last (node.perform operation) (other.perform operation) := by
  obtain ⟨-, -, -, -, -, -, -, -, -, -, -, -, -, hconfig, hlearners⟩ := h.same
  have hmember : ∀ sender, other.isMember sender = node.isMember sender := by
    intro sender
    unfold isMember
    rw [hconfig, hlearners]
  have hignored : Alike below folded last (some (node, [])) (some (other, [])) := ⟨rfl, h⟩
  match operation, hfollows with
  | .tick nextTimeout, _ => exact h.onTick nextTimeout
  | .receive sender (.requestVote request), _ =>
      simp only [Node.perform, step, hmember]
      split
      · exact hignored
      split
      · exact hignored
      · exact h.onRequestVote sender request
  | .receive sender (.requestVoteResponse response), _ =>
      simp only [Node.perform, step, hmember]
      split
      · exact hignored
      · exact h.onRequestVoteResponse sender response
  | .receive sender (.appendEntries request), hagrees =>
      simp only [Node.perform, step]
      split
      · exact hignored
      · exact h.onAppendEntries sender hagrees

/-- Served by both nodes, a run of requests panics in both, or emits the same
effects and leaves nodes that are alike. -/
theorem performAll {operations : List Operation} :
    ∀ {node other : Node}, Folds below folded last node other →
      (∀ operation ∈ operations, Follows below folded last operation) →
      (node.performAll operations = none ∧ other.performAll operations = none) ∨
        ∃ node₁ other₁ batches, node.performAll operations = some (node₁, batches) ∧
          other.performAll operations = some (other₁, batches) ∧
          Folds below folded last node₁ other₁ := by
  induction operations with
  | nil => exact fun h _ => Or.inr ⟨_, _, [], rfl, rfl, h⟩
  | cons operation rest ih =>
      intro node other h hfollows
      obtain ⟨hfirst, hrest⟩ := List.forall_mem_cons.mp hfollows
      have halike := h.perform hfirst
      unfold Node.performAll
      match hnode : node.perform operation, hother : other.perform operation, halike with
      | none, none, _ => exact Or.inl ⟨rfl, rfl⟩
      | some (next, effects), some (next', effects'), ⟨hsame, hnext⟩ =>
          rcases ih hnext hrest with ⟨hnone, hnone'⟩ | ⟨node₁, other₁, batches, hrun, hrun', hlast⟩
          · left
            simp only [Option.bind_eq_bind, Option.bind_some, hnone, hnone', Option.bind_none,
              and_self]
          · right
            refine ⟨node₁, other₁, effects :: batches, ?_, ?_, hlast⟩
            · simp only [Option.bind_eq_bind, Option.bind_some, hrun]
            · simp only [Option.bind_eq_bind, Option.bind_some, hrun', hsame]

/-- Compaction folds the entries up to its index. -/
theorem of_compact (hcurrent : node.ConfigCurrent) (hrole : node.role ≠ .leader)
    {upToIndex : Nat} {snapshotData : Bytes}
    (habove : node.snapshot.lastIncludedIndex < upToIndex)
    (h : node.compact upToIndex snapshotData = some (.ok (other, effects))) :
    ∃ folded last, Folds node.snapshot.lastIncludedIndex folded last node other ∧
      other.snapshot.lastIncludedIndex = upToIndex := by
  have hconfig := compact_currentConfig hcurrent h
  rcases compact_cases h with ⟨hle, -⟩ |
    ⟨term, config, log, -, -, hterm, hlog, hkept, hother, -⟩
  · exact absurd habove (Nat.not_lt.mpr hle)
  have hhigh := (termAt_range hterm).2.2
  obtain ⟨count, hcount⟩ : ∃ count, upToIndex - node.snapshot.lastIncludedIndex = count + 1 :=
    ⟨upToIndex - node.snapshot.lastIncludedIndex - 1, by omega⟩
  rw [hcount] at hlog hkept
  have hslice : count < node.log.length := by
    unfold Node.lastLogIndex at hhigh
    omega
  have hentry : node.termAt upToIndex = some (node.log[count]).term := by
    rw [termAt_above habove]
    unfold Node.entryAt vecIndex
    rw [if_neg (by omega), hcount, Nat.add_sub_cancel, List.getElem?_eq_getElem hslice]
    rfl
  refine ⟨node.log.take count, node.log[count],
    ⟨?_, rfl, ?_, ?_, ?_, hcurrent, ?_, fun hleads => absurd hleads hrole⟩, ?_⟩
  · rw [hother] at hconfig ⊢
    simp only [Node.bare, recomputeConfig, Node.mk.injEq, and_self, true_and, and_true]
      at hconfig ⊢
    exact hconfig
  · rw [hother, hlog]
    simp only [recomputeConfig]
    rw [List.getElem_cons_drop, List.take_append_drop]
  · rw [hother]
    simp only [recomputeConfig, SnapshotMetadata.mk.injEq, List.length_take]
    rw [hterm] at hentry
    exact ⟨by omega, Option.some.inj hentry⟩
  · rw [hother, hkept]
    simp only [recomputeConfig]
    rw [List.take_append_getElem]
  · rw [hother]
    exact configCurrent_recomputeConfig _
  · rw [hother]
    rfl

end Folds

/-- Its entry before the message and its entries up to the commit index are, by
their terms, those of the node's log. -/
def Agrees (node : Node) (request : AppendEntries) : Prop :=
  (request.prevLogIndex ≤ node.commitIndex → ∀ own ∈ node.entryAt request.prevLogIndex,
    own.term = request.prevLogTerm) ∧
  ∀ sent ∈ request.entries.zipIdx (request.prevLogIndex + 1), sent.2 ≤ node.commitIndex →
    ∀ own ∈ node.entryAt sent.2, own.term = sent.1.term

/-- A tick, a vote, or entries that agree with what the node has committed. -/
def Undisturbing (node : Node) : Operation → Prop
  | .tick _ | .receive _ (.requestVote _) | .receive _ (.requestVoteResponse _) => True
  | .receive _ (.appendEntries request) => node.Agrees request
  | _ => False

instance (node : Node) (request : AppendEntries) : Decidable (node.Agrees request) :=
  inferInstanceAs (Decidable (_ ∧ _))

instance (node : Node) : DecidablePred node.Undisturbing := fun operation =>
  match operation with
  | .receive _ (.appendEntries request) => inferInstanceAs (Decidable (node.Agrees request))
  | .tick _ | .receive _ (.requestVote _) | .receive _ (.requestVoteResponse _) =>
      inferInstanceAs (Decidable True)
  | .receive _ (.appendEntriesResponse _) | .receive _ (.installSnapshot _)
  | .receive _ (.installSnapshotResponse _) | .propose _ | .proposeConfigChange _
  | .addLearner _ | .removeLearner _ | .compact _ _ => inferInstanceAs (Decidable False)

theorem Folds.follows (h : Folds below folded last node other)
    (hcommitted : other.snapshot.lastIncludedIndex ≤ node.commitIndex)
    {operation : Operation} (hrequest : node.Undisturbing operation) :
    Follows below folded last operation := by
  have hboundary := h.boundary
  have hstarts := h.starts
  have hsplit : node.log = (folded ++ [last]) ++ other.log := by
    rw [h.log, List.append_assoc, List.singleton_append]
  have hheld : ∀ index own, below < index →
      (folded ++ [last])[index - below - 1]? = some own →
      index ≤ node.commitIndex ∧ node.entryAt index = some own := by
    intro index own hlow hown
    have hlength := (List.getElem?_eq_some_iff.mp hown).1
    have hin := hlength
    rw [List.length_append, List.length_singleton] at hin
    refine ⟨by omega, ?_⟩
    unfold Node.entryAt vecIndex
    rw [if_neg (by omega), hstarts, hsplit, List.getElem?_append_left hlength, hown]
  match operation, hrequest with
  | .tick nextTimeout, _ => trivial
  | .receive sender (.requestVote request), _ => trivial
  | .receive sender (.requestVoteResponse response), _ => trivial
  | .receive sender (.appendEntries request), hagrees =>
      refine ⟨fun own hlow hown => ?_, fun sent hmem own hlow hown => ?_⟩
      · obtain ⟨hle, hentry⟩ := hheld _ own hlow hown
        exact hagrees.1 hle own hentry
      · obtain ⟨hle, hentry⟩ := hheld _ own hlow hown
        exact hagrees.2 sent hmem hle own hentry

theorem compact_noop {index : Nat} {data : Bytes}
    (hlow : index ≤ node.snapshot.lastIncludedIndex) :
    node.compact index data = some (.ok (node, [])) := by
  unfold compact
  rw [if_pos hlow]

theorem compact_rejected {index : Nat} {data : Bytes}
    (hbeyond : node.snapshot.lastIncludedIndex < index) (hhigh : node.commitIndex < index) :
    node.compact index data = some (.error .indexNotCommitted) ∧
      node.perform (.compact index data) = some (node, []) := by
  have hrejected : node.compact index data = some (.error .indexNotCommitted) := by
    unfold compact
    rw [if_neg (Nat.not_le.mpr hbeyond), if_pos hhigh]
  exact ⟨hrejected, by simp only [perform, hrejected, Option.bind_eq_bind, Option.bind_some]⟩

/-- Both runs panic, or they emit the same effects, and the nodes they leave agree
on term, vote, role, commit index, configuration and all entries above `upTo`. -/
def Indistinguishable (upTo : Nat) :
    Option (Node × List (List Effect)) → Option (Node × List (List Effect)) → Prop
  | none, none => True
  | some (node, batches), some (other, batches') =>
      batches' = batches ∧ other.currentTerm = node.currentTerm ∧
        other.votedFor = node.votedFor ∧ other.role = node.role ∧
        other.commitIndex = node.commitIndex ∧
        other.currentConfig = node.currentConfig ∧
        ∀ index, upTo < index → other.entryAt index = node.entryAt index
  | _, _ => False

/-- A node that has compacted its log cannot be told from the node it was, by
what it answers to ticks, votes and entries. A compaction that is not due leaves
any node alone, a leader as well. -/
theorem compaction_is_invisible {start node : Node} {operations : List Operation}
    {batches : List (List Effect)} (hstart : Built start)
    (hrun : start.performAll operations = some (node, batches)) :
    (∀ (upToIndex : Nat) (snapshotData : Bytes) (compacted : Node) (effects : List Effect),
      node.role ≠ .leader → node.snapshot.lastIncludedIndex < upToIndex →
      upToIndex ≤ node.commitIndex →
      node.compact upToIndex snapshotData = some (.ok (compacted, effects)) →
      (compacted.lastLogIndex = node.lastLogIndex ∧
        compacted.lastLogTerm = node.lastLogTerm ∧
        compacted.commitIndex = node.commitIndex ∧
        compacted.currentConfig = node.currentConfig ∧
        (∀ index, upToIndex < index → compacted.entryAt index = node.entryAt index) ∧
        ∀ index, upToIndex ≤ index → compacted.termAt index = node.termAt index) ∧
      ∀ requests : List Operation, (∀ request ∈ requests, node.Undisturbing request) →
        Indistinguishable upToIndex (node.performAll requests)
          (compacted.performAll requests)) ∧
    ∀ index data, (index ≤ node.snapshot.lastIncludedIndex →
        node.compact index data = some (.ok (node, []))) ∧
      (node.snapshot.lastIncludedIndex < index → node.commitIndex < index →
        node.compact index data = some (.error .indexNotCommitted) ∧
          node.perform (.compact index data) = some (node, [])) := by
  have hcurrent : node.ConfigCurrent :=
    performAll_invariant ConfigCurrent
      (fun _ _ _ _ hnode hperform => hnode.perform hperform) hstart.current hrun
  refine ⟨?_, fun index data => ⟨compact_noop, compact_rejected⟩⟩
  intro upToIndex snapshotData compacted effects hrole habove hcommitted hcompact
  obtain ⟨folded, last, h, hboundary⟩ := Folds.of_compact hcurrent hrole habove hcompact
  obtain ⟨-, -, -, -, -, -, -, -, -, -, hcommit, -, -, hconfig, -⟩ := h.same
  refine ⟨⟨h.lastLogIndex, h.lastLogTerm, hcommit, hconfig, ?_, ?_⟩, ?_⟩
  · exact fun index hindex => h.entryAt (hboundary ▸ hindex)
  · exact fun index hindex => h.termAt (hboundary ▸ hindex)
  · intro requests hrequest
    have hfollows := fun request hmem => h.follows (hboundary ▸ hcommitted)
      (hrequest request hmem)
    rcases h.performAll hfollows with ⟨hnone, hnone'⟩ |
      ⟨node₁, other₁, batches', hnode, hother, hlast⟩
    · rw [hnone, hnone']
      trivial
    · obtain ⟨-, hrole', hterm, hvoted, -, -, -, -, -, -, hcommit', -, -, hconfig', -⟩ :=
        hlast.same
      have hboundary' : other₁.snapshot.lastIncludedIndex = upToIndex := by
        rw [hlast.boundary, ← hboundary, h.boundary]
      rw [hnode, hother]
      exact ⟨rfl, hterm, hvoted, hrole', hcommit', hconfig',
        fun index hindex => hlast.entryAt (hboundary' ▸ hindex)⟩

/-- A leader replaces the last entry of the log, and then the timer fires. -/
def heardAfterwards : List Operation :=
  [.receive ⟨1⟩ (.appendEntries ⟨2, ⟨1⟩, 0, 0,
      [⟨1, .command [7]⟩, ⟨1, .configuration ⟨[⟨1⟩, ⟨2⟩], some [⟨1⟩, ⟨2⟩, ⟨3⟩]⟩⟩,
        ⟨2, .command [8]⟩], 2⟩),
    .tick 9, .tick 9]

theorem follower_compacts_unseen : ∃ start node compacted batches effects,
    new ⟨2⟩ [⟨1⟩, ⟨2⟩, ⟨3⟩] 2 1 = .ok start ∧
      start.performAll [.receive ⟨1⟩ (.appendEntries ⟨1, ⟨1⟩, 0, 0,
        [⟨1, .command [7]⟩, ⟨1, .configuration ⟨[⟨1⟩, ⟨2⟩], some [⟨1⟩, ⟨2⟩, ⟨3⟩]⟩⟩,
          ⟨1, .command [9]⟩], 2⟩)] = some (node, batches) ∧
      node.compact 2 [5] = some (.ok (compacted, effects)) ∧
      Indistinguishable 2 (node.performAll heardAfterwards)
        (compacted.performAll heardAfterwards) := by
  obtain ⟨start, node, batches, hnew, hrun, hrole, habove, hcommitted, hsome, hrequest⟩ :=
    performAll_of_check ⟨2⟩ [⟨1⟩, ⟨2⟩, ⟨3⟩] 2 1 [.receive ⟨1⟩ (.appendEntries ⟨1, ⟨1⟩, 0, 0,
        [⟨1, .command [7]⟩, ⟨1, .configuration ⟨[⟨1⟩, ⟨2⟩], some [⟨1⟩, ⟨2⟩, ⟨3⟩]⟩⟩,
          ⟨1, .command [9]⟩], 2⟩)]
      (fun node => node.role ≠ .leader ∧ node.snapshot.lastIncludedIndex < 2 ∧
        2 ≤ node.commitIndex ∧ ((node.compact 2 [5]).bind Except.toOption).isSome = true ∧
        ∀ request ∈ heardAfterwards, node.Undisturbing request)
      (by decide +kernel)
  obtain ⟨⟨compacted, effects⟩, hcompact⟩ := Option.isSome_iff_exists.mp hsome
  obtain ⟨answer, hanswer, hok⟩ := Option.bind_eq_some_iff.mp hcompact
  rw [ok_of_toOption hok] at hanswer
  exact ⟨start, node, compacted, batches, effects, hnew, hrun, hanswer,
    ((compaction_is_invisible (.new hnew) hrun).1 2 [5] compacted effects hrole habove
      hcommitted hanswer).2 heardAfterwards hrequest⟩

end Kurogane.Raft.Node
