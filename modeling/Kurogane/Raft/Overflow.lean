import Kurogane.Raft.WordTransitions

/-!
Where no counter overflows, the transitions over machine words are the ones over
numbers without a bound. Each function has two lemmas. `_exact`: without a bound it is
the function of the same name. `_narrows`: whatever it returns with overflow checks, it
returns over any arithmetic that agrees with the checked one where that has a result.
-/

namespace Kurogane.Raft

open Kurogane.Words

variable {first second : Arithmetic}

/-! ### The latest configuration -/

theorem latestConfigurationIn_offset (log : List LogEntry) (boundary : Nat) :
    latestConfigurationIn log boundary = (latestConfigurationOffset log).map
      (fun found => (found.1, boundary + found.2 + 1)) := by
  unfold latestConfigurationIn latestConfigurationOffset
  rw [List.map_findSome?]
  congr 1
  funext item
  obtain ⟨⟨term, payload⟩, offset⟩ := item
  cases payload <;> rfl

theorem latestConfigurationWith_exact (log : List LogEntry) (boundary : Nat) :
    latestConfigurationWith .exact log boundary =
      some (latestConfigurationIn log boundary) := by
  rw [latestConfigurationIn_offset, latestConfigurationWith]
  cases latestConfigurationOffset log <;> rfl

theorem latestConfigurationWith_narrows (h : first.Below second) (log : List LogEntry)
    (boundary : Nat) :
    Narrows (latestConfigurationWith first log boundary)
      (latestConfigurationWith second log boundary) := by
  unfold latestConfigurationWith
  cases latestConfigurationOffset log with
  | none => exact .refl _
  | some found =>
      exact .bind (h.add _ _) fun _ => .bind (h.add _ _) fun _ => .refl _

namespace Node

/-! ### Construction and accessors -/

theorem recoverWith_exact (id : NodeId) (peers : List NodeId)
    (electionTimeout heartbeatInterval : Nat) (hardState : HardState)
    (log : List LogEntry) (snapshot : Snapshot) (learners : List NodeId) :
    recoverWith .exact id peers electionTimeout heartbeatInterval hardState log
        snapshot learners =
      some (recover id peers electionTimeout heartbeatInterval hardState log
        snapshot learners) := by
  unfold recoverWith recover
  rw [latestConfigurationWith_exact]
  split
  · rfl
  split
  · rfl
  split
  · rfl
  split
  · rfl
  split
  · rfl
  split <;> rfl

theorem recoverWith_narrows (h : first.Below second) (id : NodeId) (peers : List NodeId)
    (electionTimeout heartbeatInterval : Nat) (hardState : HardState)
    (log : List LogEntry) (snapshot : Snapshot) (learners : List NodeId) :
    Narrows
      (recoverWith first id peers electionTimeout heartbeatInterval hardState log
        snapshot learners)
      (recoverWith second id peers electionTimeout heartbeatInterval hardState log
        snapshot learners) :=
  .ite (.refl _) (.ite (.refl _) (.ite (.refl _) (.ite (.refl _) (.ite (.refl _)
    (.ite (.refl _) (.bind (latestConfigurationWith_narrows h _ _) fun _ => .refl _))))))

theorem recomputeConfigWith_exact (node : Node) :
    node.recomputeConfigWith .exact = some node.recomputeConfig := by
  unfold recomputeConfigWith
  rw [latestConfigurationWith_exact]
  rfl

theorem recomputeConfigWith_narrows (h : first.Below second) (node : Node) :
    Narrows (node.recomputeConfigWith first) (node.recomputeConfigWith second) :=
  .bind (latestConfigurationWith_narrows h _ _) fun _ => .refl _

theorem lastLogIndexWith_exact (node : Node) :
    node.lastLogIndexWith .exact = some node.lastLogIndex := rfl

theorem lastLogIndexWith_narrows (h : first.Below second) (node : Node) :
    Narrows (node.lastLogIndexWith first) (node.lastLogIndexWith second) :=
  h.add _ _

theorem vecIndexWith_exact (node : Node) (index : Nat) :
    node.vecIndexWith .exact index = some (node.vecIndex index) := rfl

theorem vecIndexWith_narrows (h : first.Below second) (node : Node) (index : Nat) :
    Narrows (node.vecIndexWith first index) (node.vecIndexWith second index) :=
  .bind (h.sub _ _) fun _ => h.sub _ _

theorem entryAtWith_exact (node : Node) (index : Nat) :
    node.entryAtWith .exact index = some (node.entryAt index) := by
  unfold entryAtWith entryAt
  split <;> rfl

theorem entryAtWith_narrows (h : first.Below second) (node : Node) (index : Nat) :
    Narrows (node.entryAtWith first index) (node.entryAtWith second index) :=
  .ite (.refl _) (.bind (vecIndexWith_narrows h node index) fun _ => .refl _)

theorem termAtWith_exact (node : Node) (index : Nat) :
    node.termAtWith .exact index = some (node.termAt index) := by
  unfold termAtWith termAt
  rw [entryAtWith_exact]
  split
  · rfl
  split
  · rfl
  split <;> rfl

theorem termAtWith_narrows (h : first.Below second) (node : Node) (index : Nat) :
    Narrows (node.termAtWith first index) (node.termAtWith second index) :=
  .ite (.refl _) (.ite (.refl _) (.ite (.refl _)
    (.bind (entryAtWith_narrows h node index) fun _ => .refl _)))

theorem entriesFromWith_exact (node : Node) (index : Nat) :
    node.entriesFromWith .exact index = node.entriesFrom index := rfl

theorem entriesFromWith_narrows (h : first.Below second) (node : Node) (index : Nat) :
    Narrows (node.entriesFromWith first index) (node.entriesFromWith second index) :=
  .bind (vecIndexWith_narrows h node index) fun _ => .refl _

/-! ### Replication and ticks -/

theorem replicateToWith_exact (node : Node) (peer : NodeId) :
    node.replicateToWith .exact peer = node.replicateTo peer := by
  unfold replicateToWith replicateTo
  refine congrArg (Option.bind _) (funext fun nextIndex => ?_)
  split
  · rfl
  · show (node.termAtWith .exact (nextIndex - 1)).bind _ = _
    rw [termAtWith_exact]
    rfl

theorem replicateToWith_narrows (h : first.Below second) (node : Node) (peer : NodeId) :
    Narrows (node.replicateToWith first peer) (node.replicateToWith second peer) :=
  .bind (.refl _) fun _ => .ite (.refl _) (.bind (h.sub _ _) fun _ =>
    .bind (termAtWith_narrows h node _) fun _ =>
      .bind (entriesFromWith_narrows h node _) fun _ => .refl _)

theorem broadcastReplicationWith_exact (node : Node) :
    node.broadcastReplicationWith .exact = node.broadcastReplication :=
  congrArg (List.mapM · _) (funext node.replicateToWith_exact)

theorem broadcastReplicationWith_narrows (h : first.Below second) (node : Node) :
    Narrows (node.broadcastReplicationWith first)
      (node.broadcastReplicationWith second) :=
  .mapM (replicateToWith_narrows h node) _

theorem becomeLeaderWith_exact (node : Node) :
    node.becomeLeaderWith .exact = node.becomeLeader := by
  unfold becomeLeaderWith becomeLeader
  rw [lastLogIndexWith_exact]
  simp only [broadcastReplicationWith_exact]
  rfl

theorem becomeLeaderWith_narrows (h : first.Below second) (node : Node) :
    Narrows (node.becomeLeaderWith first) (node.becomeLeaderWith second) :=
  .bind (lastLogIndexWith_narrows h node) fun _ => .bind (h.add _ _) fun _ =>
    .bind (broadcastReplicationWith_narrows h _) fun _ => .refl _

theorem onLeaderTickWith_exact (node : Node) :
    node.onLeaderTickWith .exact = node.onLeaderTick := by
  unfold onLeaderTickWith onLeaderTick
  simp only [broadcastReplicationWith_exact]
  rfl

theorem onLeaderTickWith_narrows (h : first.Below second) (node : Node) :
    Narrows (node.onLeaderTickWith first) (node.onLeaderTickWith second) :=
  .bind (h.add _ _) fun _ => .bind (h.add _ _) fun _ => .ite (.refl _)
    (.bind (broadcastReplicationWith_narrows h _) fun _ => .refl _)

theorem campaignWith_exact (node : Node) (nextTimeout : Nat) :
    node.campaignWith .exact nextTimeout = some (node.campaign nextTimeout) := rfl

theorem campaignWith_narrows (h : first.Below second) (node : Node) (nextTimeout : Nat) :
    Narrows (node.campaignWith first nextTimeout)
      (node.campaignWith second nextTimeout) :=
  .bind (h.add _ _) fun _ => .refl _

theorem requestVotesWith_exact (node : Node) :
    node.requestVotesWith .exact = some node.requestVotes :=
  List.mapM_pure

theorem requestVotesWith_narrows (h : first.Below second) (node : Node) :
    Narrows (node.requestVotesWith first) (node.requestVotesWith second) :=
  .mapM (fun _ => .bind (lastLogIndexWith_narrows h node) fun _ => .refl _) _

theorem startElectionWith_exact (node : Node) (nextTimeout : Nat) :
    node.startElectionWith .exact nextTimeout = node.startElection nextTimeout := by
  unfold startElectionWith startElection
  rw [campaignWith_exact]
  simp only [becomeLeaderWith_exact, requestVotesWith_exact]
  rfl

theorem startElectionWith_narrows (h : first.Below second) (node : Node)
    (nextTimeout : Nat) :
    Narrows (node.startElectionWith first nextTimeout)
      (node.startElectionWith second nextTimeout) :=
  .ite (.refl _) (.bind (campaignWith_narrows h node nextTimeout) fun _ =>
    .ite (.bind (becomeLeaderWith_narrows h _) fun _ => .refl _)
      (.bind (requestVotesWith_narrows h _) fun _ => .refl _))

theorem onTickWith_exact (node : Node) (nextTimeout : Nat) :
    node.onTickWith .exact nextTimeout = node.onTick nextTimeout := by
  unfold onTickWith onTick
  rw [onLeaderTickWith_exact]
  simp only [startElectionWith_exact]
  rfl

theorem onTickWith_narrows (h : first.Below second) (node : Node) (nextTimeout : Nat) :
    Narrows (node.onTickWith first nextTimeout) (node.onTickWith second nextTimeout) :=
  .ite (onLeaderTickWith_narrows h node) (.bind (h.add _ _) fun _ =>
    .bind (h.add _ _) fun _ =>
      .ite (.refl _) (startElectionWith_narrows h _ nextTimeout))

/-! ### Votes -/

theorem logIsUpToDateWith_narrows (h : first.Below second) (node : Node)
    (request : RequestVote) :
    Narrows (node.logIsUpToDateWith first request)
      (node.logIsUpToDateWith second request) :=
  .bind (lastLogIndexWith_narrows h node) fun _ => .refl _

theorem onRequestVoteWith_exact (node : Node) (sender : NodeId)
    (request : RequestVote) :
    node.onRequestVoteWith .exact sender request =
      node.onRequestVote sender request := rfl

theorem onRequestVoteWith_narrows (h : first.Below second) (node : Node)
    (sender : NodeId) (request : RequestVote) :
    Narrows (node.onRequestVoteWith first sender request)
      (node.onRequestVoteWith second sender request) :=
  .ite (.refl _) (.ite (.refl _) (.ite (.refl _)
    (.bind (logIsUpToDateWith_narrows h _ request) fun _ => .refl _)))

theorem onRequestVoteResponseWith_exact (node : Node) (sender : NodeId)
    (response : RequestVoteResponse) :
    node.onRequestVoteResponseWith .exact sender response =
      node.onRequestVoteResponse sender response := by
  unfold onRequestVoteResponseWith onRequestVoteResponse
  simp only [becomeLeaderWith_exact]

theorem onRequestVoteResponseWith_narrows (h : first.Below second) (node : Node)
    (sender : NodeId) (response : RequestVoteResponse) :
    Narrows (node.onRequestVoteResponseWith first sender response)
      (node.onRequestVoteResponseWith second sender response) :=
  .ite (.refl _) (.ite (.refl _)
    (.ite (.ite (becomeLeaderWith_narrows h _) (.refl _)) (.refl _)))

/-! ### Entries and snapshots of a leader -/

theorem truncateWith_narrows (h : first.Below second) (node : Node) (index : Nat) :
    Narrows (node.truncateWith first index) (node.truncateWith second index) :=
  .bind (vecIndexWith_narrows h node index) fun _ => .refl _

theorem mergeEntriesWith_exact (prevLogIndex : Nat) (entries : List LogEntry) :
    ∀ (node : Node) (changedFrom : Option Nat) (offset : Nat),
      node.mergeEntriesWith .exact changedFrom prevLogIndex offset entries =
        some (node.mergeEntries changedFrom (prevLogIndex + offset + 1) entries) := by
  induction entries with
  | nil => exact fun _ _ _ => rfl
  | cons entry rest ih =>
      intro node changedFrom offset
      have hnext : prevLogIndex + (offset + 1) + 1 = prevLogIndex + offset + 1 + 1 := by
        omega
      rw [mergeEntriesWith, mergeEntries]
      show (if _ then _ else _) = _
      rw [termAtWith_exact]
      split
      · rw [ih, hnext]
      · cases node.termAt (prevLogIndex + offset + 1) with
        | none => exact (ih _ _ _).trans (by rw [hnext])
        | some existingTerm =>
            dsimp only
            show (if _ then _ else _) = _
            split
            · rw [ih, hnext]
            · rw [← hnext]
              exact ih _ _ _

theorem mergeEntriesWith_narrows (h : first.Below second) (prevLogIndex : Nat)
    (entries : List LogEntry) :
    ∀ (node : Node) (changedFrom : Option Nat) (offset : Nat),
      Narrows (node.mergeEntriesWith first changedFrom prevLogIndex offset entries)
        (node.mergeEntriesWith second changedFrom prevLogIndex offset entries) := by
  induction entries with
  | nil => exact fun _ _ _ => .refl _
  | cons entry rest ih =>
      intro node changedFrom offset
      refine .bind (h.add _ _) fun before => .bind (h.add _ _) fun index =>
        .ite (ih _ _ _) (.bind (termAtWith_narrows h node index) fun term => ?_)
      cases term with
      | none => exact ih _ _ _
      | some existingTerm =>
          exact .ite (ih _ _ _) (.bind (truncateWith_narrows h node index) fun _ =>
            ih _ _ _)

theorem prevLogSatisfiedWith_exact (node : Node) (request : AppendEntries) :
    node.prevLogSatisfiedWith .exact request = some (node.prevLogSatisfied request) := by
  unfold prevLogSatisfiedWith prevLogSatisfied
  rw [termAtWith_exact]
  split
  · rename_i hlow
    rw [decide_eq_true hlow, Bool.true_or]
  · rename_i hhigh
    rw [decide_eq_false hhigh, Bool.false_or]
    rfl

theorem prevLogSatisfiedWith_narrows (h : first.Below second) (node : Node)
    (request : AppendEntries) :
    Narrows (node.prevLogSatisfiedWith first request)
      (node.prevLogSatisfiedWith second request) :=
  .ite (.refl _) (.bind (termAtWith_narrows h node _) fun _ => .refl _)

theorem followCommitWith_exact (node : Node) (leaderCommit : Nat) :
    node.followCommitWith .exact leaderCommit = some (node.followCommit leaderCommit) := by
  unfold followCommitWith followCommit
  split <;> rfl

theorem followCommitWith_narrows (h : first.Below second) (node : Node)
    (leaderCommit : Nat) :
    Narrows (node.followCommitWith first leaderCommit)
      (node.followCommitWith second leaderCommit) :=
  .ite (.bind (lastLogIndexWith_narrows h node) fun _ => .refl _) (.refl _)

theorem persistChangedWith_exact (node : Node) (changedFrom : Option Nat) :
    node.persistChangedWith .exact changedFrom = node.persistChanged changedFrom := by
  cases changedFrom <;> rfl

theorem persistChangedWith_narrows (h : first.Below second) (node : Node)
    (changedFrom : Option Nat) :
    Narrows (node.persistChangedWith first changedFrom)
      (node.persistChangedWith second changedFrom) := by
  cases changedFrom with
  | none => exact .refl _
  | some fromIndex =>
      exact .bind (entriesFromWith_narrows h node fromIndex) fun _ => .refl _

theorem recomputeChangedWith_exact (node : Node) (changedFrom : Option Nat) :
    node.recomputeChangedWith .exact changedFrom =
      some (if changedFrom.isSome then node.recomputeConfig else node) := by
  unfold recomputeChangedWith
  rw [recomputeConfigWith_exact]
  split <;> rfl

theorem recomputeChangedWith_narrows (h : first.Below second) (node : Node)
    (changedFrom : Option Nat) :
    Narrows (node.recomputeChangedWith first changedFrom)
      (node.recomputeChangedWith second changedFrom) :=
  .ite (recomputeConfigWith_narrows h node) (.refl _)

theorem onAppendEntriesWith_exact (node : Node) (sender : NodeId)
    (request : AppendEntries) :
    node.onAppendEntriesWith .exact sender request =
      node.onAppendEntries sender request := by
  unfold onAppendEntriesWith onAppendEntries
  simp only [prevLogSatisfiedWith_exact, mergeEntriesWith_exact,
    recomputeChangedWith_exact, followCommitWith_exact, persistChangedWith_exact,
    Nat.add_zero, Option.bind_eq_bind, Option.bind_some]
  rfl

theorem onAppendEntriesWith_narrows (h : first.Below second) (node : Node)
    (sender : NodeId) (request : AppendEntries) :
    Narrows (node.onAppendEntriesWith first sender request)
      (node.onAppendEntriesWith second sender request) :=
  .ite (.refl _) (.bind (prevLogSatisfiedWith_narrows h _ request) fun _ =>
    .ite (.refl _) (.bind (mergeEntriesWith_narrows h _ _ _ _ _) fun _ =>
      .bind (recomputeChangedWith_narrows h _ _) fun _ =>
        .bind (followCommitWith_narrows h _ _) fun _ => .bind (h.add _ _) fun _ =>
          .bind (persistChangedWith_narrows h _ _) fun _ => .refl _))

theorem installWith_exact (node : Node) (request : InstallSnapshot) :
    node.installWith .exact request = some (node.install request) :=
  recomputeConfigWith_exact _

theorem installWith_narrows (h : first.Below second) (node : Node)
    (request : InstallSnapshot) :
    Narrows (node.installWith first request) (node.installWith second request) :=
  recomputeConfigWith_narrows h _

theorem alreadyCoveredWith_exact (node : Node) (request : InstallSnapshot) :
    node.alreadyCoveredWith .exact request = some (node.alreadyCovered request) := by
  unfold alreadyCoveredWith
  rw [termAtWith_exact]
  rfl

theorem alreadyCoveredWith_narrows (h : first.Below second) (node : Node)
    (request : InstallSnapshot) :
    Narrows (node.alreadyCoveredWith first request)
      (node.alreadyCoveredWith second request) :=
  .bind (termAtWith_narrows h node _) fun _ => .refl _

theorem onInstallSnapshotWith_exact (node : Node) (sender : NodeId)
    (request : InstallSnapshot) :
    node.onInstallSnapshotWith .exact sender request =
      node.onInstallSnapshot sender request := by
  unfold onInstallSnapshotWith onInstallSnapshot
  simp only [alreadyCoveredWith_exact, installWith_exact, Option.bind_eq_bind,
    Option.bind_some]
  rfl

theorem onInstallSnapshotWith_narrows (h : first.Below second) (node : Node)
    (sender : NodeId) (request : InstallSnapshot) :
    Narrows (node.onInstallSnapshotWith first sender request)
      (node.onInstallSnapshotWith second sender request) :=
  .ite (.refl _) (.bind (alreadyCoveredWith_narrows h _ request) fun _ =>
    .ite (.refl _) (.bind (installWith_narrows h _ request) fun _ =>
      .bind (h.add _ _) fun _ => .refl _))

/-! ### Commitment -/

theorem matchOfWith_exact (node : Node) (peer : NodeId) :
    node.matchOfWith .exact peer = some (node.matchOf peer) := by
  unfold matchOfWith matchOf
  split <;> rfl

theorem matchOfWith_narrows (h : first.Below second) (node : Node) (peer : NodeId) :
    Narrows (node.matchOfWith first peer) (node.matchOfWith second peer) :=
  .ite (lastLogIndexWith_narrows h node) (.refl _)

theorem majorityIndexWith_exact (node : Node) (voters : List NodeId) :
    node.majorityIndexWith .exact voters = node.majorityIndex voters := by
  have hmatches : voters.mapM (node.matchOfWith .exact) =
      some (voters.map node.matchOf) := by
    rw [funext node.matchOfWith_exact]
    exact List.mapM_pure
  unfold majorityIndexWith majorityIndex
  rw [hmatches]
  rfl

theorem majorityIndexWith_narrows (h : first.Below second) (node : Node)
    (voters : List NodeId) :
    Narrows (node.majorityIndexWith first voters)
      (node.majorityIndexWith second voters) :=
  .ite (.refl _) (.bind (.mapM (matchOfWith_narrows h node) voters) fun _ => .refl _)

theorem commitCandidateWith_exact (node : Node) :
    node.commitCandidateWith .exact = node.commitCandidate := by
  have hmajority : node.majorityIndexWith .exact = node.majorityIndex :=
    funext node.majorityIndexWith_exact
  unfold commitCandidateWith
  rw [hmajority]
  rfl

theorem commitCandidateWith_narrows (h : first.Below second) (node : Node) :
    Narrows (node.commitCandidateWith first) (node.commitCandidateWith second) := by
  refine .bind (majorityIndexWith_narrows h node _) fun newCandidate => ?_
  cases node.currentConfig.oldVoters with
  | none => exact .refl _
  | some oldVoters =>
      exact .bind (majorityIndexWith_narrows h node oldVoters) fun _ => .refl _

theorem commitToWith_exact (node : Node) (candidate : Nat) :
    node.commitToWith .exact candidate = some (node.commitTo candidate) := by
  unfold commitToWith commitTo
  rw [termAtWith_exact]
  by_cases hhigher : node.commitIndex < candidate
  · by_cases hterm : node.termAt candidate = some node.currentTerm
    · simp [hhigher, hterm]
    · simp [hhigher, hterm]
  · simp [hhigher]

theorem commitToWith_narrows (h : first.Below second) (node : Node) (candidate : Nat) :
    Narrows (node.commitToWith first candidate) (node.commitToWith second candidate) :=
  .ite (.bind (termAtWith_narrows h node candidate) fun _ => .refl _) (.refl _)

/-- One pass: commit, and if that commits a joint configuration, append its follow-up
and make another. -/
theorem advanceCommitIndexWith_eq (arith : Arithmetic) (node : Node) :
    node.advanceCommitIndexWith arith = (do
      let candidate ← node.commitCandidateWith arith
      let committed ← node.commitToWith arith candidate
      if committed.jointCommitted then
        let plain ← (committed.push committed.followUp).recomputeConfigWith arith
        let index ← plain.lastLogIndexWith arith
        let (last, effects) ← plain.advanceCommitIndexWith arith
        some (last.retireIfExcluded,
          .persistLog index [committed.followUp] :: effects)
      else
        some (committed.retireIfExcluded, [])) := by
  rw [advanceCommitIndexWith]
  cases node.commitCandidateWith arith with
  | none => rfl
  | some candidate =>
      dsimp only [Option.bind_eq_bind, Option.bind_some]
      split
      · rename_i hcommitted
        rw [hcommitted]
        rfl
      · rename_i committed hcommitted
        rw [hcommitted]
        dsimp only [Option.bind_some]
        split
        · split
          · rename_i hplain
            rw [hplain]
            rfl
          · rename_i plain hplain
            rw [hplain]
            dsimp only [Option.bind_some]
            cases plain.lastLogIndexWith arith with
            | none => rfl
            | some index =>
                dsimp only [Option.bind_some]
                cases plain.advanceCommitIndexWith arith <;> rfl
        · rfl

theorem not_jointCommitted_of_plain {committed : Node}
    (hplain : committed.currentConfig.oldVoters = none) :
    ¬ committed.jointCommitted = true := by
  simp [jointCommitted, hplain]

/-- There is no second pass over a plain configuration. -/
theorem advanceCommitIndexWith_plain (arith : Arithmetic) {node : Node}
    (hplain : node.currentConfig.oldVoters = none) :
    node.advanceCommitIndexWith arith = (do
      let candidate ← node.commitCandidateWith arith
      let committed ← node.commitToWith arith candidate
      some (committed.retireIfExcluded, [])) := by
  rw [advanceCommitIndexWith_eq]
  cases node.commitCandidateWith arith with
  | none => rfl
  | some candidate =>
      dsimp only [Option.bind_eq_bind, Option.bind_some]
      cases hcommitted : node.commitToWith arith candidate with
      | none => rfl
      | some committed =>
          dsimp only [Option.bind_some]
          rw [if_neg (not_jointCommitted_of_plain
            (commitToWith_currentConfig hcommitted ▸ hplain))]

theorem advanceCommitIndexWith_narrows (h : first.Below second) (node : Node) :
    Narrows (node.advanceCommitIndexWith first) (node.advanceCommitIndexWith second) := by
  have hplain : ∀ plain : Node, plain.currentConfig.oldVoters = none →
      Narrows (plain.advanceCommitIndexWith first)
        (plain.advanceCommitIndexWith second) := by
    intro plain hplain
    rw [advanceCommitIndexWith_plain first hplain, advanceCommitIndexWith_plain second hplain]
    exact .bind (commitCandidateWith_narrows h plain) fun candidate =>
      .bind (commitToWith_narrows h plain candidate) fun _ => .refl _
  rw [advanceCommitIndexWith_eq first, advanceCommitIndexWith_eq second]
  refine .bind (commitCandidateWith_narrows h node) fun candidate =>
    .bind (commitToWith_narrows h node candidate) fun committed => .ite ?_ (.refl _)
  refine .bind_of (recomputeConfigWith_narrows h _) fun plain hrecomputed =>
    .bind (lastLogIndexWith_narrows h plain) fun index =>
      .bind (hplain plain ?_) fun _ => .refl _
  rw [recomputeConfigWith_push_followUp hrecomputed]

theorem advanceCommitIndexWith_exact (node : Node) :
    node.advanceCommitIndexWith .exact = node.advanceCommitIndex := by
  have hplain : ∀ plain : Node, plain.currentConfig.oldVoters = none →
      plain.advanceCommitIndexWith .exact = plain.advanceCommitIndex := by
    intro plain hplain
    rw [advanceCommitIndexWith_plain .exact hplain, advanceCommitIndex,
      commitCandidateWith_exact]
    cases plain.commitCandidate with
    | none => rfl
    | some candidate =>
        dsimp only [Option.bind_eq_bind, Option.bind_some]
        rw [commitToWith_exact, dif_neg (not_jointCommitted_of_plain
          (commitTo_currentConfig plain candidate ▸ hplain))]
        rfl
  rw [advanceCommitIndexWith_eq, advanceCommitIndex, commitCandidateWith_exact]
  cases node.commitCandidate with
  | none => rfl
  | some candidate =>
      dsimp only [Option.bind_eq_bind, Option.bind_some]
      rw [commitToWith_exact, Option.bind_some]
      by_cases hjoint : (node.commitTo candidate).jointCommitted = true
      · rw [if_pos hjoint, dif_pos hjoint, recomputeConfigWith_exact, Option.bind_some,
          lastLogIndexWith_exact, Option.bind_some,
          hplain _ (by rw [recomputeConfig_push_followUp])]
        cases Node.advanceCommitIndex _ <;> rfl
      · rw [if_neg hjoint, dif_neg hjoint]

theorem continueReplicationWith_exact (node : Node) (peer : NodeId) :
    node.continueReplicationWith .exact peer = node.continueReplication peer := by
  unfold continueReplicationWith continueReplication
  rw [lastLogIndexWith_exact]
  simp only [replicateToWith_exact]
  rfl

theorem continueReplicationWith_narrows (h : first.Below second) (node : Node)
    (peer : NodeId) :
    Narrows (node.continueReplicationWith first peer)
      (node.continueReplicationWith second peer) :=
  .ite (.bind (.refl _) fun _ => .bind (lastLogIndexWith_narrows h node) fun _ =>
    .ite (.bind (replicateToWith_narrows h node peer) fun _ => .refl _) (.refl _))
    (.refl _)

theorem trackProgressWith_exact (node : Node) (peer : NodeId) (matchIndex : Nat) :
    node.trackProgressWith .exact peer matchIndex =
      some (node.trackProgress peer matchIndex) := rfl

theorem trackProgressWith_narrows (h : first.Below second) (node : Node)
    (peer : NodeId) (matchIndex : Nat) :
    Narrows (node.trackProgressWith first peer matchIndex)
      (node.trackProgressWith second peer matchIndex) :=
  .bind (h.add _ _) fun _ => .refl _

theorem onInstallSnapshotResponseWith_exact (node : Node) (sender : NodeId)
    (response : InstallSnapshotResponse) :
    node.onInstallSnapshotResponseWith .exact sender response =
      node.onInstallSnapshotResponse sender response := by
  unfold onInstallSnapshotResponseWith onInstallSnapshotResponse
  simp only [trackProgressWith_exact, advanceCommitIndexWith_exact,
    continueReplicationWith_exact, Option.bind_eq_bind, Option.bind_some]

theorem onInstallSnapshotResponseWith_narrows (h : first.Below second) (node : Node)
    (sender : NodeId) (response : InstallSnapshotResponse) :
    Narrows (node.onInstallSnapshotResponseWith first sender response)
      (node.onInstallSnapshotResponseWith second sender response) :=
  .ite (.refl _) (.ite (.refl _) (.bind (.refl _) fun _ =>
    .bind (trackProgressWith_narrows h node sender _) fun _ =>
      .bind (advanceCommitIndexWith_narrows h _) fun _ =>
        .bind (continueReplicationWith_narrows h _ sender) fun _ => .refl _))

theorem onAppendEntriesResponseWith_exact (node : Node) (sender : NodeId)
    (response : AppendEntriesResponse) :
    node.onAppendEntriesResponseWith .exact sender response =
      node.onAppendEntriesResponse sender response := by
  unfold onAppendEntriesResponseWith onAppendEntriesResponse
  simp only [trackProgressWith_exact, advanceCommitIndexWith_exact,
    continueReplicationWith_exact, Option.bind_eq_bind, Option.bind_some]

theorem onAppendEntriesResponseWith_narrows (h : first.Below second) (node : Node)
    (sender : NodeId) (response : AppendEntriesResponse) :
    Narrows (node.onAppendEntriesResponseWith first sender response)
      (node.onAppendEntriesResponseWith second sender response) :=
  .ite (.refl _) (.ite (.refl _) (.ite
    (.bind (.refl _) fun _ => .bind (trackProgressWith_narrows h node sender _) fun _ =>
      .bind (advanceCommitIndexWith_narrows h _) fun _ =>
        .bind (continueReplicationWith_narrows h _ sender) fun _ => .refl _)
    (.bind (.refl _) fun _ =>
      .bind (continueReplicationWith_narrows h _ sender) fun _ => .refl _)))

/-! ### Requests -/

theorem stepWith_exact (node : Node) (event : Event) :
    node.stepWith .exact event = node.step event := by
  cases event with
  | tick nextTimeout => exact node.onTickWith_exact nextTimeout
  | step sender message =>
      cases message <;>
        simp only [stepWith, step, onRequestVoteWith_exact, onRequestVoteResponseWith_exact,
          onAppendEntriesWith_exact, onAppendEntriesResponseWith_exact,
          onInstallSnapshotWith_exact, onInstallSnapshotResponseWith_exact]

theorem stepWith_narrows (h : first.Below second) (node : Node) (event : Event) :
    Narrows (node.stepWith first event) (node.stepWith second event) := by
  cases event with
  | tick nextTimeout => exact onTickWith_narrows h node nextTimeout
  | step sender message =>
      cases message with
      | requestVote request =>
          exact .ite (.refl _) (.ite (.refl _) (onRequestVoteWith_narrows h node sender _))
      | requestVoteResponse response =>
          exact .ite (.refl _) (onRequestVoteResponseWith_narrows h node sender _)
      | appendEntries request =>
          exact .ite (.refl _) (onAppendEntriesWith_narrows h node sender _)
      | appendEntriesResponse response =>
          exact .ite (.refl _) (onAppendEntriesResponseWith_narrows h node sender _)
      | installSnapshot request =>
          exact .ite (.refl _) (onInstallSnapshotWith_narrows h node sender _)
      | installSnapshotResponse response =>
          exact .ite (.refl _) (onInstallSnapshotResponseWith_narrows h node sender _)

theorem appendOwnWith_exact (node : Node) (entry : LogEntry) :
    node.appendOwnWith .exact entry = node.appendOwn entry := by
  unfold appendOwnWith appendOwn
  simp only [recomputeConfigWith_exact, lastLogIndexWith_exact,
    advanceCommitIndexWith_exact, Option.bind_eq_bind, Option.bind_some]

theorem appendOwnWith_narrows (h : first.Below second) (node : Node) (entry : LogEntry) :
    Narrows (node.appendOwnWith first entry) (node.appendOwnWith second entry) :=
  .bind (recomputeConfigWith_narrows h _) fun _ =>
    .bind (lastLogIndexWith_narrows h _) fun _ =>
      .bind (advanceCommitIndexWith_narrows h _) fun _ => .refl _

theorem proposeWith_exact (node : Node) (command : Bytes) :
    node.proposeWith .exact command = node.propose command := by
  unfold proposeWith propose
  rw [appendOwnWith_exact]

theorem proposeWith_narrows (h : first.Below second) (node : Node) (command : Bytes) :
    Narrows (node.proposeWith first command) (node.proposeWith second command) :=
  .ite (.refl _) (.bind (appendOwnWith_narrows h node _) fun _ => .refl _)

theorem proposeConfigChangeWith_exact (node : Node) (newVoters : List NodeId) :
    node.proposeConfigChangeWith .exact newVoters =
      node.proposeConfigChange newVoters := by
  unfold proposeConfigChangeWith proposeConfigChange
  simp only [appendOwnWith_exact]

theorem proposeConfigChangeWith_narrows (h : first.Below second) (node : Node)
    (newVoters : List NodeId) :
    Narrows (node.proposeConfigChangeWith first newVoters)
      (node.proposeConfigChangeWith second newVoters) :=
  .ite (.refl _) (.bind (appendOwnWith_narrows h _ _) fun _ => .refl _)

theorem addLearnerWith_exact (node : Node) (id : NodeId) :
    node.addLearnerWith .exact id = some (node.addLearner id) := by
  unfold addLearnerWith addLearner
  split <;> rfl

theorem addLearnerWith_narrows (h : first.Below second) (node : Node) (id : NodeId) :
    Narrows (node.addLearnerWith first id) (node.addLearnerWith second id) :=
  .ite (.refl _) (.bind (lastLogIndexWith_narrows h node) fun _ =>
    .bind (h.add _ _) fun _ => .refl _)

theorem compactWith_exact (node : Node) (upToIndex : Nat) (snapshotData : Bytes) :
    node.compactWith .exact upToIndex snapshotData =
      node.compact upToIndex snapshotData := by
  unfold compactWith compact
  simp only [termAtWith_exact, vecIndexWith_exact, latestConfigurationWith_exact,
    recomputeConfigWith_exact, entriesFromWith_exact, Option.bind_eq_bind,
    Option.bind_some]
  rfl

theorem compactWith_narrows (h : first.Below second) (node : Node) (upToIndex : Nat)
    (snapshotData : Bytes) :
    Narrows (node.compactWith first upToIndex snapshotData)
      (node.compactWith second upToIndex snapshotData) :=
  .ite (.refl _) (.ite (.refl _) (.bind (termAtWith_narrows h node _) fun _ =>
    .bind (.refl _) fun _ => .bind (vecIndexWith_narrows h node _) fun _ =>
      .bind (latestConfigurationWith_narrows h _ _) fun _ =>
        .bind (recomputeConfigWith_narrows h _) fun _ => .bind (h.add _ _) fun _ =>
          .bind (entriesFromWith_narrows h _ _) fun _ => .refl _))

theorem performWith_exact (node : Node) (operation : Operation) :
    node.performWith .exact operation = node.perform operation := by
  cases operation with
  | tick nextTimeout => exact node.stepWith_exact (.tick nextTimeout)
  | receive sender message => exact node.stepWith_exact (.step sender message)
  | propose command =>
      rw [performWith, proposeWith_exact]
      rfl
  | proposeConfigChange newVoters =>
      rw [performWith, proposeConfigChangeWith_exact]
      rfl
  | addLearner id => exact node.addLearnerWith_exact id
  | removeLearner id => rfl
  | compact upToIndex snapshotData =>
      rw [performWith, compactWith_exact]
      rfl

theorem performWith_narrows (h : first.Below second) (node : Node)
    (operation : Operation) :
    Narrows (node.performWith first operation) (node.performWith second operation) := by
  cases operation with
  | tick nextTimeout => exact stepWith_narrows h node (.tick nextTimeout)
  | receive sender message => exact stepWith_narrows h node (.step sender message)
  | propose command => exact .bind (proposeWith_narrows h node command) fun _ => .refl _
  | proposeConfigChange newVoters =>
      exact .bind (proposeConfigChangeWith_narrows h node newVoters) fun _ => .refl _
  | addLearner id => exact addLearnerWith_narrows h node id
  | removeLearner id => exact .refl _
  | compact upToIndex snapshotData =>
      exact .bind (compactWith_narrows h node upToIndex snapshotData) fun _ => .refl _

theorem performAllWith_exact (operations : List Operation) :
    ∀ node : Node, node.performAllWith .exact operations =
      node.performAll operations := by
  induction operations with
  | nil => exact fun _ => rfl
  | cons operation rest ih =>
      intro node
      rw [performAllWith, performAll, performWith_exact]
      simp only [ih]

theorem performAllWith_narrows (h : first.Below second) (operations : List Operation) :
    ∀ node : Node, Narrows (node.performAllWith first operations)
      (node.performAllWith second operations) := by
  induction operations with
  | nil => exact fun _ => .refl _
  | cons operation rest ih =>
      exact fun node => .bind (performWith_narrows h node operation) fun _ =>
        .bind (ih _) fun _ => .refl _

/-! ### Builds -/

end Node

/-- A computation in which nothing overflows has in either build the result that it has
over numbers without a bound. `computed` is the computation over an arithmetic. -/
theorem result_of_inRange {α : Type} {computed : Arithmetic → Option α}
    (hnarrows : ∀ {first second : Arithmetic}, first.Below second →
      Narrows (computed first) (computed second)) {build : Build}
    (hrange : build = .release → (computed Build.debug.arithmetic).isSome = true)
    {result : α} (h : computed build.arithmetic = some result) :
    computed .exact = some result := by
  have hexact := hnarrows (Arithmetic.checked_below_exact (2 ^ 64))
  cases build with
  | debug => exact hexact result h
  | release =>
      obtain ⟨found, hfound⟩ := Option.isSome_iff_exists.mp (hrange rfl)
      have hsame := hnarrows (Arithmetic.checked_below_wrapping (2 ^ 64)) found hfound
      obtain rfl : found = result := Option.some.inj (hsame.symm.trans h)
      exact hexact found hfound

namespace Node

variable {node : Node}

/-- What a debug build carries through without a panic is what is carried out over
numbers without a bound. -/
theorem performWith_debug {operation : Operation} {result : Node × List Effect}
    (h : node.performWith Build.debug.arithmetic operation = some result) :
    node.perform operation = some result :=
  node.performWith_exact operation ▸
    performWith_narrows (Arithmetic.checked_below_exact _) node operation _ h

theorem performAllWith_of_inRange {build : Build} {operations : List Operation}
    {result : Node × List (List Effect)}
    (hrange : build = .release →
      (node.performAllWith Build.debug.arithmetic operations).isSome = true)
    (h : node.performAllWith build.arithmetic operations = some result) :
    node.performAll operations = some result :=
  performAllWith_exact operations node ▸ result_of_inRange
    (fun hbelow => performAllWith_narrows hbelow operations node) hrange h

theorem recoverWith_of_inRange {build : Build} {id : NodeId} {peers : List NodeId}
    {electionTimeout heartbeatInterval : Nat} {hardState : HardState}
    {log : List LogEntry} {snapshot : Snapshot} {learners : List NodeId}
    {recovered : Except ConfigError Node}
    (hrange : build = .release → (recoverWith Build.debug.arithmetic id peers
      electionTimeout heartbeatInterval hardState log snapshot learners).isSome = true)
    (h : recoverWith build.arithmetic id peers electionTimeout heartbeatInterval
      hardState log snapshot learners = some recovered) :
    recover id peers electionTimeout heartbeatInterval hardState log snapshot learners =
      recovered := by
  have hexact := result_of_inRange
    (fun hbelow => recoverWith_narrows hbelow id peers electionTimeout heartbeatInterval
      hardState log snapshot learners) hrange h
  rw [recoverWith_exact] at hexact
  exact Option.some.inj hexact

end Node

end Kurogane.Raft
