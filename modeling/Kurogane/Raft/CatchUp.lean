import Kurogane.Consensus.Rounds
import Kurogane.Raft.Redelivery
import Kurogane.Raft.Replicating

/-!
A leader that brings one peer up to date over a lossless link. Rejections take
`next_index` back one entry at a time, below the boundary to a snapshot, and the
first message the follower can take over brings it to the end of the log. The
snapshot alone may end the exchange before that.
-/

namespace Kurogane.Raft.Node

open Kurogane.Consensus

/-- The message a handler leaves to be sent last. -/
def lastMessage (effects : List Effect) : Option Message :=
  match effects.getLast? with
  | some (.send _ message) => some message
  | _ => none

/-- The leader's handlers for the answers to what it replicates. -/
def hear (node : Node) (peer : NodeId) : Message → Transition
  | .appendEntriesResponse response => node.onAppendEntriesResponse peer response
  | .installSnapshotResponse response => node.onInstallSnapshotResponse peer response
  | _ => none

/-- One round: what the leader owes `peer`, the follower's answer to it, and whether
the leader, having heard it, sends more. -/
def catchUpRound (peer : NodeId) : Node × Node → Option ((Node × Node) × Bool)
  | (leader, follower) => do
      let sent ← leader.replicateTo peer
      let request ← lastMessage [sent]
      let (follower, replies) ← follower.step (.step leader.id request)
      let reply ← lastMessage replies
      let (leader, effects) ← leader.hear peer reply
      some ((leader, follower), effects.any Effect.isSend)

/-- The entry that completes the change of membership under way, if one is. -/
def closing (node : Node) : List LogEntry :=
  if node.currentConfig.oldVoters.isSome then [node.followUp] else []

/-- The log can be continued after `index` as `whole` is. -/
def Joins (node : Node) (whole : List LogEntry) (index : Nat) : Prop :=
  index ≤ node.snapshot.lastIncludedIndex ∨ node.termAt index = termIn whole index

/-- A leader that replicates to `peer` and the follower on the other side. Its log
matches the leader's, also with the entry that completes a change under way. -/
structure Replicates (peer : NodeId) (whole : List LogEntry) (next matched : Nat)
    (leader follower : Node) : Prop where
  role : leader.role = .leader
  reads : leader.Reads whole
  countable : leader.currentConfig.Countable
  nextIndex : leader.nextIndex[peer]? = some next
  positive : 1 ≤ next
  within : next ≤ leader.lastLogIndex + 1
  matchIndex : leader.matchIndex[peer]? = some matched
  reached : matched ≤ leader.lastLogIndex
  term : follower.currentTerm ≤ leader.currentTerm
  snapshot : follower.SnapshotOf (whole ++ leader.closing)
  log : follower.Matches (whole ++ leader.closing)

variable {leader follower leader' follower' node node' : Node} {peer : NodeId}
  {whole : List LogEntry} {next matched index count : Nat} {effects : List Effect}

/-! ### The follower's side -/

theorem lastMessage_append (effects : List Effect) (receiver : NodeId)
    (message : Message) :
    lastMessage (effects ++ [.send receiver message]) = some message := by
  unfold lastMessage
  rw [List.getLast?_append]
  rfl

theorem Joins.congr (h : node.Joins whole index) (hlog : node'.log = node.log)
    (hsnapshot : node'.snapshot = node.snapshot) : node'.Joins whole index := by
  unfold Joins
  rw [termAt_congr hlog hsnapshot, hsnapshot]
  exact h

/-- Where the log can be continued, it agrees. -/
theorem Joins.agrees (h : node.Joins whole index) (hmatches : node.Matches whole)
    (hindex : index ≤ whole.length) : node.AgreesTo whole index := by
  by_cases hlow : index ≤ node.snapshot.lastIncludedIndex
  · intro position hposition hle
    omega
  · obtain ⟨entry, -, hterm⟩ := termIn_isSome whole (Nat.lt_of_le_of_lt (Nat.zero_le _)
      (Nat.not_le.mp hlow)) hindex
    exact hmatches index entry.term (Nat.not_le.mp hlow)
      ((h.resolve_left hlow).trans hterm) hterm

theorem AgreesTo.joins (h : node.AgreesTo whole index) : node.Joins whole index := by
  by_cases hlow : index ≤ node.snapshot.lastIncludedIndex
  · exact Or.inl hlow
  · refine Or.inr ?_
    rw [termAt_above (Nat.not_le.mp hlow), h index (Nat.not_le.mp hlow) le_rfl]
    unfold termIn
    rw [if_neg (by omega)]

/-- A log that can be continued late can be continued early. -/
theorem Joins.down (h : node.Joins whole index) (hmatches : node.Matches whole)
    (hindex : index ≤ whole.length) (hcount : count ≤ index) :
    node.Joins whole count :=
  ((h.agrees hmatches hindex).mono hcount).joins

/-- The check of a message cut from `whole` asks just that. -/
theorem prevLogSatisfied_iff {request : AppendEntries} (hslice : request.SliceOf whole) :
    node.prevLogSatisfied request = true ↔ node.Joins whole request.prevLogIndex := by
  unfold prevLogSatisfied Joins
  by_cases hpos : 0 < request.prevLogIndex
  · rw [hslice.prev hpos]
    simp only [Bool.or_eq_true, decide_eq_true_eq]
  · have hlow : request.prevLogIndex ≤ node.snapshot.lastIncludedIndex := by omega
    simp only [hlow, decide_true, Bool.true_or, true_or]

/-- What a follower is left with once the leader's snapshot has reached it. -/
theorem onInstallSnapshot_spec (request : InstallSnapshot) (sender : NodeId)
    (hcurrent : follower.currentTerm ≤ request.term) :
    ∃ follower' persists, follower.onInstallSnapshot sender request =
        some (follower', persists ++ [.send sender (.installSnapshotResponse
          ⟨request.term, request.lastIncludedIndex⟩)]) ∧
      follower'.currentTerm = request.term ∧
      ((follower.alreadyCovered request = true ∧ follower'.log = follower.log ∧
          follower'.snapshot = follower.snapshot) ∨
        (follower.alreadyCovered request = false ∧ follower'.log = [] ∧
          follower'.snapshot =
            ⟨request.lastIncludedIndex, request.lastIncludedTerm⟩)) := by
  obtain ⟨hlog, hsnapshot, -⟩ := follower.followLeader_log request.term
  have hterm := follower.followLeader_term hcurrent
  have hcovered : (follower.followLeader request.term).1.alreadyCovered request =
      follower.alreadyCovered request := by
    unfold alreadyCovered
    rw [termAt_congr hlog hsnapshot]
  unfold onInstallSnapshot
  rw [if_neg (Nat.not_lt.mpr hcurrent)]
  dsimp only
  rw [hcovered]
  cases follower.alreadyCovered request with
  | true =>
      refine ⟨_, (follower.followLeader request.term).2, ?_, hterm,
        Or.inl ⟨rfl, hlog, hsnapshot⟩⟩
      rw [snapshotReply, hterm]
      rfl
  | false =>
      refine ⟨(follower.followLeader request.term).1.install request,
        (follower.followLeader request.term).2 ++
          [.persistSnapshot request.lastIncludedIndex request.lastIncludedTerm
            request.data request.config,
          .persistLog (request.lastIncludedIndex + 1) []], ?_, ?_, ?_⟩
      · rw [List.append_assoc]
        have hreply : ((follower.followLeader request.term).1.install request).snapshotReply
            sender request.lastIncludedIndex = .send sender (.installSnapshotResponse
              ⟨request.term, request.lastIncludedIndex⟩) := by
          show Effect.send sender (.installSnapshotResponse
            ⟨(follower.followLeader request.term).1.currentTerm, _⟩) = _
          rw [hterm]
        rw [hreply]
        rfl
      · exact hterm
      · exact Or.inr ⟨rfl, rfl, rfl⟩

/-! ### The leader's side -/

/-- What both handlers do with an index the peer has reached. -/
def countProgress (node : Node) (peer : NodeId) (count : Nat) : Transition := do
  let (node, effects) ← (node.trackProgress peer count).advanceCommitIndex
  let more ← node.continueReplication peer
  some (node, effects ++ more)

/-- Advancing the commit index would complete the change under way. -/
def Completes (node : Node) : Prop :=
  ∃ candidate, node.commitCandidate = some candidate ∧
    (node.commitTo candidate).jointCommitted = true

/-- A leader that has counted `count` for `peer`, and stays one. -/
structure Counted (peer : NodeId) (count : Nat) (whole grown : List LogEntry)
    (node node' : Node) : Prop where
  reads : node'.Reads (whole ++ grown)
  closing : grown ++ node'.closing = node.closing
  term : node'.currentTerm = node.currentTerm
  snapshot : node'.snapshot = node.snapshot
  nextIndex : node'.nextIndex[peer]? = some (count + 1)
  matchIndex : node'.matchIndex[peer]? = some count
  countable : node'.currentConfig.Countable

theorem SnapshotOf.congr (h : node.SnapshotOf whole)
    (hsnapshot : node'.snapshot = node.snapshot) : node'.SnapshotOf whole := by
  constructor
  · rw [hsnapshot]
    exact h.within
  · rw [hsnapshot]
    exact h.term

theorem SnapshotOf.extend (h : node.SnapshotOf whole) (more : List LogEntry) :
    node.SnapshotOf (whole ++ more) := by
  have hwithin := h.within
  constructor
  · rw [List.length_append]
    omega
  · rw [termIn_append hwithin]
    exact h.term

theorem Reads.congr (h : node.Reads whole) (hlog : node'.log = node.log)
    (hsnapshot : node'.snapshot = node.snapshot) : node'.Reads whole := by
  refine ⟨h.toSnapshotOf.congr hsnapshot, ?_⟩
  rw [hlog, hsnapshot]
  exact h.log

theorem Reads.push (h : node.Reads whole) (entry : LogEntry)
    (hlog : node'.log = node.log ++ [entry]) (hsnapshot : node'.snapshot = node.snapshot) :
    node'.Reads (whole ++ [entry]) := by
  refine ⟨(h.toSnapshotOf.extend [entry]).congr hsnapshot, ?_⟩
  rw [hlog, hsnapshot, h.log, List.drop_append_of_le_length h.within]

theorem closing_congr (hterm : node'.currentTerm = node.currentTerm)
    (hconfig : node'.currentConfig = node.currentConfig) : node'.closing = node.closing := by
  unfold closing followUp
  rw [hterm, hconfig]

theorem commitCandidate_congr (hconfig : node'.currentConfig = node.currentConfig)
    (hmatch : ∀ voter, node'.matchOf voter = node.matchOf voter) :
    node'.commitCandidate = node.commitCandidate := by
  have hsame : node'.matchOf = node.matchOf := funext hmatch
  unfold commitCandidate majorityIndex
  rw [hconfig, hsame]

/-- Counting what is counted already completes nothing new. -/
theorem completes_congr (hconfig : node'.currentConfig = node.currentConfig)
    (hindex : node'.currentConfigIndex = node.currentConfigIndex)
    (hcommit : node'.commitIndex = node.commitIndex)
    (hterm : node'.currentTerm = node.currentTerm) (hlog : node'.log = node.log)
    (hsnapshot : node'.snapshot = node.snapshot)
    (hmatch : ∀ voter, node'.matchOf voter = node.matchOf voter) :
    node'.Completes ↔ node.Completes := by
  have hjoint : ∀ candidate, (node'.commitTo candidate).jointCommitted =
      (node.commitTo candidate).jointCommitted := by
    intro candidate
    unfold commitTo
    rw [hcommit, termAt_congr hlog hsnapshot, hterm]
    split <;> simp only [jointCommitted, hconfig, hindex, hcommit]
  unfold Completes
  rw [commitCandidate_congr hconfig hmatch]
  simp only [hjoint]

/-- Advancing the commit index leaves the log alone or adds the closing entry. -/
theorem advanceCommitIndex_counted (hreads : node.Reads whole)
    (hcountable : node.currentConfig.Countable)
    (hnext : node.nextIndex[peer]? = some (count + 1))
    (hmatch : node.matchIndex[peer]? = some count)
    (h : node.advanceCommitIndex = some (node', effects)) (hrole : node'.role = .leader) :
    ∃ grown, Counted peer count whole grown node node' ∧
      (grown = [] ↔ ¬ node.Completes) := by
  have hcarries := advanceCommitIndex_carries h hrole
  have hcountable' : node'.currentConfig.Countable := by
    rcases hcarries.config with hsame | hplain
    · rw [hsame]
      exact hcountable
    · rw [hplain]
      exact hcountable.plain
  obtain ⟨candidate, hcandidate, ⟨hopen, rfl, -⟩ | ⟨hjoint, last, rest, hrest, rfl, -⟩⟩ :=
    advanceCommitIndex_cases h
  · rw [retireIfExcluded_leader hrole] at hcarries hcountable' ⊢
    obtain ⟨-, -, hterm, -, hlog, hsnapshot⟩ := node.commitTo_keeps candidate
    refine ⟨[], ⟨?_, ?_, hterm, hsnapshot, ?_, ?_, hcountable'⟩, ?_⟩
    · rw [List.append_nil]
      exact hreads.congr hlog hsnapshot
    · exact closing_congr hterm (node.commitTo_currentConfig candidate)
    · rw [hcarries.next]
      exact hnext
    · rw [hcarries.matched]
      exact hmatch
    · refine ⟨fun _ => ?_, fun _ => rfl⟩
      rintro ⟨found, hfound, hcommitted⟩
      rw [hcandidate] at hfound
      cases hfound
      rw [hopen] at hcommitted
      cases hcommitted
  · obtain ⟨candidate', -, rfl, -⟩ := advanceCommitIndex_plain
      (by rw [recomputeConfig_push_followUp]) hrest
    rw [retireIfExcluded_leader hrole] at hrole hcarries hcountable' ⊢
    rw [retireIfExcluded_leader hrole] at hcarries hcountable' ⊢
    obtain ⟨-, -, hterm, -, hlog, hsnapshot⟩ := node.commitTo_keeps candidate
    obtain ⟨-, -, hterm', -, hlog', hsnapshot'⟩ := commitTo_keeps
      ((node.commitTo candidate).push (node.commitTo candidate).followUp).recomputeConfig
      candidate'
    have hfollowUp : (node.commitTo candidate).followUp = node.followUp := by
      unfold followUp
      rw [hterm, commitTo_currentConfig]
    have hisJoint : node.currentConfig.oldVoters.isSome = true := by
      unfold jointCommitted at hjoint
      rw [Bool.and_eq_true, commitTo_currentConfig] at hjoint
      exact hjoint.1
    refine ⟨[node.followUp], ⟨?_, ?_, hterm'.trans hterm, hsnapshot'.trans hsnapshot, ?_, ?_,
      hcountable'⟩, ?_⟩
    · apply hreads.push
      · rw [hlog', ← hfollowUp, ← hlog]
        rfl
      · exact hsnapshot'.trans hsnapshot
    · have hplain : (((node.commitTo candidate).push
          (node.commitTo candidate).followUp).recomputeConfig.commitTo
            candidate').closing = [] := by
        unfold closing
        rw [commitTo_currentConfig, recomputeConfig_push_followUp]
        rfl
      rw [hplain]
      unfold closing
      rw [if_pos hisJoint]
      rfl
    · rw [hcarries.next]
      exact hnext
    · rw [hcarries.matched]
      exact hmatch
    · refine ⟨nofun, fun hnot => ?_⟩
      exact absurd ⟨candidate, hcandidate, hjoint⟩ hnot

theorem advanceCommitIndex_silent
    (h : node.advanceCommitIndex = some (node', effects)) :
    effects.any Effect.isSend = false := by
  rw [List.any_eq_false]
  intro effect hmem
  rw [(advanceCommitIndex_persists h).persists effect hmem]
  exact Bool.false_ne_true

/-- A leader sends on while its log goes beyond what the peer is to get next. -/
theorem continueReplication_any (hrole : node.role = .leader)
    (hnext : node.nextIndex[peer]? = some next) :
    ∃ more, node.continueReplication peer = some more ∧
      more.any Effect.isSend = decide (next ≤ node.lastLogIndex) := by
  unfold continueReplication
  rw [if_pos hrole, hnext]
  by_cases hbehind : next ≤ node.lastLogIndex
  · obtain ⟨effect, heffect⟩ := replicateTo_some hnext (Nat.le_succ_of_le hbehind)
    obtain ⟨message, rfl⟩ := replicateTo_send heffect
    refine ⟨[.send peer message], ?_, ?_⟩
    · simp only [Option.bind_eq_bind, Option.bind_some, if_pos hbehind, heffect]
    · simp [Effect.isSend, hbehind]
  · refine ⟨[], ?_, ?_⟩
    · simp only [Option.bind_eq_bind, Option.bind_some, if_neg hbehind]
    · simp [hbehind]

theorem countProgress_spec (hreads : node.Reads whole)
    (hcountable : node.currentConfig.Countable) (peer : NodeId) (count : Nat) :
    ∃ node' effects, node.countProgress peer count = some (node', effects) ∧
      (node'.role ≠ .leader → effects.any Effect.isSend = false) ∧
      (node'.role = .leader → ∃ grown,
        Counted peer count whole grown (node.trackProgress peer count) node' ∧
        (grown = [] ↔ ¬ (node.trackProgress peer count).Completes) ∧
        effects.any Effect.isSend = decide (count + 1 ≤ node'.lastLogIndex)) := by
  have hreads' : (node.trackProgress peer count).Reads whole := hreads.congr rfl rfl
  have hcountable' : (node.trackProgress peer count).currentConfig.Countable := hcountable
  obtain ⟨⟨node', first⟩, hadvance⟩ := advanceCommitIndex_some hcountable'
  have hsilent := advanceCommitIndex_silent hadvance
  by_cases hrole : node'.role = .leader
  · obtain ⟨grown, hcounted, hgrown⟩ := advanceCommitIndex_counted hreads' hcountable'
      Std.ExtTreeMap.getElem?_insert_self Std.ExtTreeMap.getElem?_insert_self hadvance hrole
    obtain ⟨more, hmore, hany⟩ := continueReplication_any hrole hcounted.nextIndex
    refine ⟨node', first ++ more, ?_, fun hnot => absurd hrole hnot,
      fun _ => ⟨grown, hcounted, hgrown, ?_⟩⟩
    · unfold countProgress
      simp only [hadvance, Option.bind_eq_bind, Option.bind_some, hmore]
    · rw [List.any_append, hsilent, Bool.false_or, hany]
  · refine ⟨node', first, ?_, fun _ => hsilent, fun hleader => absurd hleader hrole⟩
    unfold countProgress continueReplication
    simp only [hadvance, Option.bind_eq_bind, Option.bind_some, if_neg hrole,
      List.append_nil]

theorem hear_acknowledged (hrole : node.role = .leader)
    (hmatch : node.matchIndex[peer]? = some matched) (index : Nat) :
    node.hear peer (.appendEntriesResponse ⟨node.currentTerm, true, index⟩) =
        node.countProgress peer (max matched index) ∧
      node.hear peer (.installSnapshotResponse ⟨node.currentTerm, index⟩) =
        node.countProgress peer (max matched index) := by
  have hstale : ¬ (node.currentTerm < node.currentTerm ∨ node.role ≠ .leader) := by
    rw [hrole]
    simp
  unfold hear onAppendEntriesResponse onInstallSnapshotResponse
  dsimp only
  constructor
  · rw [if_neg (Nat.lt_irrefl _), if_neg hstale, if_pos rfl, hmatch]
    rfl
  · rw [if_neg (Nat.lt_irrefl _), if_neg hstale, hmatch]
    rfl

/-- The leader tries `peer` one entry earlier. -/
def backOff (node : Node) (peer : NodeId) (next : Nat) : Node :=
  { node with nextIndex := node.nextIndex.insert peer (next - 1) }

/-- A rejection takes the leader back by one entry. -/
theorem hear_rejected (hrole : node.role = .leader)
    (hnext : node.nextIndex[peer]? = some next) (hback : 1 < next)
    (hwithin : next ≤ node.lastLogIndex + 1) :
    ∃ effects, node.hear peer (.appendEntriesResponse ⟨node.currentTerm, false, index⟩) =
        some (node.backOff peer next, effects) ∧
      effects.any Effect.isSend = true := by
  have hstale : ¬ (node.currentTerm < node.currentTerm ∨ node.role ≠ .leader) := by
    rw [hrole]
    simp
  have hmax : max (next - 1) 1 = next - 1 := by omega
  have hrole' : (node.backOff peer next).role = .leader := hrole
  have hinserted : (node.backOff peer next).nextIndex[peer]? = some (next - 1) :=
    Std.ExtTreeMap.getElem?_insert_self
  obtain ⟨more, hmore, hany⟩ := continueReplication_any hrole' hinserted
  refine ⟨more, ?_, ?_⟩
  · unfold hear onAppendEntriesResponse
    dsimp only
    rw [if_neg (Nat.lt_irrefl _), if_neg hstale, if_neg Bool.false_ne_true, hnext]
    simp only [Option.bind_eq_bind, Option.bind_some, hmax]
    unfold backOff at hmore ⊢
    rw [hmore]
    rfl
  · rw [hany]
    have hle : next - 1 ≤ node.lastLogIndex := by omega
    exact decide_eq_true hle

/-! ### One round -/

theorem catchUpRound_eq {request reply : Message} {persists : List Effect}
    {receiver : NodeId} (hsend : leader.replicateTo peer = some (.send peer request))
    (hanswer : follower.step (.step leader.id request) =
      some (follower', persists ++ [.send receiver reply]))
    (hhear : leader.hear peer reply = some (leader', effects)) :
    catchUpRound peer (leader, follower) =
      some ((leader', follower'), effects.any Effect.isSend) := by
  have hrequest : lastMessage [.send peer request] = some request := rfl
  unfold catchUpRound
  simp only [hsend, hrequest, hanswer, lastMessage_append, hhear, Option.bind_eq_bind,
    Option.bind_some]

/-- Above its boundary the leader sends entries, from the next one to its last. -/
theorem Reads.sends_entries (h : node.Reads whole)
    (hnext : node.nextIndex[peer]? = some next)
    (hlow : node.snapshot.lastIncludedIndex < next) (hwithin : next ≤ node.lastLogIndex + 1) :
    ∃ request : AppendEntries,
      node.replicateTo peer = some (.send peer (.appendEntries request)) ∧
      request.SliceOf whole ∧ request.term = node.currentTerm ∧
      request.leaderId = node.id ∧ request.prevLogIndex = next - 1 ∧
      request.prevLogIndex + request.entries.length = whole.length := by
  obtain ⟨request, hsend⟩ : ∃ request,
      node.replicateTo peer = some (.send peer (.appendEntries request)) := by
    obtain ⟨effect, heffect⟩ := replicateTo_some hnext hwithin
    have hsend := heffect
    unfold replicateTo at hsend
    simp only [hnext, Option.bind_eq_bind, Option.bind_some,
      if_neg (Nat.not_le.mpr hlow)] at hsend
    obtain ⟨entries, -, hsend⟩ := Option.bind_eq_some_iff.mp hsend
    cases hsend
    exact ⟨_, heffect⟩
  obtain ⟨hslice, hterm, hid, hfound, -, hend⟩ := h.sends hsend
  rw [hnext] at hfound
  have hprev := Option.some.inj hfound
  exact ⟨request, hsend, hslice, hterm, hid, by omega, hend⟩

/-- The snapshot the leader sends to a peer it cannot send entries. -/
def snapshotOffer (node : Node) : InstallSnapshot :=
  ⟨node.currentTerm, node.id, node.snapshot.lastIncludedIndex,
    node.snapshot.lastIncludedTerm, node.snapshotData, node.snapshotConfig⟩

/-- The next round, once the leader has counted `count`. -/
theorem Counted.replicates {grown : List LogEntry}
    (h : Counted peer count whole grown (leader.trackProgress peer count) leader')
    (hrole : leader'.role = .leader) (hcount : count ≤ whole.length)
    (hterm : follower'.currentTerm = leader.currentTerm)
    (hsnapshot : follower'.SnapshotOf (whole ++ leader.closing))
    (hlog : follower'.Matches (whole ++ leader.closing)) :
    whole ++ grown ++ leader'.closing = whole ++ leader.closing ∧
      Replicates peer (whole ++ grown) (count + 1) count leader' follower' := by
  have hclosing : grown ++ leader'.closing = leader.closing := h.closing
  have htotal : whole ++ grown ++ leader'.closing = whole ++ leader.closing := by
    rw [List.append_assoc, hclosing]
  have hle : count ≤ leader'.lastLogIndex := by
    rw [h.reads.lastLogIndex, List.length_append]
    omega
  refine ⟨htotal, hrole, h.reads, h.countable, h.nextIndex, Nat.succ_pos _,
    Nat.succ_le_succ hle, h.matchIndex, hle, ?_, ?_, ?_⟩
  · have hleader : leader'.currentTerm = leader.currentTerm := h.term
    rw [hterm, hleader]
  · rw [htotal]
    exact hsnapshot
  · rw [htotal]
    exact hlog

namespace Replicates

theorem last (h : Replicates peer whole next matched leader follower) :
    leader.lastLogIndex = whole.length :=
  h.reads.lastLogIndex

theorem boundary (h : Replicates peer whole next matched leader follower) :
    leader.snapshot.lastIncludedIndex ≤ (whole ++ leader.closing).length := by
  have hwithin := h.reads.within
  rw [List.length_append]
  omega

/-- Entries that do not connect are refused, and the leader steps back. -/
theorem refused (h : Replicates peer whole next matched leader follower)
    (hlow : leader.snapshot.lastIncludedIndex < next)
    (hrefuses : ¬ follower.Joins (whole ++ leader.closing) (next - 1)) :
    ∃ follower', catchUpRound peer (leader, follower) =
        some ((leader.backOff peer next, follower'), true) ∧
      follower'.log = follower.log ∧ follower'.snapshot = follower.snapshot ∧
      Replicates peer whole (next - 1) matched (leader.backOff peer next) follower' := by
  obtain ⟨request, hsend, hslice, hterm, hid, hprev, -⟩ :=
    h.reads.sends_entries h.nextIndex hlow h.within
  obtain ⟨hlog, hsnapshot, -⟩ := follower.followLeader_log request.term
  have hcurrent : follower.currentTerm ≤ request.term := hterm ▸ h.term
  have hback : 1 < next := by
    by_contra hfirst
    exact hrefuses (Or.inl (by omega))
  have hrejects : follower.prevLogSatisfied request = false := by
    rw [← Bool.not_eq_true, prevLogSatisfied_iff (hslice.extend leader.closing), hprev]
    exact hrefuses
  have hanswer : follower.step (.step leader.id (.appendEntries request)) =
      some ((follower.followLeader request.term).1,
        (follower.followLeader request.term).2 ++
          [.send leader.id (.appendEntriesResponse ⟨leader.currentTerm, false, 0⟩)]) := by
    simp only [step, hid, ne_eq, not_true_eq_false, if_false]
    rw [onAppendEntries_rejects hcurrent hrejects, rejectAppendEntries, appendReply,
      follower.followLeader_term hcurrent, hterm]
  obtain ⟨effects, hhear, hany⟩ := hear_rejected h.role h.nextIndex hback h.within
  have hround := catchUpRound_eq hsend hanswer hhear
  rw [hany] at hround
  have hwithin := h.within
  refine ⟨_, hround, hlog, hsnapshot, h.role, h.reads.congr rfl rfl, h.countable,
    Std.ExtTreeMap.getElem?_insert_self, Nat.le_sub_one_of_lt hback, ?_, h.matchIndex,
    h.reached, ?_, ?_, h.log.congr hlog hsnapshot⟩
  · have hle : next - 1 ≤ leader.lastLogIndex + 1 := by omega
    exact hle
  · rw [follower.followLeader_term hcurrent, hterm]
    exact le_rfl
  · exact h.snapshot.congr hsnapshot

/-- Entries that connect are taken over to the end of the leader's log. -/
theorem accepted (h : Replicates peer whole next matched leader follower)
    (hlow : leader.snapshot.lastIncludedIndex < next)
    (hjoins : follower.Joins (whole ++ leader.closing) (next - 1)) :
    ∃ leader' follower' more,
      catchUpRound peer (leader, follower) = some ((leader', follower'), more) ∧
      follower'.AgreesTo (whole ++ leader.closing) whole.length ∧
      (leader'.role ≠ .leader → more = false) ∧
      (leader'.role = .leader → ∃ grown,
        Counted peer whole.length whole grown
          (leader.trackProgress peer whole.length) leader' ∧
        whole ++ grown ++ leader'.closing = whole ++ leader.closing ∧
        Replicates peer (whole ++ grown) (whole.length + 1) whole.length leader' follower' ∧
        more = decide (whole.length + 1 ≤ leader'.lastLogIndex)) := by
  obtain ⟨request, hsend, hslice, hterm, hid, hprev, hend⟩ :=
    h.reads.sends_entries h.nextIndex hlow h.within
  have hcurrent : follower.currentTerm ≤ request.term := hterm ▸ h.term
  have hholds : follower.prevLogSatisfied request = true := by
    rw [prevLogSatisfied_iff (hslice.extend leader.closing), hprev]
    exact hjoins
  obtain ⟨follower', persists, hanswer, hmatches, hagrees, -, hsnapshot, hterm'⟩ :=
    h.log.onAppendEntries (hslice.extend leader.closing) leader.id hcurrent hholds
  rw [hend, hterm] at hanswer
  rw [hend] at hagrees
  have hstep : follower.step (.step leader.id (.appendEntries request)) = some (follower',
      persists ++ [.send leader.id (.appendEntriesResponse
        ⟨leader.currentTerm, true, whole.length⟩)]) := by
    simp only [step, hid, ne_eq, not_true_eq_false, if_false]
    exact hanswer
  have hmax : max matched whole.length = whole.length := by
    have hreached := h.reached
    rw [h.last] at hreached
    omega
  obtain ⟨leader', effects, hcount, hretired, hleads⟩ :=
    countProgress_spec h.reads h.countable peer whole.length
  have hhear := (hear_acknowledged h.role h.matchIndex whole.length).1
  rw [hmax, hcount] at hhear
  refine ⟨leader', follower', _, catchUpRound_eq hsend hstep hhear, hagrees, hretired,
    fun hrole => ?_⟩
  obtain ⟨grown, hcounted, -, hany⟩ := hleads hrole
  obtain ⟨htotal, hnext⟩ := hcounted.replicates hrole le_rfl (hterm'.trans hterm)
    (h.snapshot.congr hsnapshot) hmatches
  exact ⟨grown, hcounted, htotal, hnext, hany⟩

/-- A follower that is sent the snapshot keeps its log if it holds the entry at the
boundary, and starts from the snapshot otherwise. -/
theorem snapshotted (h : Replicates peer whole next matched leader follower)
    (hlow : next ≤ leader.snapshot.lastIncludedIndex) :
    ∃ leader' follower' more,
      catchUpRound peer (leader, follower) = some ((leader', follower'), more) ∧
      follower'.Joins (whole ++ leader.closing) leader.snapshot.lastIncludedIndex ∧
      follower'.Matches (whole ++ leader.closing) ∧
      ((follower.termAt leader.snapshot.lastIncludedIndex =
          some leader.snapshot.lastIncludedTerm ∧ follower'.log = follower.log ∧
          follower'.snapshot = follower.snapshot) ∨
        (follower.termAt leader.snapshot.lastIncludedIndex ≠
          some leader.snapshot.lastIncludedTerm ∧ follower'.log = [] ∧
          follower'.snapshot = leader.snapshot)) ∧
      (leader'.role ≠ .leader → more = false) ∧
      (leader'.role = .leader → ∃ grown,
        Counted peer (max matched leader.snapshot.lastIncludedIndex) whole grown
          (leader.trackProgress peer (max matched leader.snapshot.lastIncludedIndex))
          leader' ∧
        (grown = [] ↔ ¬ (leader.trackProgress peer
          (max matched leader.snapshot.lastIncludedIndex)).Completes) ∧
        whole ++ grown ++ leader'.closing = whole ++ leader.closing ∧
        Replicates peer (whole ++ grown)
          (max matched leader.snapshot.lastIncludedIndex + 1)
          (max matched leader.snapshot.lastIncludedIndex) leader' follower' ∧
        more = decide (max matched leader.snapshot.lastIncludedIndex + 1 ≤
          leader'.lastLogIndex)) := by
  have hpos : 0 < leader.snapshot.lastIncludedIndex :=
    Nat.lt_of_lt_of_le h.positive hlow
  have hwithin := h.reads.within
  have hreached := h.reached
  rw [h.last] at hreached
  have hboundary : termIn (whole ++ leader.closing) leader.snapshot.lastIncludedIndex =
      some leader.snapshot.lastIncludedTerm := by
    rw [termIn_append hwithin]
    exact h.reads.term hpos
  have hsend : leader.replicateTo peer =
      some (.send peer (.installSnapshot leader.snapshotOffer)) := by
    unfold replicateTo
    simp only [h.nextIndex, Option.bind_eq_bind, Option.bind_some, if_pos hlow]
    rfl
  obtain ⟨follower', persists, hanswer, hterm', hleft⟩ :=
    onInstallSnapshot_spec leader.snapshotOffer leader.id h.term
  have hstep : follower.step (.step leader.id (.installSnapshot leader.snapshotOffer)) =
      some (follower', persists ++ [.send leader.id (.installSnapshotResponse
        ⟨leader.currentTerm, leader.snapshot.lastIncludedIndex⟩)]) := by
    rw [step, if_neg (by simp [snapshotOffer])]
    exact hanswer
  obtain ⟨leader', effects, hcount, hretired, hleads⟩ :=
    countProgress_spec h.reads h.countable peer
      (max matched leader.snapshot.lastIncludedIndex)
  have hhear := (hear_acknowledged h.role h.matchIndex
    leader.snapshot.lastIncludedIndex).2
  rw [hcount] at hhear
  have hcovered : follower.alreadyCovered leader.snapshotOffer =
      decide (follower.termAt leader.snapshot.lastIncludedIndex =
        some leader.snapshot.lastIncludedTerm) := rfl
  rw [hcovered, decide_eq_true_eq, decide_eq_false_iff_not] at hleft
  obtain ⟨hjoins, hmatches, hsnapshot⟩ :
      follower'.Joins (whole ++ leader.closing) leader.snapshot.lastIncludedIndex ∧
        follower'.Matches (whole ++ leader.closing) ∧
        follower'.SnapshotOf (whole ++ leader.closing) := by
    rcases hleft with ⟨hheld, hlog, hsame⟩ | ⟨-, hlog, hinstalled⟩
    · have hjoins : follower.Joins (whole ++ leader.closing)
          leader.snapshot.lastIncludedIndex := Or.inr (hheld.trans hboundary.symm)
      exact ⟨hjoins.congr hlog hsame, h.log.congr hlog hsame, h.snapshot.congr hsame⟩
    · have hstart : follower'.snapshot.lastIncludedIndex =
          leader.snapshot.lastIncludedIndex := by
        rw [hinstalled]
        rfl
      have hnone : follower'.AgreesTo (whole ++ leader.closing)
          leader.snapshot.lastIncludedIndex := by
        intro position hposition hle
        omega
      refine ⟨Or.inl (Nat.le_of_eq hstart.symm), hnone.matches ?_,
        (h.reads.toSnapshotOf.extend leader.closing).congr hinstalled⟩
      unfold lastLogIndex
      rw [hlog, hstart]
      exact Nat.le_refl _
  refine ⟨leader', follower', _, catchUpRound_eq hsend hstep hhear, hjoins, hmatches,
    hleft, hretired, fun hrole => ?_⟩
  obtain ⟨grown, hcounted, hgrown, hany⟩ := hleads hrole
  obtain ⟨htotal, hnext⟩ := hcounted.replicates hrole (max_le hreached hwithin) hterm'
    hsnapshot hmatches
  exact ⟨grown, hcounted, hgrown, htotal, hnext, hany⟩

end Replicates

/-! ### The exchange -/

/-- The leader counts `peer` as holding its whole log, and above its boundary the
follower holds it. -/
def Caught (peer : NodeId) (whole : List LogEntry) (last : Node × Node) : Prop :=
  ∃ held, whole <+: held ∧ last.1.Reads held ∧
    last.1.matchIndex[peer]? = some last.1.lastLogIndex ∧
    last.2.AgreesTo held last.1.lastLogIndex

/-- The leader has to send its snapshot on the way. -/
def NeedsSnapshot (whole : List LogEntry) (next : Nat) (leader follower : Node) : Prop :=
  next ≤ leader.snapshot.lastIncludedIndex ∨
    ¬ follower.Joins whole leader.snapshot.lastIncludedIndex

/-- The snapshot is not all the follower needs, but once it has been answered the
leader counts the follower as holding everything. -/
def StopsShort (whole : List LogEntry) (matched : Nat) (leader follower : Node) : Prop :=
  matched = leader.lastLogIndex ∧
    leader.snapshot.lastIncludedIndex < leader.lastLogIndex ∧
    ¬ (follower.snapshot.lastIncludedIndex ≤ leader.snapshot.lastIncludedIndex ∧
      follower.AgreesTo whole leader.lastLogIndex) ∧
    ¬ leader.Completes

theorem agreesTo_append {more : List LogEntry} (hindex : index ≤ whole.length) :
    node.AgreesTo (whole ++ more) index ↔ node.AgreesTo whole index := by
  have hsame : ∀ position, node.snapshot.lastIncludedIndex < position →
      position ≤ index → (whole ++ more)[position - 1]? = whole[position - 1]? :=
    fun position hlow hhigh => List.getElem?_append_left (by omega)
  constructor
  · exact fun h position hlow hhigh => (h position hlow hhigh).trans
      (hsame position hlow hhigh)
  · exact fun h position hlow hhigh => (h position hlow hhigh).trans
      (hsame position hlow hhigh).symm

theorem joins_append {more : List LogEntry} (hindex : index ≤ whole.length) :
    node.Joins (whole ++ more) index ↔ node.Joins whole index := by
  unfold Joins
  rw [termIn_append hindex]

theorem closing_length (node : Node) : node.closing.length ≤ 1 := by
  unfold closing
  split
  · exact Nat.le_refl _
  · exact Nat.zero_le _

/-- A follower that the leader's log connects to is brought to its end. -/
structure Connected (peer : NodeId) (whole total : List LogEntry) (s : Node × Node) :
    Prop where
  replicates : ∃ held next matched, Replicates peer held next matched s.1 s.2 ∧
    whole <+: held ∧ held ++ s.1.closing = total ∧
    s.1.snapshot.lastIncludedIndex < next
  joins : s.2.Joins total s.1.snapshot.lastIncludedIndex

/-- How many rounds it may still take: a change that completes costs more than all
the steps back. -/
def roundsLeft (peer : NodeId) (total : List LogEntry) (s : Node × Node) : Nat :=
  s.1.closing.length * (total.length + 2) + (s.1.nextIndex[peer]?).getD 0

theorem Connected.round {total : List LogEntry} {s : Node × Node}
    (h : Connected peer whole total s) :
    ∃ s' more, catchUpRound peer s = some (s', more) ∧
      (more = false → s'.1.role = .leader → Caught peer whole s') ∧
      (more = true → Connected peer whole total s' ∧
        roundsLeft peer total s' < roundsLeft peer total s) := by
  obtain ⟨leader, follower⟩ := s
  obtain ⟨⟨held, next, matched, hreplicates, hprefix, rfl, hlow⟩, hjoins⟩ := h
  dsimp only at hreplicates hjoins hlow ⊢
  by_cases hconnects : follower.Joins (held ++ leader.closing) (next - 1)
  · obtain ⟨leader', follower', more, hround, hagrees, hretired, hleads⟩ :=
      hreplicates.accepted hlow hconnects
    refine ⟨_, more, hround, fun hstop hrole => ?_, fun hmore => ?_⟩
    · obtain ⟨grown, hcounted, -, -, hany⟩ := hleads hrole
      have hlast := hcounted.reads.lastLogIndex
      rw [hstop, eq_comm, decide_eq_false_iff_not] at hany
      have hnil : grown = [] := by
        rw [List.length_append] at hlast
        exact List.length_eq_zero_iff.mp (by omega)
      rw [hnil, List.append_nil] at hlast
      refine ⟨held, hprefix, ?_, ?_, ?_⟩
      · rw [← List.append_nil held, ← hnil]
        exact hcounted.reads
      · rw [hlast]
        exact hcounted.matchIndex
      · rw [hlast]
        exact (agreesTo_append le_rfl).mp hagrees
    · have hrole : leader'.role = .leader := by
        by_contra hnot
        rw [hretired hnot] at hmore
        cases hmore
      obtain ⟨grown, hcounted, htotal, hnext, hany⟩ := hleads hrole
      have hlast := hcounted.reads.lastLogIndex
      have hwithin := hreplicates.reads.within
      have hsnapshot : leader'.snapshot = leader.snapshot := hcounted.snapshot
      rw [hmore, eq_comm, decide_eq_true_eq] at hany
      have hclosing : grown.length + leader'.closing.length = leader.closing.length := by
        have hclosing : grown ++ leader'.closing = leader.closing := hcounted.closing
        rw [← hclosing, List.length_append]
      have hone := leader.closing_length
      have hgrown : grown.length = 1 ∧ leader'.closing.length = 0 := by
        rw [List.length_append] at hlast
        omega
      refine ⟨⟨⟨_, _, _, hnext, hprefix.trans (List.prefix_append _ _), htotal, ?_⟩, ?_⟩, ?_⟩
      · rw [hsnapshot]
        exact Nat.lt_succ_of_le hwithin
      · rw [hsnapshot]
        exact (hagrees.mono hwithin).joins
      · have hfound : leader'.nextIndex[peer]? = some (held.length + 1) := hnext.nextIndex
        unfold roundsLeft
        rw [hgrown.2, hfound, List.length_append]
        have hjoint : leader.closing.length = 1 := by omega
        rw [hjoint]
        simp only [Option.getD_some]
        omega
  · obtain ⟨follower', hround, hlog, hsnapshot, hnext⟩ := hreplicates.refused hlow hconnects
    refine ⟨_, true, hround, nofun, fun _ => ⟨⟨⟨held, _, _, hnext, hprefix, rfl, ?_⟩, ?_⟩, ?_⟩⟩
    · have hne : next - 1 ≠ leader.snapshot.lastIncludedIndex := by
        rintro heq
        rw [heq] at hconnects
        exact hconnects hjoins
      show leader.snapshot.lastIncludedIndex < next - 1
      omega
    · exact hjoins.congr hlog hsnapshot
    · have hfound := hnext.nextIndex
      have hpos := hreplicates.positive
      unfold roundsLeft
      rw [hfound, hreplicates.nextIndex]
      simp only [Option.getD_some]
      have hclosing : (leader.backOff peer next).closing = leader.closing := rfl
      rw [hclosing]
      omega

theorem Connected.finishes {total : List LogEntry} {s : Node × Node}
    (h : Connected peer whole total s) :
    Finishes (catchUpRound peer) (fun last => last.1.role = .leader → Caught peer whole last)
      s :=
  .of_measure (roundsLeft peer total) (fun _ hs => hs.round) h

/-- Counting what is counted already completes nothing more. -/
theorem completes_again (hmatch : node.matchIndex[peer]? = some matched) :
    (node.trackProgress peer matched).Completes ↔ node.Completes := by
  have hsame : ∀ voter, (node.trackProgress peer matched).matchOf voter =
      node.matchOf voter := by
    intro voter
    have hfound : (node.trackProgress peer matched).matchIndex[voter]? =
        node.matchIndex[voter]? := by
      unfold trackProgress
      rw [Std.ExtTreeMap.getElem?_insert]
      split
      · rename_i hvoter
        rw [← Std.LawfulEqCmp.eq_of_compare hvoter, hmatch]
      · rfl
    unfold matchOf
    rw [hfound]
    rfl
  exact completes_congr rfl rfl rfl rfl rfl rfl hsame

namespace Replicates

/-- Whoever holds all of the leader's log above an earlier boundary, or at it, is
not in need of the snapshot. -/
theorem covered (h : Replicates peer whole next matched leader follower)
    (hpos : 0 < leader.snapshot.lastIncludedIndex)
    (hboundary : follower.snapshot.lastIncludedIndex ≤ leader.snapshot.lastIncludedIndex)
    (hagrees : follower.AgreesTo whole leader.lastLogIndex) :
    follower.termAt leader.snapshot.lastIncludedIndex =
      some leader.snapshot.lastIncludedTerm := by
  have hwithin := h.reads.within
  have hown := h.reads.term hpos
  rcases Nat.eq_or_lt_of_le hboundary with heq | hlt
  · have hterm := h.snapshot.term (by omega)
    rw [heq, termIn_append hwithin, hown] at hterm
    unfold termAt
    rw [if_neg (by omega), if_pos heq.symm, ← Option.some.inj hterm]
  · rw [termAt_above hlt, hagrees _ hlt (by rw [h.last]; exact hwithin), ← hown]
    unfold termIn
    rw [if_neg (by omega)]

/-- An exchange that falls back to the snapshot succeeds if and only if it does not
stop short after it. -/
theorem snapshot_finishes (h : Replicates peer whole next matched leader follower)
    (hlow : next ≤ leader.snapshot.lastIncludedIndex) :
    Finishes (catchUpRound peer) (fun last => last.1.role = .leader →
      (Caught peer whole last ↔ ¬ StopsShort whole matched leader follower))
      (leader, follower) := by
  have hpos : 0 < leader.snapshot.lastIncludedIndex := Nat.lt_of_lt_of_le h.positive hlow
  have hwithin := h.reads.within
  have hreached := h.reached
  rw [h.last] at hreached
  obtain ⟨leader', follower', more, hround, hjoins, hmatches, hleft, hretired, hleads⟩ :=
    h.snapshotted hlow
  by_cases hrole : leader'.role = .leader
  swap
  · rw [hretired hrole] at hround
    exact .stop hround (fun hleader => absurd hleader hrole)
  obtain ⟨grown, hcounted, hgrown, htotal, hnext, hany⟩ := hleads hrole
  have hlast := hcounted.reads.lastLogIndex
  rw [List.length_append] at hlast
  cases more with
  | true =>
      rw [eq_comm, decide_eq_true_eq] at hany
      -- More is sent, from beyond the boundary the follower has reached.
      have hconnected : Connected peer whole (whole ++ leader.closing)
          (leader', follower') := by
        have hsnapshot : leader'.snapshot = leader.snapshot := hcounted.snapshot
        refine ⟨⟨_, _, _, hnext, List.prefix_append _ _, htotal, ?_⟩, ?_⟩
        · rw [hsnapshot]
          exact Nat.lt_succ_of_le (le_max_right _ _)
        · rw [hsnapshot]
          exact hjoins
      refine .more hround (hconnected.finishes.mono (fun last hcaught hleader => ?_))
      refine iff_of_true (hcaught hleader) ?_
      rintro ⟨hall, habove, -, hopen⟩
      rw [h.last] at hall
      rw [hall, max_eq_left hwithin] at hgrown hany
      rw [← hall, completes_again h.matchIndex] at hgrown
      have hnil := hgrown.mpr hopen
      rw [hnil, List.length_nil] at hlast
      omega
  | false =>
      rw [eq_comm, decide_eq_false_iff_not] at hany
      have hnil : grown = [] := List.length_eq_zero_iff.mp (by omega)
      have hcount : max matched leader.snapshot.lastIncludedIndex = whole.length := by
        rw [hnil, List.length_nil] at hlast
        omega
      rw [hcount] at hcounted hgrown
      rw [hnil, List.length_nil, Nat.add_zero] at hlast
      have hreads : leader'.Reads whole := by
        rw [← List.append_nil whole, ← hnil]
        exact hcounted.reads
      have hcaught : Caught peer whole (leader', follower') ↔
          follower'.AgreesTo whole whole.length := by
        constructor
        · rintro ⟨held, hprefix, hheld, -, hagrees⟩
          have hsame : whole = held := by
            apply hprefix.eq_of_length
            rw [← hlast, hheld.lastLogIndex]
          rw [← hlast, hsame]
          exact hagrees
        · intro hagrees
          refine ⟨whole, List.prefix_rfl, hreads, ?_, ?_⟩
          · rw [hlast]
            exact hcounted.matchIndex
          · rw [hlast]
            exact hagrees
      refine .stop hround (fun _ => hcaught.trans ?_)
      rcases Nat.eq_or_lt_of_le hwithin with hall | habove
      · refine iff_of_true ?_ (fun hshort => ?_)
        · rw [hall] at hjoins
          exact (agreesTo_append le_rfl).mp
            (hjoins.agrees hmatches (by rw [List.length_append]; omega))
        · exact absurd hshort.2.1 (by rw [h.last]; omega)
      have hmatched : matched = whole.length := by omega
      have hopen : ¬ leader.Completes := by
        have hsame := hgrown.mp hnil
        rwa [← hmatched, completes_again h.matchIndex] at hsame
      have hshort : StopsShort whole matched leader follower ↔
          ¬ (follower.snapshot.lastIncludedIndex ≤ leader.snapshot.lastIncludedIndex ∧
            follower.AgreesTo whole whole.length) := by
        unfold StopsShort
        rw [h.last]
        exact ⟨fun hshort => hshort.2.2.1, fun hnot => ⟨hmatched, habove, hnot, hopen⟩⟩
      rw [hshort, not_not]
      rcases hleft with ⟨hheld, hlog, hsnapshot⟩ | ⟨hnot, hlog, hsnapshot⟩
      · constructor
        · exact fun hagrees => ⟨(termAt_range hheld).2.1,
            hagrees.congr hlog.symm hsnapshot.symm⟩
        · exact fun hagrees => hagrees.2.congr hlog hsnapshot
      · refine iff_of_false (fun hagrees => ?_) (fun hheld => hnot ?_)
        · have hentry := hagrees whole.length (by rw [hsnapshot]; exact habove) le_rfl
          have hnone : follower'.entryAt whole.length = none := by
            unfold entryAt
            rw [hlog]
            split <;> rfl
          rw [hnone, eq_comm, List.getElem?_eq_none_iff] at hentry
          omega
        · exact h.covered hpos hheld.1 (by rw [h.last]; exact hheld.2)

/-- What decides whether the exchange stops short does not change while the leader
steps back. -/
theorem stopsShort_backOff (hlog : follower'.log = follower.log)
    (hsnapshot : follower'.snapshot = follower.snapshot) :
    StopsShort whole matched (leader.backOff peer next) follower' ↔
      StopsShort whole matched leader follower := by
  have hagrees : ∀ index, follower'.AgreesTo whole index ↔ follower.AgreesTo whole index :=
    fun index => ⟨fun h => h.congr hlog.symm hsnapshot.symm, fun h => h.congr hlog hsnapshot⟩
  have hcompletes : (leader.backOff peer next).Completes ↔ leader.Completes :=
    completes_congr rfl rfl rfl rfl rfl rfl (fun _ => rfl)
  unfold StopsShort
  rw [hcompletes, hsnapshot, hagrees]
  rfl

/-- A follower the leader's boundary does not connect to refuses entries until the
leader falls back to its snapshot. -/
theorem fallBack_finishes (h : Replicates peer whole next matched leader follower)
    (hneeds : NeedsSnapshot whole next leader follower) :
    Finishes (catchUpRound peer) (fun last => last.1.role = .leader →
      (Caught peer whole last ↔ ¬ StopsShort whole matched leader follower))
      (leader, follower) := by
  induction next using Nat.strongRecOn generalizing leader follower with
  | _ next ih =>
      rcases Nat.lt_or_ge leader.snapshot.lastIncludedIndex next with hlow | hlow
      swap
      · exact h.snapshot_finishes hlow
      have hapart := hneeds.resolve_left (Nat.not_le.mpr hlow)
      have hwithin := h.reads.within
      have hnext := h.within
      rw [h.last] at hnext
      have hrefuses : ¬ follower.Joins (whole ++ leader.closing) (next - 1) := by
        intro hjoins
        apply hapart
        rw [← joins_append hwithin]
        exact hjoins.down h.log (by rw [List.length_append]; omega) (by omega)
      obtain ⟨follower', hround, hlog, hsnapshot, hback⟩ := h.refused hlow hrefuses
      have hneeds' : NeedsSnapshot whole (next - 1) (leader.backOff peer next) follower' :=
        Or.inr (fun hjoins => hapart (hjoins.congr hlog.symm hsnapshot.symm))
      refine .more hround ((ih (next - 1) (by omega) hback hneeds').mono
        (fun last hlast hrole => ?_))
      rw [hlast hrole, stopsShort_backOff hlog hsnapshot]

end Replicates

/-- A leader that brings a follower up to date comes to an end, and unless it falls
back to its snapshot and stops short there, the logs are then equal. -/
theorem catch_up_iff (h : Replicates peer whole next matched leader follower)
    (hstays : ∀ fuel last, repeatRounds (catchUpRound peer) fuel (leader, follower) =
      some last → last.1.role = .leader) :
    (∃ fuel last, repeatRounds (catchUpRound peer) fuel (leader, follower) = some last) ∧
      (Finishes (catchUpRound peer) (Caught peer whole) (leader, follower) ↔
        ¬ (NeedsSnapshot whole next leader follower ∧
          StopsShort whole matched leader follower)) := by
  by_cases hneeds : NeedsSnapshot whole next leader follower
  · obtain ⟨fuel, last, hrun, hlast⟩ := h.fallBack_finishes hneeds
    have hequal := hlast (hstays fuel last hrun)
    refine ⟨⟨fuel, last, hrun⟩, ?_⟩
    constructor
    · rintro hfinishes ⟨-, hshort⟩
      exact hequal.mp (hfinishes.of_run hrun) hshort
    · intro hnot
      exact ⟨fuel, last, hrun, hequal.mpr (fun hshort => hnot ⟨hneeds, hshort⟩)⟩
  · have hconnected : Connected peer whole (whole ++ leader.closing) (leader, follower) := by
      unfold NeedsSnapshot at hneeds
      rw [not_or, not_not, Nat.not_le] at hneeds
      exact ⟨⟨whole, next, matched, h, List.prefix_rfl, rfl, hneeds.1⟩,
        (joins_append h.reads.within).mpr hneeds.2⟩
    obtain ⟨fuel, last, hrun, hlast⟩ := hconnected.finishes
    refine ⟨⟨fuel, last, hrun⟩, iff_of_true ?_ (fun hboth => hneeds hboth.1)⟩
    exact ⟨fuel, last, hrun, hlast (hstays fuel last hrun)⟩

/-! ### Two servers -/

/-- What two servers of three are after they have served the given requests. -/
def afterServing (leads follows : List Operation) : Option (Node × Node) := do
  let first ← (new ⟨1⟩ [⟨1⟩, ⟨2⟩, ⟨3⟩] 1 1).toOption
  let second ← (new ⟨2⟩ [⟨1⟩, ⟨2⟩, ⟨3⟩] 1 1).toOption
  let (leader, _) ← first.performAll leads
  let (follower, _) ← second.performAll follows
  some (leader, follower)

/-- Server 1 leads, with a command that server 2 has not got, in a later term. One
rejection later it has brought server 2 up to date and compacts its log. The
rejection arrives twice more. -/
def rejectedAgain : List Operation :=
  [.tick 1, .receive ⟨2⟩ (.requestVoteResponse ⟨1, true⟩), .propose [7],
    .receive ⟨3⟩ (.appendEntriesResponse ⟨2, false, 0⟩), .tick 1,
    .receive ⟨2⟩ (.requestVoteResponse ⟨3, true⟩),
    .receive ⟨2⟩ (.appendEntriesResponse ⟨3, false, 0⟩),
    .receive ⟨2⟩ (.appendEntriesResponse ⟨3, true, 1⟩), .propose [8],
    .receive ⟨2⟩ (.appendEntriesResponse ⟨3, true, 2⟩), .compact 1 [5],
    .receive ⟨2⟩ (.appendEntriesResponse ⟨3, false, 0⟩),
    .receive ⟨2⟩ (.appendEntriesResponse ⟨3, false, 0⟩)]

/-- Server 2 in the meantime; it has compacted its log one entry further. -/
def compactedFurther : List Operation :=
  [.receive ⟨1⟩ (.requestVote ⟨3, ⟨1⟩, 1, 1⟩),
    .receive ⟨1⟩ (.appendEntries ⟨3, ⟨1⟩, 1, 1, [], 0⟩),
    .receive ⟨1⟩ (.appendEntries ⟨3, ⟨1⟩, 0, 0, [⟨1, .command [7]⟩], 0⟩),
    .receive ⟨1⟩ (.appendEntries ⟨3, ⟨1⟩, 1, 1, [⟨3, .command [8]⟩], 0⟩),
    .receive ⟨1⟩ (.appendEntries ⟨3, ⟨1⟩, 2, 3, [], 2⟩), .compact 2 [6]]

instance (node : Node) (whole : List LogEntry) : Decidable (node.SnapshotOf whole) :=
  decidable_of_iff (node.snapshot.lastIncludedIndex ≤ whole.length ∧
      (0 < node.snapshot.lastIncludedIndex →
        termIn whole node.snapshot.lastIncludedIndex = some node.snapshot.lastIncludedTerm))
    ⟨fun h => ⟨h.1, h.2⟩, fun h => ⟨h.1, h.2⟩⟩

/-- A leader of three servers outside any change, and a follower without a log. -/
def StartsBare (peer : NodeId) (whole : List LogEntry) (next matched : Nat)
    (nodes : Node × Node) : Prop :=
  (nodes.1.role = .leader ∧ nodes.1.SnapshotOf whole ∧
      nodes.1.log = whole.drop nodes.1.snapshot.lastIncludedIndex ∧
      nodes.1.currentConfig = ⟨[⟨1⟩, ⟨2⟩, ⟨3⟩], none⟩) ∧
    (nodes.1.nextIndex[peer]? = some next ∧ 1 ≤ next ∧ next ≤ nodes.1.lastLogIndex + 1 ∧
      nodes.1.matchIndex[peer]? = some matched ∧ matched ≤ nodes.1.lastLogIndex) ∧
    nodes.2.currentTerm ≤ nodes.1.currentTerm ∧ nodes.2.SnapshotOf whole ∧ nodes.2.log = []

instance (peer : NodeId) (whole : List LogEntry) (next matched : Nat) :
    DecidablePred (StartsBare peer whole next matched) :=
  fun _ => inferInstanceAs (Decidable (_ ∧ _))

theorem StartsBare.replicates {nodes : Node × Node}
    (h : StartsBare peer whole next matched nodes) :
    Replicates peer whole next matched nodes.1 nodes.2 := by
  obtain ⟨⟨hrole, hboundary, hlog, hconfig⟩, ⟨hnext, hpos, hwithin, hmatch, hreached⟩, hterm,
    hsnapshot, hempty⟩ := h
  refine ⟨hrole, ⟨hboundary, hlog⟩, ?_, hnext, hpos, hwithin, hmatch, hreached, hterm,
    hsnapshot.extend _, ?_⟩
  · rw [hconfig]
    exact ⟨nofun, nofun⟩
  · have hnone : nodes.2.AgreesTo (whole ++ nodes.1.closing)
        nodes.2.snapshot.lastIncludedIndex := by
      intro position hposition hle
      omega
    apply hnone.matches
    unfold lastLogIndex
    rw [hempty]
    exact Nat.le_refl _

/-- Server 2 has applied both entries and compacted them away. The leader's older
snapshot takes the second one from it, and the leader sends it no more. -/
theorem compacted_follower_is_cut_back : ∃ leader follower last,
    afterServing rejectedAgain compactedFurther = some (leader, follower) ∧
      Replicates ⟨2⟩ [⟨1, .command [7]⟩, ⟨3, .command [8]⟩] 1 2 leader follower ∧
      follower.snapshot.lastIncludedIndex = 2 ∧
      repeatRounds (catchUpRound ⟨2⟩) 1 (leader, follower) = some last ∧
      last.1.role = .leader ∧ last.1.lastLogIndex = 2 ∧
      last.1.matchIndex[(⟨2⟩ : NodeId)]? = some 2 ∧ last.2.lastLogIndex = 1 ∧
      ¬ Finishes (catchUpRound ⟨2⟩)
        (Caught ⟨2⟩ [⟨1, .command [7]⟩, ⟨3, .command [8]⟩]) (leader, follower) := by
  have hserved : (afterServing rejectedAgain compactedFurther).any (fun nodes => decide
      (StartsBare ⟨2⟩ [⟨1, .command [7]⟩, ⟨3, .command [8]⟩] 1 2 nodes ∧
        nodes.2.snapshot.lastIncludedIndex = 2 ∧
        (repeatRounds (catchUpRound ⟨2⟩) 1 nodes).any (fun last => decide
          (last.1.role = .leader ∧ last.1.lastLogIndex = 2 ∧
            last.1.matchIndex[(⟨2⟩ : NodeId)]? = some 2 ∧ last.2.lastLogIndex = 1 ∧
            last.2.snapshot.lastIncludedIndex = 1 ∧ last.2.entryAt 2 = none)) = true)) =
      true := by
    decide +kernel
  obtain ⟨⟨leader, follower⟩, hserved, hbare, hsnapshot, hrun⟩ := exists_of_any hserved
  obtain ⟨last, hrun, hrole, hlast, hmatch, hcut, hboundary, hentry⟩ := exists_of_any hrun
  refine ⟨leader, follower, last, hserved, hbare.replicates, hsnapshot, hrun, hrole, hlast,
    hmatch, hcut, fun hfinishes => ?_⟩
  obtain ⟨held, -, hreads, -, hagrees⟩ := hfinishes.of_run hrun
  have htwo := hagrees 2 (by omega) (by omega)
  have hlength := hreads.lastLogIndex
  rw [hentry, eq_comm, List.getElem?_eq_none_iff] at htwo
  omega

/-- Server 1 leads and has compacted the first of two commands; server 3 has it. -/
def compactsFirst : List Operation :=
  [.tick 1, .receive ⟨2⟩ (.requestVoteResponse ⟨1, true⟩), .propose [7], .propose [8],
    .receive ⟨3⟩ (.appendEntriesResponse ⟨1, true, 1⟩), .compact 1 [5]]

/-- A server without a log gets the snapshot and then the entry above it. -/
theorem empty_follower_catches_up : ∃ leader follower,
    afterServing compactsFirst [] = some (leader, follower) ∧
      leader.snapshot.lastIncludedIndex = 1 ∧ follower.lastLogIndex = 0 ∧
      Finishes (catchUpRound ⟨2⟩)
        (Caught ⟨2⟩ [⟨1, .command [7]⟩, ⟨1, .command [8]⟩]) (leader, follower) := by
  have hserved : (afterServing compactsFirst []).any (fun nodes => decide
      (StartsBare ⟨2⟩ [⟨1, .command [7]⟩, ⟨1, .command [8]⟩] 1 0 nodes ∧
        nodes.1.snapshot.lastIncludedIndex = 1 ∧ nodes.1.lastLogIndex = 2 ∧
        nodes.2.lastLogIndex = 0 ∧
        (repeatRounds (catchUpRound ⟨2⟩) 2 nodes).any (fun last => decide
          (last.1.role = .leader)) = true)) = true := by
    decide +kernel
  obtain ⟨⟨leader, follower⟩, hserved, hbare, hboundary, hlast, hempty, hrun⟩ :=
    exists_of_any hserved
  obtain ⟨last, hrun, hrole⟩ := exists_of_any hrun
  refine ⟨leader, follower, hserved, hboundary, hempty, ?_⟩
  refine (catch_up_iff hbare.replicates (fun fuel other hother => ?_)).2.mpr ?_
  · rw [repeatRounds_unique hother hrun]
    exact hrole
  · rintro ⟨-, hmatched, -⟩
    omega

end Kurogane.Raft.Node
