import Kurogane.Raft.CommitRule

/-!
Commits count servers as long as no list of voters repeats one. `recover`
insists on members in strictly ascending order, a change of membership takes
any list; one that names a server twice lets its acknowledgement count twice.
-/

namespace Kurogane.Raft

open Kurogane.Consensus

/-- No server is listed twice. -/
def ClusterConfig.Distinct (config : ClusterConfig) : Prop :=
  config.voters.Nodup ∧
    ∀ old, config.oldVoters = some old → old.Nodup

/-- Proposals and the responses of peers, all of which a leader advances its
commit index on. -/
def Operation.advancesCommit : Operation → Bool
  | .propose _ | .proposeConfigChange _ => true
  | .receive _ (.appendEntriesResponse _) => true
  | .receive _ (.installSnapshotResponse _) => true
  | _ => false

namespace Node

variable {node node' : Node} {effects : List Effect}

/-- A change of membership that the node accepts, and what a message brings, lists no
server twice. -/
def BringsDistinct (node : Node) : Operation → Prop
  | .receive _ message => message.Configs ClusterConfig.Distinct
  | .proposeConfigChange newVoters =>
      node.role = .leader → newVoters ≠ [] → newVoters.Nodup
  | _ => True

/-- One call of `advance_commit_index` on a node raises the commit index to an
index that the second node counts acknowledgements for: the node itself, or
the one with the follow-up of its committed joint configuration. -/
inductive Raises : Node → Node → Nat → Prop
  | counted {node : Node} {candidate : Nat} :
      node.commitCandidate = some candidate →
      node.commitIndex < (node.commitTo candidate).commitIndex →
      Raises node node candidate
  | followed {node counting : Node} {candidate index : Nat} :
      node.commitCandidate = some candidate →
      (node.commitTo candidate).jointCommitted = true →
      Raises ((node.commitTo candidate).push
        (node.commitTo candidate).followUp).recomputeConfig counting index →
      Raises node counting index

/-- The node on which an operation calls `advance_commit_index`. -/
def advancing (node : Node) : Operation → Option Node
  | .propose command =>
      if node.role = .leader then
        some (node.push ⟨node.currentTerm, .command command⟩).recomputeConfig
      else none
  | .proposeConfigChange newVoters =>
      if node.role = .leader ∧ newVoters ≠ [] then
        some ((node.dropPromoted newVoters).1.push
          (node.jointEntry newVoters)).recomputeConfig
      else none
  | .receive sender (.appendEntriesResponse response) =>
      if node.role = .leader ∧ response.term = node.currentTerm ∧
          response.success = true then
        (node.matchIndex[sender]?).map (fun matchIndex =>
          node.trackProgress sender (max matchIndex response.matchIndex))
      else none
  | .receive sender (.installSnapshotResponse response) =>
      if node.role = .leader ∧ response.term = node.currentTerm then
        (node.matchIndex[sender]?).map (fun matchIndex =>
          node.trackProgress sender
            (max matchIndex response.lastIncludedIndex))
      else none
  | _ => none

theorem commitTo_raised {candidate : Nat}
    (h : (node.commitTo candidate).commitIndex ≠ node.commitIndex) :
    node.commitIndex < (node.commitTo candidate).commitIndex ∧
      (node.commitTo candidate).commitIndex = candidate := by
  unfold commitTo at h ⊢
  split
  · rename_i hmoves
    exact ⟨hmoves.1, rfl⟩
  · rename_i hstays
    rw [if_neg hstays] at h
    exact (h rfl).elim

/-- A commit index that has moved has been raised. -/
theorem advanceCommitIndex_raises
    (h : node.advanceCommitIndex = some (node', effects))
    (hmoved : node'.commitIndex ≠ node.commitIndex) :
    ∃ counting, node.Raises counting node'.commitIndex := by
  obtain ⟨candidate, hcandidate, ⟨-, rfl, -⟩ |
    ⟨hjoint, last, rest, hrest, rfl, -⟩⟩ := advanceCommitIndex_cases h
  · obtain ⟨-, -, -, -, hcommit, -⟩ :=
      (node.commitTo candidate).retireIfExcluded_keeps
    rw [hcommit] at hmoved ⊢
    obtain ⟨hraised, hindex⟩ := commitTo_raised hmoved
    rw [hindex]
    exact ⟨node, .counted hcandidate hraised⟩
  · obtain ⟨candidate', hcandidate', rfl, -⟩ := advanceCommitIndex_plain
      (by rw [recomputeConfig_push_followUp]) hrest
    generalize hplain : ((node.commitTo candidate).push
      (node.commitTo candidate).followUp).recomputeConfig = plain at *
    obtain ⟨-, -, -, -, hcommit, -⟩ :=
      (plain.commitTo candidate').retireIfExcluded_keeps
    obtain ⟨-, -, -, -, hcommit', -⟩ :=
      (plain.commitTo candidate').retireIfExcluded.retireIfExcluded_keeps
    rw [hcommit', hcommit] at hmoved ⊢
    have hbefore : plain.commitIndex = (node.commitTo candidate).commitIndex := by
      rw [← hplain]
      rfl
    by_cases hsecond : (plain.commitTo candidate').commitIndex =
        plain.commitIndex
    · rw [hsecond, hbefore] at hmoved ⊢
      obtain ⟨hraised, hindex⟩ := commitTo_raised hmoved
      rw [hindex]
      exact ⟨node, .counted hcandidate hraised⟩
    · obtain ⟨hraised, hindex⟩ := commitTo_raised hsecond
      rw [hindex]
      refine ⟨plain, .followed hcandidate hjoint ?_⟩
      rw [hplain]
      exact .counted hcandidate' hraised

/-- On a proposal or a response, the commit index moves only by raising it. -/
theorem perform_raises {operation : Operation}
    (hadvances : operation.advancesCommit = true)
    (hperform : node.perform operation = some (node', effects))
    (hmoved : node'.commitIndex ≠ node.commitIndex) :
    ∃ advanced counting, node.advancing operation = some advanced ∧
      advanced.Raises counting node'.commitIndex := by
  have hresponse : ∀ sender matchIndex first,
      (node.trackProgress sender matchIndex).advanceCommitIndex =
        some (node', first) → ∃ counting,
          (node.trackProgress sender matchIndex).Raises counting
            node'.commitIndex :=
    fun _ _ first hadvance => advanceCommitIndex_raises hadvance hmoved
  have hignored : some (node, []) = some (node', effects) → False := by
    intro heq
    cases heq
    exact hmoved rfl
  cases operation with
  | propose command =>
      obtain ⟨answer, hanswer, hperform⟩ := Option.bind_eq_some_iff.mp hperform
      unfold propose at hanswer
      split at hanswer
      · cases hanswer
        exact (hignored hperform).elim
      rename_i hleader
      obtain ⟨_, happended, hanswer⟩ := Option.bind_eq_some_iff.mp hanswer
      cases hanswer
      cases hperform
      obtain ⟨⟨last, rest⟩, hadvance, happended⟩ :=
        Option.bind_eq_some_iff.mp happended
      cases happended
      obtain ⟨counting, hraises⟩ := advanceCommitIndex_raises hadvance hmoved
      exact ⟨_, counting, if_pos (by simpa using hleader), hraises⟩
  | proposeConfigChange newVoters =>
      obtain ⟨answer, hanswer, hperform⟩ := Option.bind_eq_some_iff.mp hperform
      unfold proposeConfigChange at hanswer
      split at hanswer
      · cases hanswer
        exact (hignored hperform).elim
      rename_i hserves
      simp only [not_or, ne_eq, not_not, List.isEmpty_iff] at hserves
      obtain ⟨⟨last, index, rest⟩, happended, hanswer⟩ :=
        Option.bind_eq_some_iff.mp hanswer
      cases hanswer
      cases hperform
      obtain ⟨⟨next, first⟩, hadvance, happended⟩ :=
        Option.bind_eq_some_iff.mp happended
      cases happended
      obtain ⟨counting, hraises⟩ := advanceCommitIndex_raises hadvance hmoved
      exact ⟨_, counting, if_pos hserves, hraises⟩
  | receive sender message =>
      have hstep : node.step (.step sender message) = some (node', effects) :=
        hperform
      cases message with
      | appendEntriesResponse response =>
          simp only [step] at hstep
          split at hstep
          · exact (hignored hstep).elim
          rcases onAppendEntriesResponse_cases hstep with ⟨-, hsame⟩ |
            ⟨hleader, hterm, hsuccess, matchIndex, first, hmatch, hadvance⟩
          · exact (hmoved hsame).elim
          · obtain ⟨counting, hraises⟩ := hresponse _ _ first hadvance
            refine ⟨_, counting, ?_, hraises⟩
            rw [advancing, if_pos ⟨hleader, hterm, hsuccess⟩, hmatch]
            rfl
      | installSnapshotResponse response =>
          simp only [step] at hstep
          split at hstep
          · exact (hignored hstep).elim
          rcases onInstallSnapshotResponse_cases hstep with ⟨-, hsame⟩ |
            ⟨hleader, hterm, matchIndex, first, hmatch, hadvance⟩
          · exact (hmoved hsame).elim
          · obtain ⟨counting, hraises⟩ := hresponse _ _ first hadvance
            refine ⟨_, counting, ?_, hraises⟩
            rw [advancing, if_pos ⟨hleader, hterm⟩, hmatch]
            rfl
      | requestVote request => cases hadvances
      | requestVoteResponse response => cases hadvances
      | appendEntries request => cases hadvances
      | installSnapshot request => cases hadvances
  | tick nextTimeout => cases hadvances
  | addLearner id => cases hadvances
  | removeLearner id => cases hadvances
  | compact upToIndex snapshotData => cases hadvances

/-! ### Distinct servers -/

/-- Of the distinct servers a configuration lists, more than half have `index`,
and the same of those it replaces. -/
def Backed (node : Node) (index : Nat) : Prop :=
  Majority node.currentConfig.voters.dedup (fun v => index ≤ node.matchOf v) ∧
    ∀ old, node.currentConfig.oldVoters = some old →
      Majority old.dedup (fun v => index ≤ node.matchOf v)

theorem distinct_plain {config : ClusterConfig} (h : config.Distinct) :
    ClusterConfig.Distinct ⟨config.voters, none⟩ :=
  ⟨h.1, nofun⟩

theorem Raises.backed {counting : Node} {index : Nat}
    (h : node.Raises counting index) (hdistinct : node.currentConfig.Distinct) :
    counting.Backed index := by
  induction h with
  | counted hcandidate _ =>
      obtain ⟨hnew, hold⟩ := commitCandidate_quorum hcandidate
      refine ⟨?_, fun old hsome => ?_⟩
      · rw [hdistinct.1.dedup]
        exact hnew
      · rw [(hdistinct.2 old hsome).dedup]
        exact hold old hsome
  | followed _ _ _ ih =>
      apply ih
      rw [recomputeConfig_push_followUp, commitTo_currentConfig]
      exact distinct_plain hdistinct

theorem BringsDistinct.brings {operation : Operation}
    (hcurrent : node.currentConfig.Distinct) (h : node.BringsDistinct operation) :
    node.Brings ClusterConfig.Distinct operation := by
  cases operation with
  | proposeConfigChange newVoters =>
      intro hleader haccepted config hconfig
      cases hconfig
      refine ⟨h hleader haccepted, ?_⟩
      rintro _ hold
      cases hold
      exact hcurrent.1
  | receive sender message => exact h
  | tick nextTimeout => trivial
  | propose command => trivial
  | addLearner id => trivial
  | removeLearner id => trivial
  | compact upToIndex snapshotData => trivial

theorem advancing_distinct {operation : Operation} {advanced : Node}
    (hnode : node.Configs ClusterConfig.Distinct) (hcurrent : node.ConfigCurrent)
    (hdistinct : node.BringsDistinct operation)
    (h : node.advancing operation = some advanced) :
    advanced.currentConfig.Distinct := by
  have hconfig := hnode.current hcurrent
  have hpush : ∀ (n : Node) (entry : LogEntry),
      n.Configs ClusterConfig.Distinct →
      entry.Configs ClusterConfig.Distinct →
      (n.push entry).recomputeConfig.currentConfig.Distinct := by
    intro n entry hn hentry
    have hpushed := hn.appends (n.push_appends entry) (by simpa using hentry)
    exact hpushed.current (configCurrent_recomputeConfig _)
  cases operation with
  | propose command =>
      simp only [advancing, Option.ite_none_right_eq_some] at h
      obtain ⟨-, h⟩ := h
      cases h
      refine hpush node _ hnode ?_
      intro config hcommand
      cases hcommand
  | proposeConfigChange newVoters =>
      simp only [advancing, Option.ite_none_right_eq_some] at h
      obtain ⟨⟨hleader, haccepted⟩, h⟩ := h
      cases h
      exact hpush _ _ ⟨hnode.log, hnode.snapshotConfig⟩
        (hdistinct.brings hconfig hleader haccepted)
  | receive sender message =>
      cases message with
      | appendEntriesResponse response =>
          simp only [advancing, Option.ite_none_right_eq_some] at h
          obtain ⟨matchIndex, -, rfl⟩ := Option.map_eq_some_iff.mp h.2
          exact hconfig
      | installSnapshotResponse response =>
          simp only [advancing, Option.ite_none_right_eq_some] at h
          obtain ⟨matchIndex, -, rfl⟩ := Option.map_eq_some_iff.mp h.2
          exact hconfig
      | requestVote request => cases h
      | requestVoteResponse response => cases h
      | appendEntries request => cases h
      | installSnapshot request => cases h
  | tick nextTimeout => cases h
  | addLearner id => cases h
  | removeLearner id => cases h
  | compact upToIndex snapshotData => cases h

/-- In a run that never brings in a list with a server twice, everything a
node raises its commit index to is backed by distinct servers. -/
theorem commits_backed {start : Node} {operations : List Operation}
    {batches : List (List Effect)} {operation : Operation}
    (hcurrent : start.ConfigCurrent)
    (hstart : start.Configs ClusterConfig.Distinct)
    (hrun : start.performAll operations = some (node, batches))
    (hearlier : start.Along BringsDistinct operations)
    (hdistinct : node.BringsDistinct operation)
    (hadvances : operation.advancesCommit = true)
    (hperform : node.perform operation = some (node', effects)) :
    (∀ advanced counting index, node.advancing operation = some advanced →
      advanced.Raises counting index → counting.Backed index) ∧
    (node'.commitIndex ≠ node.commitIndex → ∃ advanced counting,
      node.advancing operation = some advanced ∧
        advanced.Raises counting node'.commitIndex ∧
        counting.Backed node'.commitIndex) := by
  obtain ⟨hnode, hnodeCurrent⟩ : node.Configs ClusterConfig.Distinct ∧
      node.ConfigCurrent := by
    refine hearlier.invariant
      (fun n => n.Configs ClusterConfig.Distinct ∧ n.ConfigCurrent)
      ?_ ⟨hstart, hcurrent⟩ hrun
    rintro n n' op batch ⟨hn, hncurrent⟩ hop hstep
    exact ⟨hn.perform (fun _ => distinct_plain) hncurrent
      (hop.brings (hn.current hncurrent)) hstep, hncurrent.perform hstep⟩
  have hbacked : ∀ advanced counting index,
      node.advancing operation = some advanced →
      advanced.Raises counting index → counting.Backed index :=
    fun advanced counting index hadvancing hraises =>
      hraises.backed (advancing_distinct hnode hnodeCurrent hdistinct hadvancing)
  refine ⟨hbacked, fun hmoved => ?_⟩
  obtain ⟨advanced, counting, hadvancing, hraises⟩ :=
    perform_raises hadvances hperform hmoved
  exact ⟨advanced, counting, hadvancing, hraises,
    hbacked advanced counting _ hadvancing hraises⟩

theorem new_distinct {id : NodeId} {peers : List NodeId}
    {electionTimeout heartbeatInterval : Nat} {start : Node}
    (h : new id peers electionTimeout heartbeatInterval = .ok start)
    (hpeers : peers.Nodup) :
    start.ConfigCurrent ∧ start.Configs ClusterConfig.Distinct := by
  obtain ⟨-, -, -, -, -, hdurable, hcurrent⟩ := recover_ok h
  have hlog : start.log = [] := congrArg (fun d : Durable => d.log) hdurable
  have hconfig : start.snapshotConfig = ⟨peers, none⟩ :=
    congrArg (fun d : Durable => d.snapshot.config) hdurable
  refine ⟨hcurrent, by simp [hlog], ?_⟩
  rw [hconfig]
  exact ⟨hpeers, nofun⟩

/-- One of three servers is elected by the second and asked to move to
`newVoters`. -/
def electedThenChanged (newVoters : List NodeId) : List Operation :=
  [.tick 1, .receive ⟨2⟩ (.requestVoteResponse ⟨1, true⟩),
    .proposeConfigChange newVoters]

/-- The second server acknowledges the joint entry. -/
def acknowledgement : Operation :=
  .receive ⟨2⟩ (.appendEntriesResponse ⟨1, true, 1⟩)

theorem commits_backed_over_a_change :
    ∃ start node batches node' effects,
      new ⟨1⟩ [⟨1⟩, ⟨2⟩, ⟨3⟩] 1 1 = .ok start ∧
      start.performAll (electedThenChanged [⟨1⟩, ⟨2⟩]) = some (node, batches) ∧
      node.perform acknowledgement = some (node', effects) ∧
      node'.commitIndex = 1 ∧ ∃ advanced counting,
        node.advancing acknowledgement = some advanced ∧
          advanced.Raises counting 1 ∧ counting.Backed 1 := by
  obtain ⟨start, node, batches, hnew, hrun, hindex⟩ := performAll_of_check
    ⟨1⟩ [⟨1⟩, ⟨2⟩, ⟨3⟩] 1 1 (electedThenChanged [⟨1⟩, ⟨2⟩])
    (fun node => node.commitIndex = 0 ∧
      (node.perform acknowledgement).map (fun result =>
        result.1.commitIndex) = some 1) (by decide +kernel)
  obtain ⟨hbefore, hafter⟩ := hindex
  obtain ⟨⟨node', effects⟩, hperform, hcommit⟩ :=
    Option.map_eq_some_iff.mp hafter
  obtain ⟨hcurrent, hdistinct⟩ := new_distinct hnew (by decide)
  have hacknowledged : node.BringsDistinct acknowledgement := trivial
  have hbacked := (commits_backed hcurrent hdistinct hrun
    ⟨trivial, fun _ _ => ⟨trivial, fun _ _ => ⟨fun _ _ => by decide,
      fun _ _ => trivial⟩⟩⟩ hacknowledged rfl hperform).2
  have hcommit : node'.commitIndex = 1 := hcommit
  rw [hcommit, hbefore] at hbacked
  exact ⟨start, node, batches, node', effects, hnew, hrun, hperform, hcommit,
    hbacked (by decide)⟩

/-- Named twice in the new list, the second server alone is its majority. -/
theorem repeated_voter_is_counted_twice :
    ∃ start node batches node' effects advanced,
      new ⟨1⟩ [⟨1⟩, ⟨2⟩, ⟨3⟩] 1 1 = .ok start ∧
      start.performAll (electedThenChanged [⟨2⟩, ⟨2⟩, ⟨3⟩]) =
        some (node, batches) ∧
      node.perform acknowledgement = some (node', effects) ∧
      node.commitIndex = 0 ∧ node'.commitIndex = 1 ∧
      node.advancing acknowledgement = some advanced ∧
      advanced.Raises advanced 1 ∧ ¬ advanced.Backed 1 := by
  obtain ⟨start, node, batches, hnew, hrun, hbefore, hafter⟩ :=
    performAll_of_check ⟨1⟩ [⟨1⟩, ⟨2⟩, ⟨3⟩] 1 1
      (electedThenChanged [⟨2⟩, ⟨2⟩, ⟨3⟩])
    (fun node => node.commitIndex = 0 ∧
      ((node.perform acknowledgement).bind (fun result =>
        (node.advancing acknowledgement).map (fun advanced =>
          decide (result.1.commitIndex = 1 ∧
            advanced.commitCandidate = some 1 ∧
            advanced.commitIndex < (advanced.commitTo 1).commitIndex ∧
            ¬ Majority advanced.currentConfig.voters.dedup
              (fun v => 1 ≤ advanced.matchOf v))))) = some true)
    (by decide +kernel)
  obtain ⟨⟨node', effects⟩, hperform, hafter⟩ :=
    Option.bind_eq_some_iff.mp hafter
  obtain ⟨advanced, hadvancing, hafter⟩ := Option.map_eq_some_iff.mp hafter
  obtain ⟨hcommit, hcandidate, hraised, hminority⟩ :=
    of_decide_eq_true hafter
  exact ⟨start, node, batches, node', effects, advanced, hnew, hrun, hperform,
    hbefore, hcommit, hadvancing, .counted hcandidate hraised,
    fun hbacked => hminority hbacked.1⟩

end Node

end Kurogane.Raft
