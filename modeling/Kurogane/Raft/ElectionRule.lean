import Kurogane.Raft.Quorums
import Kurogane.Raft.Tracking

/-!
When a candidate wins. The source asks for a majority of the voters and, while
a transition is in flight, one of the old voters too. It counts the votes of
members for the first and matches them against the old set for the second, and
it asks the voters alone. Both are compared with the rule.
-/

namespace Kurogane.Raft

open Kurogane.Consensus

/-- The responses to a candidate of `term`, in the order they arrive. -/
def ballots (term : Nat) (votes : List (NodeId × Bool)) : List Operation :=
  votes.map (fun (sender, granted) =>
    .receive sender (.requestVoteResponse ⟨term, granted⟩))

/-- The candidate voted for itself, `voter` was granted by a response. -/
def Granted (candidate : NodeId) (votes : List (NodeId × Bool)) (voter : NodeId) :
    Prop :=
  voter = candidate ∨ (voter, true) ∈ votes

instance (candidate : NodeId) (votes : List (NodeId × Bool)) :
    DecidablePred (Granted candidate votes) :=
  fun _ => inferInstanceAs (Decidable (_ ∨ _))

namespace Node

variable {node node' : Node}

/-- The candidate and the members that granted it. -/
def grantedMembers (node : Node) (votes : List (NodeId × Bool)) : NodeSet :=
  .ofList (node.id :: (votes.filter (fun vote =>
    vote.2 && node.isMember vote.1)).map Prod.fst)

/-- Provided a majority of the old voters granted the candidate, its members'
votes number a quorum exactly when a majority of the voters is among them. -/
def VotesAreVoters (node : Node) (votes : List (NodeId × Bool)) : Prop :=
  (∀ old, node.currentConfig.oldVoters = some old →
    Majority old (Granted node.id votes)) →
  (node.quorumSize ≤ (node.grantedMembers votes).size ↔
    Majority node.currentConfig.voters (Granted node.id votes))

theorem mem_grantedMembers {votes : List (NodeId × Bool)} {voter : NodeId} :
    voter ∈ node.grantedMembers votes ↔
      voter = node.id ∨ (voter, true) ∈ votes ∧ node.isMember voter = true := by
  rw [grantedMembers, Std.ExtTreeSet.mem_ofList, List.contains_iff_mem,
    List.mem_cons]
  apply or_congr_right
  constructor
  · intro h
    obtain ⟨⟨sender, granted⟩, hvote, rfl⟩ := List.mem_map.mp h
    obtain ⟨hmem, hcounts⟩ := List.mem_filter.mp hvote
    rw [Bool.and_eq_true] at hcounts
    obtain ⟨hgranted, hmember⟩ := hcounts
    cases hgranted
    exact ⟨hmem, hmember⟩
  · rintro ⟨hmem, hmember⟩
    refine List.mem_map.mpr ⟨(voter, true), List.mem_filter.mpr ⟨hmem, ?_⟩, rfl⟩
    simpa using hmember

/-- For a voter of either set, its vote is counted exactly when granted. -/
theorem mem_grantedMembers_of_voter {votes : List (NodeId × Bool)}
    {voter : NodeId} (hvoter : node.currentConfig.isVoter voter = true) :
    voter ∈ node.grantedMembers votes ↔ Granted node.id votes voter := by
  have hmember : node.isMember voter = true := by
    rw [isMember, hvoter, Bool.true_or]
  rw [mem_grantedMembers]
  simp only [hmember, and_true]
  rfl

theorem isVoter_old {config : ClusterConfig} {old : List NodeId} {voter : NodeId}
    (hold : config.oldVoters = some old) (hmem : voter ∈ old) :
    config.isVoter voter = true := by
  simp [ClusterConfig.isVoter, hold, hmem]

/-! ### Counting responses -/

/-- A leader ignores what is left of its election. -/
theorem performAll_ballots_leader (hleader : node.role = .leader)
    (votes : List (NodeId × Bool)) :
    ∃ batches, node.performAll (ballots node.currentTerm votes) =
      some (node, batches) := by
  induction votes with
  | nil => exact ⟨[], rfl⟩
  | cons vote rest ih =>
      obtain ⟨sender, granted⟩ := vote
      obtain ⟨batches, hrest⟩ := ih
      have hvote : node.perform (.receive sender
          (.requestVoteResponse ⟨node.currentTerm, granted⟩)) =
            some (node, []) := by
        simp [perform, step, onRequestVoteResponse, hleader]
      refine ⟨[] :: batches, ?_⟩
      simp only [ballots, List.map_cons, performAll] at hrest ⊢
      rw [hvote, Option.bind_eq_bind, Option.bind_some, hrest]
      rfl

/-- `node` with the votes `counted` so far. -/
def counting (node : Node) (counted : NodeSet) : Node :=
  { node with votesGranted := counted }

theorem onRequestVoteResponse_granted (hcandidate : node.role = .candidate)
    (sender : NodeId) :
    node.onRequestVoteResponse sender ⟨node.currentTerm, true⟩ =
      if (node.counting (node.votesGranted.insert sender)).hasQuorum then
        (node.counting (node.votesGranted.insert sender)).becomeLeader
      else some (node.counting (node.votesGranted.insert sender), []) := by
  unfold onRequestVoteResponse
  rw [if_neg (lt_irrefl _), if_neg (by simp [hcandidate]), if_pos rfl]
  rfl

/-- A vote that is refused, or cast by no member, changes nothing. -/
theorem perform_ballot_ignored (hcandidate : node.role = .candidate)
    {sender : NodeId} {granted : Bool}
    (hignored : (granted && node.isMember sender) = false) :
    node.perform (.receive sender
      (.requestVoteResponse ⟨node.currentTerm, granted⟩)) = some (node, []) := by
  simp only [perform, step]
  split
  · rfl
  · rename_i hmember
    simp only [Bool.not_eq_true', Bool.not_eq_false] at hmember
    rw [hmember, Bool.and_true] at hignored
    simp [onRequestVoteResponse, hcandidate, hignored]

theorem perform_ballot_counted (hcandidate : node.role = .candidate)
    {sender : NodeId} (hmember : node.isMember sender = true) :
    node.perform (.receive sender
        (.requestVoteResponse ⟨node.currentTerm, true⟩)) =
      if (node.counting (node.votesGranted.insert sender)).hasQuorum then
        (node.counting (node.votesGranted.insert sender)).becomeLeader
      else some (node.counting (node.votesGranted.insert sender), []) := by
  rw [← onRequestVoteResponse_granted hcandidate]
  simp [perform, step, hmember]

theorem performAll_ballots_cons {next last : Node} {sender : NodeId}
    {granted : Bool} {rest : List (NodeId × Bool)} {effects : List Effect}
    {batches : List (List Effect)}
    (hperform : node.perform (.receive sender
      (.requestVoteResponse ⟨node.currentTerm, granted⟩)) = some (next, effects))
    (hterm : next.currentTerm = node.currentTerm)
    (hrest : next.performAll (ballots next.currentTerm rest) =
      some (last, batches)) :
    node.performAll (ballots node.currentTerm ((sender, granted) :: rest)) =
      some (last, effects :: batches) := by
  rw [hterm] at hrest
  simp only [ballots, List.map_cons, performAll] at hrest ⊢
  rw [hperform, Option.bind_eq_bind, Option.bind_some, hrest]
  rfl

/-- A candidate leads in the end exactly when all votes it counted together
are a quorum. -/
theorem performAll_ballots (votes : List (NodeId × Bool)) :
    ∀ (node : Node) (counted : NodeSet), node.role = .candidate →
      node.hasQuorum = false →
      (∀ v, v ∈ counted ↔ v ∈ node.votesGranted ∨
        (v, true) ∈ votes ∧ node.isMember v = true) →
      ∃ last batches, node.performAll (ballots node.currentTerm votes) =
          some (last, batches) ∧
        (last.role = .leader ↔ (node.counting counted).hasQuorum = true) := by
  induction votes with
  | nil =>
      intro node counted hcandidate hquorum hcounted
      have hsame : counted = node.votesGranted := by
        apply Std.ExtTreeSet.ext_mem
        simpa using hcounted
      have hnode : node.counting counted = node := by
        rw [hsame]
        rfl
      refine ⟨node, [], rfl, ?_⟩
      rw [hnode, hcandidate, hquorum]
      simp
  | cons vote rest ih =>
      intro node counted hcandidate hquorum hcounted
      obtain ⟨sender, granted⟩ := vote
      have hcons : ∀ v, (v, true) ∈ (sender, granted) :: rest ↔
          v = sender ∧ granted = true ∨ (v, true) ∈ rest := by
        intro v
        rw [List.mem_cons, Prod.mk.injEq, eq_comm (a := true)]
      cases hcounts : granted && node.isMember sender with
      | false =>
          obtain ⟨last, batches, hrest, hiff⟩ := ih node counted hcandidate hquorum (by
            intro v
            rw [hcounted v, hcons v]
            apply or_congr_right
            apply and_congr_left
            intro hmember
            apply or_iff_right
            rintro ⟨rfl, rfl⟩
            rw [hmember] at hcounts
            cases hcounts)
          exact ⟨last, _, performAll_ballots_cons
            (perform_ballot_ignored hcandidate hcounts) rfl hrest, hiff⟩
      | true =>
          obtain ⟨rfl, hmember⟩ : granted = true ∧ node.isMember sender = true := by
            simpa using hcounts
          have hperform := perform_ballot_counted hcandidate hmember
          have hmem : ∀ v, v ∈ counted ↔
              v ∈ node.votesGranted.insert sender ∨
                (v, true) ∈ rest ∧ node.isMember v = true := by
            intro v
            rw [hcounted v, hcons v, Std.ExtTreeSet.mem_insert,
              compare_eq_iff_eq, eq_comm (a := sender)]
            constructor
            · rintro (h | ⟨⟨rfl, -⟩ | h, hv⟩)
              · exact Or.inl (Or.inr h)
              · exact Or.inl (Or.inl rfl)
              · exact Or.inr ⟨h, hv⟩
            · rintro ((rfl | h) | ⟨h, hv⟩)
              · exact Or.inr ⟨Or.inl ⟨rfl, rfl⟩, hmember⟩
              · exact Or.inl h
              · exact Or.inr ⟨Or.inr h, hv⟩
          cases hwon : (node.counting
              (node.votesGranted.insert sender)).hasQuorum with
          | false =>
              rw [hwon, if_neg Bool.false_ne_true] at hperform
              obtain ⟨last, batches, hrest, hiff⟩ := ih
                (node.counting (node.votesGranted.insert sender)) counted
                hcandidate hwon hmem
              exact ⟨last, _, performAll_ballots_cons hperform rfl hrest, hiff⟩
          | true =>
              obtain ⟨leader, effects, hleader, hrole, hterm⟩ := becomeLeader_some
                (node.counting (node.votesGranted.insert sender))
              rw [hwon, if_pos rfl, hleader] at hperform
              obtain ⟨batches, hrest⟩ := performAll_ballots_leader hrole rest
              refine ⟨leader, _, performAll_ballots_cons hperform hterm hrest,
                iff_of_true hrole ?_⟩
              exact hasQuorum_mono
                (node.counting (node.votesGranted.insert sender)) rfl
                (fun v hv => (hmem v).mpr (Or.inl hv)) hwon

theorem mem_campaign_votes (nextTimeout : Nat) {v : NodeId} :
    v ∈ (node.campaign nextTimeout).votesGranted ↔ v = node.id := by
  change v ∈ (∅ : NodeSet).insert node.id ↔ _
  rw [Std.ExtTreeSet.mem_insert, compare_eq_iff_eq]
  simp [eq_comm]

/-- An eligible node whose election starts leads in the end exactly when it and
the members that granted it are a quorum. -/
theorem startElection_ballots (heligible : node.currentConfig.isVoter node.id = true)
    (nextTimeout : Nat) (votes : List (NodeId × Bool)) :
    ∃ candidate effects last batches,
      node.startElection nextTimeout = some (candidate, effects) ∧
      candidate.performAll (ballots candidate.currentTerm votes) =
        some (last, batches) ∧
      (last.role = .leader ↔
        (node.counting (node.grantedMembers votes)).hasQuorum = true) := by
  unfold startElection
  rw [heligible]
  simp only [Bool.not_true, Bool.false_eq_true, if_false]
  cases hquorum : (node.campaign nextTimeout).hasQuorum with
  | true =>
      obtain ⟨leader, effects, hleader, hrole, -⟩ :=
        becomeLeader_some (node.campaign nextTimeout)
      obtain ⟨batches, hrest⟩ := performAll_ballots_leader hrole votes
      refine ⟨leader, _, leader, batches, by rw [if_pos rfl, hleader]; rfl, hrest,
        iff_of_true hrole ?_⟩
      refine hasQuorum_mono (node.campaign nextTimeout) rfl ?_ hquorum
      intro v hv
      exact mem_grantedMembers.mpr (Or.inl ((mem_campaign_votes nextTimeout).mp hv))
  | false =>
      obtain ⟨last, batches, hrest, hiff⟩ := performAll_ballots votes (node.campaign nextTimeout)
        (node.grantedMembers votes) rfl hquorum (by
          intro v
          rw [mem_campaign_votes nextTimeout]
          exact mem_grantedMembers)
      exact ⟨_, _, last, batches, by rw [if_neg Bool.false_ne_true], hrest, hiff⟩

/-! ### The rule -/

theorem counting_hasQuorum {counted : NodeSet} :
    (node.counting counted).hasQuorum = true ↔
      node.quorumSize ≤ counted.size ∧
        ∀ old, node.currentConfig.oldVoters = some old →
          Majority old (fun v => v ∈ counted) :=
  hasQuorum_iff

theorem majority_grantedMembers {votes : List (NodeId × Bool)} {old : List NodeId}
    (hold : node.currentConfig.oldVoters = some old) :
    Majority old (fun v => v ∈ node.grantedMembers votes) ↔
      Majority old (Granted node.id votes) :=
  Majority.congr (fun _ hmem =>
    mem_grantedMembers_of_voter (isVoter_old hold hmem))

/-- An election is decided by the rule of dual majorities exactly when the
votes it counts stand for voters. -/
theorem dual_majority_iff (heligible : node.currentConfig.isVoter node.id = true)
    (nextTimeout : Nat) (votes : List (NodeId × Bool)) :
    ∃ candidate effects last batches,
      node.startElection nextTimeout = some (candidate, effects) ∧
      candidate.performAll (ballots candidate.currentTerm votes) =
        some (last, batches) ∧
      ((last.role = .leader ↔
          configQuorum node.currentConfig (Granted node.id votes)) ↔
        node.VotesAreVoters votes) := by
  obtain ⟨candidate, effects, last, batches, hstart, hrun, hleader⟩ :=
    startElection_ballots heligible nextTimeout votes
  refine ⟨candidate, effects, last, batches, hstart, hrun, ?_⟩
  have hold : (∀ old, node.currentConfig.oldVoters = some old →
      Majority old (fun v => v ∈ node.grantedMembers votes)) ↔
        ∀ old, node.currentConfig.oldVoters = some old →
          Majority old (Granted node.id votes) :=
    forall_congr' (fun old => imp_congr_right (fun hsome =>
      majority_grantedMembers hsome))
  rw [hleader, counting_hasQuorum, hold]
  unfold configQuorum VotesAreVoters
  tauto

/-- One of three servers leads, begins to move the cluster to `newVoters`, and
hears of a later term. -/
def demotedDuringChange (newVoters : List NodeId) : List Operation :=
  [.tick 1, .receive ⟨2⟩ (.requestVoteResponse ⟨1, true⟩),
    .proposeConfigChange newVoters,
    .receive ⟨3⟩ (.appendEntriesResponse ⟨2, false, 0⟩)]

theorem dual_majority_for_an_excluded_leader :
    ∃ start node batches candidate effects last batches',
      new ⟨1⟩ [⟨1⟩, ⟨2⟩, ⟨3⟩] 1 1 = .ok start ∧
      start.performAll (demotedDuringChange [⟨2⟩, ⟨3⟩, ⟨4⟩]) =
        some (node, batches) ∧
      node.startElection 1 = some (candidate, effects) ∧
      candidate.performAll (ballots candidate.currentTerm
        [(⟨2⟩, true), (⟨4⟩, true)]) = some (last, batches') ∧
      (last.role = .leader ↔ configQuorum node.currentConfig
        (Granted node.id [(⟨2⟩, true), (⟨4⟩, true)])) := by
  obtain ⟨start, node, batches, hnew, hrun, heligible, hvotes⟩ :=
    performAll_of_check ⟨1⟩ [⟨1⟩, ⟨2⟩, ⟨3⟩] 1 1
      (demotedDuringChange [⟨2⟩, ⟨3⟩, ⟨4⟩])
      (fun node => node.currentConfig.isVoter node.id = true ∧
        node.quorumSize ≤
          (node.grantedMembers [(⟨2⟩, true), (⟨4⟩, true)]).size ∧
        Majority node.currentConfig.voters
          (Granted node.id [(⟨2⟩, true), (⟨4⟩, true)])) (by decide +kernel)
  obtain ⟨candidate, effects, last, batches', hstart, hresponses, hiff⟩ :=
    dual_majority_iff heligible 1 [(⟨2⟩, true), (⟨4⟩, true)]
  exact ⟨start, node, batches, candidate, effects, last, batches', hnew, hrun,
    hstart, hresponses, hiff.mpr (fun _ => iff_of_true hvotes.1 hvotes.2)⟩

/-- Outside the new set itself, it is elected by the vote of the second server
alone, which is no majority of the three new voters. -/
theorem outsider_counts_for_the_new_voters :
    ∃ start node batches candidate effects last batches',
      new ⟨1⟩ [⟨1⟩, ⟨2⟩, ⟨3⟩] 1 1 = .ok start ∧
      start.performAll (demotedDuringChange [⟨2⟩, ⟨3⟩, ⟨4⟩]) =
        some (node, batches) ∧
      node.startElection 1 = some (candidate, effects) ∧
      candidate.role = .candidate ∧
      candidate.performAll (ballots candidate.currentTerm [(⟨2⟩, true)]) =
        some (last, batches') ∧
      last.role = .leader ∧
      ¬ configQuorum node.currentConfig (Granted node.id [(⟨2⟩, true)]) := by
  obtain ⟨start, node, batches, hnew, hrun, hminority, hafter⟩ :=
    performAll_of_check ⟨1⟩ [⟨1⟩, ⟨2⟩, ⟨3⟩] 1 1
      (demotedDuringChange [⟨2⟩, ⟨3⟩, ⟨4⟩])
      (fun node =>
        ¬ configQuorum node.currentConfig (Granted node.id [(⟨2⟩, true)]) ∧
        ((node.startElection 1).bind (fun started =>
          (started.1.performAll (ballots started.1.currentTerm
            [(⟨2⟩, true)])).map (fun result =>
              decide (started.1.role = .candidate ∧
                result.1.role = .leader)))) = some true) (by decide +kernel)
  obtain ⟨⟨candidate, effects⟩, hstart, hafter⟩ :=
    Option.bind_eq_some_iff.mp hafter
  obtain ⟨⟨last, batches'⟩, hresponses, hafter⟩ :=
    Option.map_eq_some_iff.mp hafter
  obtain ⟨hcandidate, hleader⟩ := of_decide_eq_true hafter
  exact ⟨start, node, batches, candidate, effects, last, batches', hnew, hrun,
    hstart, hcandidate, hresponses, hleader, hminority⟩

/-! ### The votes asked for -/

/-- The candidate and all it asks for a vote. -/
def solicited (node : Node) : NodeSet :=
  .ofList (node.id :: node.currentConfig.voters)

theorem mem_solicited {v : NodeId} :
    v ∈ node.solicited ↔ v = node.id ∨ v ∈ node.currentConfig.voters := by
  rw [solicited, Std.ExtTreeSet.mem_ofList, List.contains_iff_mem,
    List.mem_cons]

/-- The servers asked number a quorum, and contain a majority of the old
voters during a transition. -/
def SolicitsQuorum (node : Node) : Prop :=
  node.quorumSize ≤ node.solicited.size ∧
    ∀ old, node.currentConfig.oldVoters = some old →
      Majority old (fun v => v ∈ node.solicited)

/-- The servers that `effects` ask for a vote. -/
def voteRecipients (effects : List Effect) : List NodeId :=
  effects.filterMap (fun effect =>
    match effect with
    | .send receiver (.requestVote _) => some receiver
    | _ => none)

theorem voteRecipients_requestVotes (node : Node) :
    voteRecipients node.requestVotes =
      node.currentConfig.voters.filter (fun peer => peer ≠ node.id) := by
  unfold voteRecipients requestVotes
  rw [List.filterMap_map]
  exact List.filterMap_eq_map_iff_forall_eq_some.mpr (fun _ _ => rfl) |>.trans
    (List.map_id _)

theorem startElection_solicits (node : Node)
    (heligible : node.currentConfig.isVoter node.id = true) (nextTimeout : Nat) :
    ∃ candidate effects,
      node.startElection nextTimeout = some (candidate, effects) ∧
      ∀ repliers : List NodeId, 
          (∀ v, v ∈ repliers ↔ v ∈ voteRecipients effects) →
        ∃ last batches, candidate.performAll (ballots candidate.currentTerm
            (repliers.map (fun v => (v, true)))) = some (last, batches) ∧
          (last.role = .leader ↔ node.SolicitsQuorum) := by
  unfold startElection
  rw [heligible]
  simp only [Bool.not_true, Bool.false_eq_true, if_false]
  cases hquorum : (node.campaign nextTimeout).hasQuorum with
  | true =>
      obtain ⟨leader, effects, hleader, hrole, -⟩ :=
        becomeLeader_some (node.campaign nextTimeout)
      refine ⟨leader, _, by rw [if_pos rfl, hleader]; rfl, fun repliers _ => ?_⟩
      obtain ⟨batches, hrest⟩ := performAll_ballots_leader hrole
        (repliers.map (fun v => (v, true)))
      refine ⟨leader, batches, hrest, iff_of_true hrole ?_⟩
      apply counting_hasQuorum.mp
      refine hasQuorum_mono (node.campaign nextTimeout) rfl ?_ hquorum
      intro v hv
      exact mem_solicited.mpr (Or.inl ((mem_campaign_votes nextTimeout).mp hv))
  | false =>
      refine ⟨_, _, by rw [if_neg Bool.false_ne_true], fun repliers hrepliers => ?_⟩
      have hasked : ∀ v, v ∈ repliers ↔
          v ∈ node.currentConfig.voters ∧ v ≠ node.id := by
        intro v
        have hsent : voteRecipients ((node.campaign nextTimeout).persistHardState ::
            (node.campaign nextTimeout).requestVotes) =
              node.currentConfig.voters.filter (fun peer => peer ≠ node.id) :=
          (node.campaign nextTimeout).voteRecipients_requestVotes
        rw [hrepliers v, hsent, List.mem_filter]
        simp
      obtain ⟨last, batches, hrest, hiff⟩ := performAll_ballots
        (repliers.map (fun v => (v, true))) (node.campaign nextTimeout)
        node.solicited rfl hquorum (by
          intro v
          rw [mem_campaign_votes nextTimeout, mem_solicited]
          constructor
          · intro hv
            by_cases heq : v = node.id
            · exact Or.inl heq
            · have hvoter := hv.resolve_left heq
              refine Or.inr ⟨List.mem_map.mpr ⟨v, (hasked v).mpr ⟨hvoter, heq⟩, rfl⟩, ?_⟩
              change node.isMember v = true
              simp [isMember, ClusterConfig.isVoter, hvoter]
          · rintro (heq | ⟨hmem, -⟩)
            · exact Or.inl heq
            · obtain ⟨replier, hreplier, heq⟩ := List.mem_map.mp hmem
              cases heq
              exact Or.inr ((hasked v).mp hreplier).1)
      exact ⟨last, batches, hrest, hiff.trans counting_hasQuorum⟩

/-- A campaign that is granted every vote it asks for is won exactly when it
asks enough servers. -/
theorem solicited_votes_win_iff (hrole : node.role ≠ .leader)
    (heligible : node.currentConfig.isVoter node.id = true)
    (htimeout : node.electionTimeout ≤ node.electionElapsed + 1)
    (nextTimeout : Nat) :
    ∃ candidate effects,
      node.step (.tick nextTimeout) = some (candidate, effects) ∧
      ∀ repliers : List NodeId, 
          (∀ v, v ∈ repliers ↔ v ∈ voteRecipients effects) →
        ∃ last batches, candidate.performAll (ballots candidate.currentTerm
            (repliers.map (fun v => (v, true)))) = some (last, batches) ∧
          (last.role = .leader ↔ node.SolicitsQuorum) := by
  simp only [step, onTick, if_neg hrole]
  rw [if_neg (Nat.not_lt.mpr htimeout)]
  exact startElection_solicits { node with
    electionElapsed := node.electionElapsed + 1
    leaderContactElapsed := node.leaderContactElapsed + 1 } heligible nextTimeout

theorem solicited_votes_win_in_overlapping_sets :
    ∃ start node batches candidate effects last batches',
      new ⟨1⟩ [⟨1⟩, ⟨2⟩, ⟨3⟩] 1 1 = .ok start ∧
      start.performAll (demotedDuringChange [⟨1⟩, ⟨2⟩, ⟨4⟩]) =
        some (node, batches) ∧
      node.step (.tick 1) = some (candidate, effects) ∧
      candidate.performAll (ballots candidate.currentTerm
        ((voteRecipients effects).map (fun v => (v, true)))) =
          some (last, batches') ∧
      (last.role = .leader ↔ node.SolicitsQuorum) ∧ node.SolicitsQuorum := by
  obtain ⟨start, node, batches, hnew, hrun, ⟨hrole, heligible, htimeout⟩,
      hsolicits⟩ :=
    performAll_of_check ⟨1⟩ [⟨1⟩, ⟨2⟩, ⟨3⟩] 1 1
      (demotedDuringChange [⟨1⟩, ⟨2⟩, ⟨4⟩])
      (fun node => (node.role ≠ .leader ∧
          node.currentConfig.isVoter node.id = true ∧
          node.electionTimeout ≤ node.electionElapsed + 1) ∧
        node.quorumSize ≤ node.solicited.size ∧
          ∀ old ∈ node.currentConfig.oldVoters,
            Majority old (fun v => v ∈ node.solicited)) (by decide +kernel)
  obtain ⟨candidate, effects, hstep, hwins⟩ :=
    solicited_votes_win_iff hrole heligible htimeout 1
  obtain ⟨last, batches', hrest, hiff⟩ :=
    hwins (voteRecipients effects) (fun _ => Iff.rfl)
  exact ⟨start, node, batches, candidate, effects, last, batches', hnew, hrun,
    hstep, hrest, hiff, hsolicits⟩

/-- A server that stays a voter asks the two new ones alone, and with their
votes it has one of the three old voters. -/
theorem old_voters_are_not_asked :
    ∃ start node batches candidate effects last batches',
      new ⟨1⟩ [⟨1⟩, ⟨2⟩, ⟨3⟩] 1 1 = .ok start ∧
      start.performAll (demotedDuringChange [⟨1⟩, ⟨4⟩, ⟨5⟩]) =
        some (node, batches) ∧
      (node.role ≠ .leader ∧ node.currentConfig.isVoter node.id = true ∧
        node.electionTimeout ≤ node.electionElapsed + 1) ∧
      node.step (.tick 1) = some (candidate, effects) ∧
      voteRecipients effects = [⟨4⟩, ⟨5⟩] ∧
      candidate.performAll (ballots candidate.currentTerm
        ([⟨4⟩, ⟨5⟩].map (fun v => (v, true)))) = some (last, batches') ∧
      last.role = .candidate := by
  obtain ⟨start, node, batches, hnew, hrun, heligible, hafter⟩ :=
    performAll_of_check ⟨1⟩ [⟨1⟩, ⟨2⟩, ⟨3⟩] 1 1
      (demotedDuringChange [⟨1⟩, ⟨4⟩, ⟨5⟩])
      (fun node => (node.role ≠ .leader ∧
          node.currentConfig.isVoter node.id = true ∧
          node.electionTimeout ≤ node.electionElapsed + 1) ∧
        ((node.step (.tick 1)).bind (fun started =>
          (started.1.performAll (ballots started.1.currentTerm
            ([⟨4⟩, ⟨5⟩].map (fun v => (v, true))))).map (fun result =>
              decide (voteRecipients started.2 = [⟨4⟩, ⟨5⟩] ∧
                result.1.role = .candidate)))) = some true) (by decide +kernel)
  obtain ⟨⟨candidate, effects⟩, hstep, hafter⟩ :=
    Option.bind_eq_some_iff.mp hafter
  obtain ⟨⟨last, batches'⟩, hresponses, hafter⟩ :=
    Option.map_eq_some_iff.mp hafter
  obtain ⟨hasked, hrole⟩ := of_decide_eq_true hafter
  exact ⟨start, node, batches, candidate, effects, last, batches', hnew, hrun,
    heligible, hstep, hasked, hresponses, hrole⟩

end Node

end Kurogane.Raft
