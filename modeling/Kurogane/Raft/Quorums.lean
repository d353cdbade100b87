import Kurogane.Consensus.Majority
import Kurogane.Raft.Transitions

/-!
The majorities a node decides by. An election counts granted votes, a commit
sorts acknowledged indices and picks one; both are compared here with the rule
they stand for, a majority of the voters and, during a transition, one of the
old voters as well.
-/

namespace Kurogane.Raft

open Kurogane.Consensus

/-- The quorum the protocol asks for: a majority of the voters and, during a
transition, one of the old voters as well. -/
def configQuorum (config : ClusterConfig) (P : NodeId → Prop) : Prop :=
  Majority config.voters P ∧
    ∀ old, config.oldVoters = some old → Majority old P

instance (config : ClusterConfig) (P : NodeId → Prop) [DecidablePred P] :
    Decidable (configQuorum config P) :=
  inferInstanceAs (Decidable (Majority config.voters P ∧
    ∀ old ∈ config.oldVoters, Majority old P))

theorem majorityReached_iff (set : List NodeId) (reached : NodeId → Bool) :
    majorityReached set reached = true ↔
      Majority set (fun v => reached v = true) := by
  rw [majority_iff]
  simp only [majorityReached, decide_eq_true_eq, List.countP_eq_length_filter,
    Bool.decide_eq_true]
  change _ ↔ set.length < 2 * (set.filter reached).length
  omega

/-- Majorities of `config` can be counted: neither set of voters is empty. -/
def ClusterConfig.Countable (config : ClusterConfig) : Prop :=
  config.voters ≠ [] ∧ config.oldVoters ≠ some []

theorem ClusterConfig.Countable.plain {config : ClusterConfig}
    (h : config.Countable) : (⟨config.voters, none⟩ : ClusterConfig).Countable :=
  ⟨h.1, nofun⟩

theorem ClusterConfig.Countable.old {config : ClusterConfig} (h : config.Countable) :
    ∀ old, config.oldVoters = some old → old ≠ [] := by
  rintro old hold rfl
  exact h.2 hold

namespace Node

variable {node : Node}

/-! ### Counting votes -/

theorem length_le_size {members : List NodeId} {set : NodeSet}
    (hnodup : members.Nodup) (hsub : ∀ v ∈ members, v ∈ set) :
    members.length ≤ set.size := by
  rw [← Std.ExtTreeSet.length_toList]
  refine (List.subperm_of_subset hnodup (fun v hv => ?_)).length_le
  exact Std.ExtTreeSet.mem_toList.mpr (hsub v hv)

theorem size_le_of_subset {first second : NodeSet}
    (hsub : ∀ v ∈ first, v ∈ second) : first.size ≤ second.size := by
  rw [← Std.ExtTreeSet.length_toList (t := first)]
  apply length_le_size
  · refine Std.ExtTreeSet.distinct_toList.imp (fun hne heq => hne ?_)
    rw [heq]
    exact compare_eq_iff_eq.mpr rfl
  · intro v hv
    exact hsub v (Std.ExtTreeSet.mem_toList.mp hv)

/-- The new voters are outnumbered by granted votes, whoever cast them; the
old voters are counted. -/
theorem hasQuorum_iff : node.hasQuorum = true ↔
    node.quorumSize ≤ node.votesGranted.size ∧
      ∀ old, node.currentConfig.oldVoters = some old →
        Majority old (fun v => v ∈ node.votesGranted) := by
  unfold hasQuorum
  cases hold : node.currentConfig.oldVoters with
  | none => simp
  | some old =>
      simp only [Bool.and_eq_true, decide_eq_true_eq, majorityReached_iff,
        Std.ExtTreeSet.contains_iff_mem, Option.some.injEq, forall_eq']

theorem hasQuorum_mono (node : Node) {node' : Node}
    (hconfig : node'.currentConfig = node.currentConfig)
    (hvotes : ∀ v ∈ node.votesGranted, v ∈ node'.votesGranted)
    (h : node.hasQuorum = true) : node'.hasQuorum = true := by
  rw [hasQuorum_iff] at h ⊢
  unfold quorumSize at h ⊢
  rw [hconfig]
  exact ⟨h.1.trans (size_le_of_subset hvotes),
    fun old hold => (h.2 old hold).mono hvotes⟩

/-! ### Counting acknowledgements -/

/-- An index is at most the one picked if and only if a majority has reached
it. -/
theorem le_majorityIndex_iff {voters : List NodeId} {index count : Nat}
    (hindex : node.majorityIndex voters = some index) :
    count ≤ index ↔ Majority voters (fun v => count ≤ node.matchOf v) := by
  unfold majorityIndex at hindex
  split at hindex
  · cases hindex
  · constructor
    · exact majority_of_sorted_threshold hindex
    · exact le_sorted_threshold hindex

theorem majorityIndex_some (node : Node) {voters : List NodeId} (hvoters : voters ≠ []) :
    ∃ index, node.majorityIndex voters = some index := by
  have hpos : 0 < voters.length := List.length_pos_iff.mpr hvoters
  unfold majorityIndex
  rw [if_neg (by simpa using hvoters)]
  refine ⟨_, List.getElem?_eq_getElem ?_⟩
  rw [List.length_insertionSort, List.length_map]
  omega

/-- The candidate index is the greatest one that a quorum of the current
configuration has reached. -/
theorem le_commitCandidate_iff {candidate count : Nat}
    (hcandidate : node.commitCandidate = some candidate) :
    count ≤ candidate ↔
      configQuorum node.currentConfig (fun v => count ≤ node.matchOf v) := by
  unfold commitCandidate at hcandidate
  obtain ⟨newCandidate, hnew, hcandidate⟩ :=
    Option.bind_eq_some_iff.mp hcandidate
  rw [configQuorum, ← le_majorityIndex_iff hnew]
  cases hold : node.currentConfig.oldVoters with
  | none =>
      simp only [hold, Option.some.injEq] at hcandidate
      subst hcandidate
      simp
  | some old =>
      simp only [hold] at hcandidate
      obtain ⟨oldCandidate, holdIndex, hcandidate⟩ :=
        Option.bind_eq_some_iff.mp hcandidate
      obtain rfl := Option.some.inj hcandidate
      simp only [Option.some.injEq, forall_eq']
      rw [← le_majorityIndex_iff holdIndex]
      exact le_min_iff

/-- Everybody counted for the candidate index makes a quorum of the current
configuration. -/
theorem commitCandidate_quorum {candidate : Nat}
    (hcandidate : node.commitCandidate = some candidate) :
    configQuorum node.currentConfig (fun v => candidate ≤ node.matchOf v) :=
  (le_commitCandidate_iff hcandidate).mp le_rfl

theorem commitCandidate_some (node : Node)
    (hvoters : node.currentConfig.voters ≠ [])
    (hold : ∀ old, node.currentConfig.oldVoters = some old → old ≠ []) :
    ∃ candidate, node.commitCandidate = some candidate := by
  obtain ⟨newCandidate, hnew⟩ := node.majorityIndex_some hvoters
  unfold commitCandidate
  rw [hnew, Option.bind_eq_bind, Option.bind_some]
  cases hjoint : node.currentConfig.oldVoters with
  | none => exact ⟨newCandidate, rfl⟩
  | some old =>
      obtain ⟨oldCandidate, hindex⟩ :=
        node.majorityIndex_some (hold old hjoint)
      exact ⟨_, Option.bind_eq_some_iff.mpr ⟨oldCandidate, hindex, rfl⟩⟩

/-- Advancing the commit index does not panic. -/
theorem advanceCommitIndex_some (hcountable : node.currentConfig.Countable) :
    ∃ result, node.advanceCommitIndex = some result := by
  have hplain : ∀ other : Node, other.currentConfig.Countable →
      other.currentConfig.oldVoters = none →
      ∃ result, other.advanceCommitIndex = some result := by
    intro other hcountable hnone
    obtain ⟨candidate, hcandidate⟩ :=
      other.commitCandidate_some hcountable.1 hcountable.old
    rw [advanceCommitIndex, hcandidate]
    dsimp only
    rw [dif_neg (by simp [jointCommitted, hnone])]
    exact ⟨_, rfl⟩
  obtain ⟨candidate, hcandidate⟩ :=
    node.commitCandidate_some hcountable.1 hcountable.old
  rw [advanceCommitIndex, hcandidate]
  dsimp only
  split
  · obtain ⟨⟨last, rest⟩, hlast⟩ := hplain
      ((node.commitTo candidate).push
        (node.commitTo candidate).followUp).recomputeConfig
      (by
        rw [recomputeConfig_push_followUp, commitTo_currentConfig]
        exact hcountable.plain)
      (by rw [recomputeConfig_push_followUp])
    rw [hlast]
    exact ⟨_, rfl⟩
  · exact ⟨_, rfl⟩

end Node

end Kurogane.Raft
