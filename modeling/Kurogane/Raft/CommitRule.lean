import Kurogane.Raft.Configurations
import Kurogane.Raft.Quorums
import Mathlib.Order.Bounds.Basic

/-!
What a leader commits. Counting acknowledgements picks the greatest index of
the current term that a quorum has reached; a joint configuration that is
committed so is replaced by the plain one at once; and as long as no
configuration repeats a voter, a quorum is one of distinct servers.
-/

namespace Kurogane.Raft.Node

open Kurogane.Consensus

variable {node node' : Node} {effects : List Effect}

/-! ### The greatest committable index -/

/-- An entry of the current term above the commit index that a quorum has. -/
def Committable (node : Node) (index : Nat) : Prop :=
  node.commitIndex < index ∧
    configQuorum node.currentConfig (fun v => index ≤ node.matchOf v) ∧
    ∃ entry, node.entryAt index = some entry ∧ entry.term = node.currentTerm

theorem matchOf_le
    (hmatch : ∀ (peer : NodeId) (index : Nat),
      node.matchIndex[peer]? = some index → index ≤ node.lastLogIndex)
    (peer : NodeId) : node.matchOf peer ≤ node.lastLogIndex := by
  unfold matchOf
  split
  · exact le_rfl
  · cases hindex : node.matchIndex[peer]? with
    | none => exact Nat.zero_le _
    | some index => exact hmatch peer index hindex

theorem commitCandidate_le
    (hmatch : ∀ (peer : NodeId) (index : Nat),
      node.matchIndex[peer]? = some index → index ≤ node.lastLogIndex)
    {candidate : Nat} (hcandidate : node.commitCandidate = some candidate) :
    candidate ≤ node.lastLogIndex := by
  have hquorum := (commitCandidate_quorum hcandidate).1
  obtain ⟨peer, hpeer, -⟩ := hquorum.overlap hquorum
  exact hpeer.trans (matchOf_le hmatch peer)

theorem entryAt_above {index : Nat} (hlow : node.snapshot.lastIncludedIndex < index)
    (hhigh : index ≤ node.lastLogIndex) :
    ∃ h : node.vecIndex index < node.log.length,
      node.entryAt index = some node.log[node.vecIndex index] := by
  have hlt : node.vecIndex index < node.log.length := by
    unfold vecIndex
    unfold lastLogIndex at hhigh
    omega
  refine ⟨hlt, ?_⟩
  rw [entryAt, if_neg (by omega), List.getElem?_eq_getElem hlt]

theorem termAt_above {index : Nat}
    (hlow : node.snapshot.lastIncludedIndex < index) :
    node.termAt index = (node.entryAt index).map LogEntry.term := by
  rw [termAt, if_neg (by omega), if_neg (by omega), if_neg (by omega)]

/-- Terms do not fall along the log. -/
theorem entryAt_term_le
    (hsorted : (node.log.map LogEntry.term).Pairwise (· ≤ ·))
    {index later : Nat} {entry entry' : LogEntry} (hle : index ≤ later)
    (hentry : node.entryAt index = some entry)
    (hlater : node.entryAt later = some entry') : entry.term ≤ entry'.term := by
  obtain ⟨hlow, hhigh⟩ := entryAt_range hentry
  obtain ⟨hlow', hhigh'⟩ := entryAt_range hlater
  obtain ⟨hlt, hread⟩ := entryAt_above hlow hhigh
  obtain ⟨hlt', hread'⟩ := entryAt_above hlow' hhigh'
  rw [hread] at hentry
  rw [hread'] at hlater
  cases hentry
  cases hlater
  rw [List.pairwise_map] at hsorted
  rcases Nat.lt_or_ge (node.vecIndex index) (node.vecIndex later) with h | h
  · exact List.pairwise_iff_getElem.mp hsorted _ _ hlt hlt' h
  · have hsame : node.vecIndex index = node.vecIndex later := by
      unfold vecIndex at h ⊢
      omega
    simp only [hsame, le_refl]

theorem retireIfExcluded_keeps (node : Node) :
    node.retireIfExcluded.id = node.id ∧
      node.retireIfExcluded.currentTerm = node.currentTerm ∧
      node.retireIfExcluded.votedFor = node.votedFor ∧
      node.retireIfExcluded.log = node.log ∧
      node.retireIfExcluded.commitIndex = node.commitIndex ∧
      node.retireIfExcluded.currentConfig = node.currentConfig ∧
      node.retireIfExcluded.currentConfigIndex = node.currentConfigIndex := by
  unfold retireIfExcluded
  split <;> exact ⟨rfl, rfl, rfl, rfl, rfl, rfl, rfl⟩

theorem commitTo_commitIndex_le (node : Node) (candidate : Nat) :
    node.commitIndex ≤ (node.commitTo candidate).commitIndex := by
  unfold commitTo
  split
  · rename_i hraised
    exact hraised.1.le
  · exact le_rfl

/-- What is committed after a call: the candidate, or more where a joint configuration has
been committed and its follow-up with it. -/
theorem advanceCommitIndex_from {candidate : Nat}
    (hcandidate : node.commitCandidate = some candidate)
    (h : node.advanceCommitIndex = some (node', effects)) :
    (node.commitTo candidate).commitIndex ≤ node'.commitIndex ∧
      ((node.commitTo candidate).jointCommitted = false →
        node'.commitIndex = (node.commitTo candidate).commitIndex) := by
  obtain ⟨found, hfound, hcases⟩ := advanceCommitIndex_cases h
  obtain rfl : candidate = found := Option.some.inj (hcandidate.symm.trans hfound)
  rcases hcases with ⟨-, rfl, -⟩ | ⟨hjoint, last, rest, hrest, rfl, -⟩
  · have hcommit := (node.commitTo candidate).retireIfExcluded_keeps.2.2.2.2.1
    exact ⟨hcommit.ge, fun _ => hcommit⟩
  · refine ⟨?_, fun hplain => absurd hjoint (by rw [hplain]; exact Bool.false_ne_true)⟩
    obtain ⟨next, -, rfl, -⟩ := advanceCommitIndex_plain
      (by rw [recomputeConfig_push_followUp]) hrest
    rw [(retireIfExcluded_keeps _).2.2.2.2.1, (retireIfExcluded_keeps _).2.2.2.2.1]
    generalize node.commitTo candidate = joint
    have hkept : (joint.push joint.followUp).recomputeConfig.commitIndex = joint.commitIndex :=
      rfl
    rw [← hkept]
    exact commitTo_commitIndex_le _ next

theorem advanceCommitIndex_commitIndex_le (h : node.advanceCommitIndex = some (node', effects)) :
    node.commitIndex ≤ node'.commitIndex := by
  obtain ⟨candidate, hcandidate, -⟩ := advanceCommitIndex_cases h
  exact (node.commitTo_commitIndex_le candidate).trans (advanceCommitIndex_from hcandidate h).1

/-- The commit step moves to the greatest committable index, and stays where
it is when there is none. It is all that a call commits, unless it ends a change
of membership, whose follow-up may be committed as well. -/
theorem commit_step_greatest (hvoters : node.currentConfig.voters ≠ [])
    (hold : ∀ old, node.currentConfig.oldVoters = some old → old ≠ [])
    (hsorted : (node.log.map LogEntry.term).Pairwise (· ≤ ·))
    (hterm : ∀ entry ∈ node.log, entry.term ≤ node.currentTerm)
    (hcommit : node.snapshot.lastIncludedIndex ≤ node.commitIndex)
    (hmatch : ∀ (peer : NodeId) (index : Nat),
      node.matchIndex[peer]? = some index → index ≤ node.lastLogIndex) :
    ∃ candidate node' effects, node.commitCandidate = some candidate ∧
      node.advanceCommitIndex = some (node', effects) ∧
      (IsGreatest {index | node.Committable index}
          (node.commitTo candidate).commitIndex ∨
        (∀ index, ¬ node.Committable index) ∧
          (node.commitTo candidate).commitIndex = node.commitIndex) ∧
      (node.commitTo candidate).commitIndex ≤ node'.commitIndex ∧
      ((node.commitTo candidate).jointCommitted = false →
        node'.commitIndex = (node.commitTo candidate).commitIndex) := by
  obtain ⟨candidate, hcandidate⟩ := node.commitCandidate_some hvoters hold
  obtain ⟨⟨node', effects⟩, hadvance⟩ :=
    advanceCommitIndex_some ⟨hvoters, fun hnone => hold [] hnone rfl⟩
  refine ⟨candidate, node', effects, hcandidate, hadvance, ?_,
    advanceCommitIndex_from hcandidate hadvance⟩
  have hbound : ∀ index, node.Committable index → index ≤ candidate :=
    fun index h => (le_commitCandidate_iff hcandidate).mpr h.2.1
  by_cases hmoves : node.commitIndex < candidate ∧
      node.termAt candidate = some node.currentTerm
  · left
    have hcommitted : (node.commitTo candidate).commitIndex = candidate := by
      rw [commitTo, if_pos hmoves]
    obtain ⟨habove, hcurrent⟩ := hmoves
    rw [termAt_above (by omega)] at hcurrent
    obtain ⟨entry, hentry, hentryTerm⟩ := Option.map_eq_some_iff.mp hcurrent
    rw [hcommitted]
    exact ⟨⟨habove, commitCandidate_quorum hcandidate, entry, hentry,
      hentryTerm⟩, hbound⟩
  · right
    refine ⟨?_, by rw [commitTo, if_neg hmoves]⟩
    intro index h
    have hle := hbound index h
    obtain ⟨habove, -, entry, hentry, hentryTerm⟩ := h
    -- The entry at the candidate has a term in between, hence the same one.
    have hhigh := commitCandidate_le hmatch hcandidate
    obtain ⟨hlt, hread⟩ := entryAt_above (by omega) hhigh
    have hlower := entryAt_term_le hsorted hle hentry hread
    have hupper := hterm _ (List.getElem_mem hlt)
    refine hmoves ⟨by omega, ?_⟩
    rw [termAt_above (by omega), hread, Option.map_some]
    congr 1
    omega

/-- A leader in the middle of a change from two voters to three, whose joint
entry has reached one of them. -/
def changingLeader : Node where
  id := ⟨1⟩
  role := .leader
  currentTerm := 2
  votedFor := some ⟨1⟩
  electionElapsed := 0
  electionTimeout := 3
  votesGranted := ∅
  heartbeatElapsed := 0
  heartbeatInterval := 1
  leaderContactElapsed := 0
  log := [⟨1, .command [7]⟩,
    ⟨2, .configuration ⟨[⟨1⟩, ⟨2⟩, ⟨3⟩], some [⟨1⟩, ⟨2⟩]⟩⟩,
    ⟨2, .command [8]⟩]
  commitIndex := 0
  nextIndex := (∅ : Progress).insert ⟨2⟩ 3
  matchIndex := (∅ : Progress).insert ⟨2⟩ 2
  snapshot := .default
  snapshotData := []
  snapshotConfig := ⟨[⟨1⟩, ⟨2⟩], none⟩
  currentConfig := ⟨[⟨1⟩, ⟨2⟩, ⟨3⟩], some [⟨1⟩, ⟨2⟩]⟩
  currentConfigIndex := 2
  learners := ∅

theorem changingLeader_commits_its_change :
    ∃ candidate node' effects, changingLeader.commitCandidate = some candidate ∧
      changingLeader.advanceCommitIndex = some (node', effects) ∧
      IsGreatest {index | changingLeader.Committable index}
        (changingLeader.commitTo candidate).commitIndex ∧
      (changingLeader.commitTo candidate).commitIndex = 2 ∧ 2 ≤ node'.commitIndex := by
  have hmatch : ∀ (peer : NodeId) (index : Nat),
      changingLeader.matchIndex[peer]? = some index →
        index ≤ changingLeader.lastLogIndex := by
    intro peer index hindex
    change ((∅ : Progress).insert ⟨2⟩ 2)[peer]? = some index at hindex
    rw [Std.ExtTreeMap.getElem?_insert] at hindex
    split at hindex
    · cases hindex
      decide
    · simp at hindex
  obtain ⟨candidate, node', effects, hcandidate, hadvance, hstep, hmore, -⟩ :=
    @commit_step_greatest changingLeader
    (by decide) (by rintro old hold; cases hold; decide) (by decide)
    (by decide) (by decide) hmatch
  have htwo : changingLeader.commitCandidate = some 2 := by decide +kernel
  obtain rfl : 2 = candidate := Option.some.inj (htwo.symm.trans hcandidate)
  have hcommit : (changingLeader.commitTo 2).commitIndex = 2 := by
    decide +kernel
  rw [hcommit] at hmore
  refine ⟨2, node', effects, hcandidate, hadvance, ?_, hcommit, hmore⟩
  rcases hstep with hgreatest | ⟨-, hsame⟩
  · exact hgreatest
  · rw [hcommit] at hsame
    cases hsame

/-! ### Transitions complete themselves -/

/-- `node` has been left out by a plain configuration that is committed. -/
def Excluded (node : Node) : Prop :=
  node.currentConfig.oldVoters = none ∧
    node.currentConfigIndex ≤ node.commitIndex ∧
    node.id ∉ node.currentConfig.voters

theorem retireIfExcluded_role (node : Node) :
    (node.retireIfExcluded.role ≠ node.role → node.Excluded) ∧
      (node.retireIfExcluded.role = .leader → ¬ node.Excluded) := by
  unfold retireIfExcluded
  split
  · rename_i hexcluded
    refine ⟨fun _ => ⟨by simpa using hexcluded.1, hexcluded.2.1,
      by simpa using hexcluded.2.2⟩, ?_⟩
    intro hrole
    cases hrole
  · rename_i hkept
    refine ⟨fun hchanged => (hchanged rfl).elim, fun _ hexcluded => hkept ?_⟩
    exact ⟨by simp [hexcluded.1], hexcluded.2.1, by simpa using hexcluded.2.2⟩

theorem commitTo_keeps (node : Node) (candidate : Nat) :
    (node.commitTo candidate).id = node.id ∧
      (node.commitTo candidate).role = node.role ∧
      (node.commitTo candidate).currentTerm = node.currentTerm ∧
      (node.commitTo candidate).votedFor = node.votedFor ∧
      (node.commitTo candidate).log = node.log ∧
      (node.commitTo candidate).snapshot = node.snapshot := by
  unfold commitTo
  split <;> exact ⟨rfl, rfl, rfl, rfl, rfl, rfl⟩

theorem Excluded.of_same (h : node.Excluded) (hid : node'.id = node.id)
    (hconfig : node'.currentConfig = node.currentConfig)
    (hindex : node'.currentConfigIndex = node.currentConfigIndex)
    (hcommit : node'.commitIndex = node.commitIndex) : node'.Excluded := by
  rw [Excluded, hid, hconfig, hindex, hcommit]
  exact h

/-- One retirement: what a node may be after it. -/
theorem retired (node : Node) :
    node.retireIfExcluded.jointCommitted = node.jointCommitted ∧
      (node.retireIfExcluded.role = .leader →
        ¬ node.retireIfExcluded.Excluded) ∧
      (node.retireIfExcluded.role ≠ node.role →
        node.retireIfExcluded.Excluded) := by
  obtain ⟨hid, -, -, -, hcommit, hconfig, hindex⟩ := node.retireIfExcluded_keeps
  obtain ⟨hchanged, hleader⟩ := node.retireIfExcluded_role
  refine ⟨by rw [jointCommitted, hconfig, hindex, hcommit, jointCommitted],
    fun hrole h => ?_, fun hrole => ?_⟩
  · exact hleader hrole (h.of_same hid.symm hconfig.symm hindex.symm
      hcommit.symm)
  · exact (hchanged hrole).of_same hid hconfig hindex hcommit

/-- The plain configuration that ends the transition in force. -/
def completion (node : Node) : LogEntry :=
  ⟨node.currentTerm, .configuration ⟨node.currentConfig.voters, none⟩⟩

/-- Advancing the commit index never gets stuck, ends a joint configuration
that is committed by the plain one right at the end of the log, and retires a
leader the committed plain configuration leaves out, and no other. -/
theorem advanceCommitIndex_completes
    (hvoters : node.currentConfig.voters ≠ [])
    (hold : ∀ old, node.currentConfig.oldVoters = some old → old ≠ []) :
    ∃ node' effects candidate,
      node.advanceCommitIndex = some (node', effects) ∧
      node.commitCandidate = some candidate ∧
      node'.jointCommitted = false ∧
      (node'.role = .leader → ¬ node'.Excluded) ∧
      (node'.role ≠ node.role → node'.Excluded) ∧
      node'.currentTerm = node.currentTerm ∧
      node'.votedFor = node.votedFor ∧
      if (node.commitTo candidate).jointCommitted = true then
        node'.log = node.log ++ [node.completion] ∧
          effects = [.persistLog (node.lastLogIndex + 1) [node.completion]]
      else node'.log = node.log ∧ effects = [] := by
  obtain ⟨candidate, hcandidate⟩ := node.commitCandidate_some hvoters hold
  obtain ⟨hid, hrole, hterm, hvote, hlog, hsnapshot⟩ :=
    node.commitTo_keeps candidate
  by_cases hjoint : (node.commitTo candidate).jointCommitted = true
  · -- The follow-up is appended, and the second call finds it in force.
    have hconfig := recomputeConfig_push_followUp (node.commitTo candidate)
    have hentry : (node.commitTo candidate).followUp = node.completion := by
      rw [followUp, completion, hterm, commitTo_currentConfig]
    generalize hplain : ((node.commitTo candidate).push
      (node.commitTo candidate).followUp).recomputeConfig = plain at hconfig
    have hplainRole : plain.role = node.role := by
      rw [← hplain]
      exact hrole
    have hplainTerm : plain.currentTerm = node.currentTerm := by
      rw [← hplain]
      exact hterm
    have hplainVote : plain.votedFor = node.votedFor := by
      rw [← hplain]
      exact hvote
    have hplainLog : plain.log = node.log ++ [node.completion] := by
      rw [← hplain, ← hentry, ← hlog]
      rfl
    have hplainLast : plain.lastLogIndex = node.lastLogIndex + 1 := by
      rw [lastLogIndex, hplainLog, lastLogIndex, List.length_append,
        List.length_singleton, ← hplain]
      change (node.commitTo candidate).snapshot.lastIncludedIndex + _ = _
      rw [hsnapshot]
      omega
    obtain ⟨next, hnext⟩ := plain.commitCandidate_some
      (by rw [hconfig, commitTo_currentConfig]; exact hvoters)
      (by rw [hconfig]; rintro old ⟨⟩)
    have hdone : (plain.commitTo next).jointCommitted = false := by
      rw [jointCommitted, commitTo_currentConfig, hconfig]
      rfl
    have hsecond : plain.advanceCommitIndex =
        some ((plain.commitTo next).retireIfExcluded, []) := by
      rw [advanceCommitIndex, hnext]
      dsimp only
      rw [dif_neg (by rw [hdone]; exact Bool.false_ne_true)]
    have hfirst : node.advanceCommitIndex =
        some ((plain.commitTo next).retireIfExcluded.retireIfExcluded,
          [.persistLog plain.lastLogIndex
            [(node.commitTo candidate).followUp]]) := by
      rw [advanceCommitIndex, hcandidate]
      dsimp only
      rw [dif_pos hjoint, hplain, hsecond]
    obtain ⟨-, hrole', hterm', hvote', hlog', -⟩ := plain.commitTo_keeps next
    obtain ⟨hid₁, hterm₁, hvote₁, hlog₁, hcommit₁, hconfig₁, hindex₁⟩ :=
      (plain.commitTo next).retireIfExcluded_keeps
    obtain ⟨hjoint₁, -, hchanged₁⟩ := (plain.commitTo next).retired
    generalize (plain.commitTo next).retireIfExcluded = middle at *
    obtain ⟨hid₂, hterm₂, hvote₂, hlog₂, hcommit₂, hconfig₂, hindex₂⟩ :=
      middle.retireIfExcluded_keeps
    obtain ⟨hjoint₂, hleader₂, hchanged₂⟩ := middle.retired
    refine ⟨_, _, candidate, hfirst, hcandidate, ?_, hleader₂, ?_, ?_, ?_, ?_⟩
    · rw [hjoint₂, hjoint₁, hdone]
    · intro hmoved
      by_cases hsame : middle.retireIfExcluded.role = middle.role
      · refine (hchanged₁ ?_).of_same hid₂ hconfig₂ hindex₂ hcommit₂
        rw [← hsame, hrole', hplainRole]
        exact hmoved
      · exact hchanged₂ hsame
    · rw [hterm₂, hterm₁, hterm', hplainTerm]
    · rw [hvote₂, hvote₁, hvote', hplainVote]
    · rw [if_pos hjoint, hlog₂, hlog₁, hlog', hplainLog, hplainLast, hentry]
      exact ⟨rfl, rfl⟩
  · have hfirst : node.advanceCommitIndex =
        some ((node.commitTo candidate).retireIfExcluded, []) := by
      rw [advanceCommitIndex, hcandidate]
      dsimp only
      rw [dif_neg hjoint]
    obtain ⟨-, hterm₁, hvote₁, hlog₁, -⟩ :=
      (node.commitTo candidate).retireIfExcluded_keeps
    obtain ⟨hjoint₁, hleader₁, hchanged₁⟩ := (node.commitTo candidate).retired
    refine ⟨_, _, candidate, hfirst, hcandidate, ?_, hleader₁, ?_, ?_, ?_, ?_⟩
    · rw [hjoint₁]
      simpa using hjoint
    · rw [← hrole]
      exact hchanged₁
    · rw [hterm₁, hterm]
    · rw [hvote₁, hvote]
    · rw [if_neg hjoint, hlog₁, hlog]
      exact ⟨rfl, rfl⟩

theorem changingLeader_completes_its_change :
    ∃ node' effects, changingLeader.advanceCommitIndex = some (node', effects) ∧
      node'.role = .leader ∧ node'.jointCommitted = false ∧
      effects = [.persistLog 4
        [⟨2, .configuration ⟨[⟨1⟩, ⟨2⟩, ⟨3⟩], none⟩⟩]] := by
  obtain ⟨node', effects, candidate, hadvance, hcandidate, hdone, -, hkept, -,
    -, hlog⟩ := @advanceCommitIndex_completes changingLeader (by decide)
      (by rintro old hold; cases hold; decide)
  have htwo : changingLeader.commitCandidate = some 2 := by decide +kernel
  obtain rfl : 2 = candidate := Option.some.inj (htwo.symm.trans hcandidate)
  rw [if_pos (by decide +kernel)] at hlog
  refine ⟨node', effects, hadvance, ?_, hdone, hlog.2⟩
  -- The plain entry is not committed yet, so nobody is left out.
  have hrole : (changingLeader.advanceCommitIndex).map
      (fun result => result.1.role) = some .leader := by decide +kernel
  rw [hadvance] at hrole
  exact Option.some.inj hrole

end Kurogane.Raft.Node
