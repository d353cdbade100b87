import Kurogane.Raft.Emissions
import Kurogane.Raft.Quorums
import Kurogane.Raft.Tracking

/-!
The bookkeeping a leader replicates by. Whoever it may have to send to is
tracked, up to an index inside its log or just beyond: an election and
`add_learner` seed the indexes, responses move them, and stepping down clears
them. While that holds, no request makes the leader panic.
-/

namespace Kurogane.Raft

namespace Node

def Tracked (node : Node) (peer : NodeId) : Prop :=
  (node.nextIndex[peer]?).isSome = true ∧ (node.matchIndex[peer]?).isSome = true

instance (node : Node) : DecidablePred node.Tracked :=
  fun _ => inferInstanceAs (Decidable (_ ∧ _))

structure Tracks (node : Node) : Prop where
  countable : node.currentConfig.Countable
  targets : ∀ peer ∈ node.replicationTargets, node.Tracked peer
  next : ∀ (peer : NodeId) (next : Nat), node.nextIndex[peer]? = some next →
    1 ≤ next ∧ next ≤ node.lastLogIndex + 1
  matched : ∀ (peer : NodeId) (count : Nat),
    node.matchIndex[peer]? = some count → count ≤ node.lastLogIndex

variable {node node' : Node} {effects : List Effect} {peer : NodeId}

namespace Tracks

/-- The indexes stay good for a longer log, and for every target they hold. -/
theorem mono (h : node.Tracks) (hcountable : node'.currentConfig.Countable)
    (htargets : ∀ peer ∈ node'.replicationTargets, node.Tracked peer)
    (hnext : node'.nextIndex = node.nextIndex)
    (hmatch : node'.matchIndex = node.matchIndex)
    (hlast : node.lastLogIndex ≤ node'.lastLogIndex) : node'.Tracks where
  countable := hcountable
  targets peer hpeer := by
    unfold Tracked
    rw [hnext, hmatch]
    exact htargets peer hpeer
  next peer next hfound := by
    rw [hnext] at hfound
    obtain ⟨hpos, hle⟩ := h.next peer next hfound
    exact ⟨hpos, by omega⟩
  matched peer count hfound := by
    rw [hmatch] at hfound
    exact (h.matched peer count hfound).trans hlast

/-- A sender that is a member, other than the node itself, is tracked. -/
theorem of_member (h : node.Tracks) (hmember : node.isMember peer = true)
    (hne : peer ≠ node.id) : node.Tracked peer := by
  apply h.targets peer
  rw [mem_replicationTargets]
  simpa [isMember, hne] using hmember

end Tracks

/-! ### Seeding -/

/-- A winner tracks every target from the end of its log on. -/
theorem becomeLeader_tracks (hcountable : node.currentConfig.Countable)
    (h : node.becomeLeader = some (node', effects)) : node'.Tracks := by
  obtain ⟨sends, -, h⟩ := Option.bind_eq_some_iff.mp h
  cases h
  have hnone : ∀ peer : NodeId, (∅ : Progress)[peer]? = none := by simp
  constructor
  · exact hcountable
  · intro peer hpeer
    have hseeded := fun value => getElem?_foldl_insert
      (Std.ExtTreeSet.mem_toList.mpr hpeer) value ∅
    exact ⟨Option.isSome_iff_exists.mpr ⟨_, hseeded _⟩,
      Option.isSome_iff_exists.mpr ⟨_, hseeded _⟩⟩
  · intro peer next hfound
    rcases foldl_insert_const _ _ _ hfound with rfl | hempty
    · exact ⟨Nat.succ_pos _, le_rfl⟩
    · rw [hnone] at hempty
      cases hempty
  · intro peer count hfound
    rcases foldl_insert_const _ _ _ hfound with rfl | hempty
    · exact Nat.zero_le _
    · rw [hnone] at hempty
      cases hempty

/-! ### Recording -/

theorem isSome_insert {progress : Progress} {id : NodeId} {value : Nat}
    (h : peer = id ∨ (progress[peer]?).isSome = true) :
    ((progress.insert id value)[peer]?).isSome = true := by
  rw [Std.ExtTreeMap.getElem?_insert]
  split
  · rfl
  · rename_i hne
    refine h.resolve_left ?_
    rintro rfl
    exact hne Std.ReflCmp.compare_self

theorem getElem?_insert_cases {progress : Progress} {id : NodeId} {value found : Nat}
    (h : (progress.insert id value)[peer]? = some found) :
    found = value ∨ progress[peer]? = some found := by
  rw [Std.ExtTreeMap.getElem?_insert] at h
  split at h
  · exact Or.inl (Option.some.inj h).symm
  · exact Or.inr h

theorem isSome_insertIfNew {progress : Progress} {id : NodeId} {value : Nat}
    (h : peer = id ∨ (progress[peer]?).isSome = true) :
    ((progress.insertIfNew id value)[peer]?).isSome = true := by
  rw [Std.ExtTreeMap.getElem?_insertIfNew]
  split
  · rfl
  · rename_i hne
    rcases h with rfl | hfound
    · by_contra hnone
      refine hne ⟨Std.ReflCmp.compare_self, fun hmem => hnone ?_⟩
      rwa [Std.ExtTreeMap.mem_iff_isSome_getElem?] at hmem
    · exact hfound

theorem getElem?_insertIfNew_cases {progress : Progress} {id : NodeId}
    {value found : Nat} (h : (progress.insertIfNew id value)[peer]? = some found) :
    found = value ∨ progress[peer]? = some found := by
  rw [Std.ExtTreeMap.getElem?_insertIfNew] at h
  split at h
  · exact Or.inl (Option.some.inj h).symm
  · exact Or.inr h

namespace Tracks

theorem addLearner (h : node.Tracks) (id : NodeId) :
    (node.addLearner id).1.Tracks := by
  unfold Node.addLearner
  split
  · exact h
  constructor
  · exact h.countable
  · intro peer hpeer
    rw [mem_replicationTargets] at hpeer
    obtain ⟨hmember, hne⟩ := hpeer
    have hknown : peer = id ∨ node.Tracked peer := by
      rcases hmember with hvoter | hlearner
      · exact Or.inr (h.targets peer
          (mem_replicationTargets.mpr ⟨Or.inl hvoter, hne⟩))
      · rcases Std.ExtTreeSet.mem_insert.mp hlearner with heq | hold
        · exact Or.inl (Std.LawfulEqCmp.eq_of_compare heq).symm
        · exact Or.inr (h.targets peer
            (mem_replicationTargets.mpr ⟨Or.inr hold, hne⟩))
    exact ⟨isSome_insertIfNew (hknown.imp_right And.left),
      isSome_insertIfNew (hknown.imp_right And.right)⟩
  · intro peer next hfound
    rcases getElem?_insertIfNew_cases hfound with rfl | hold
    · exact ⟨Nat.succ_pos _, le_rfl⟩
    · exact h.next peer next hold
  · intro peer count hfound
    rcases getElem?_insertIfNew_cases hfound with rfl | hold
    · exact Nat.zero_le _
    · exact h.matched peer count hold

theorem removeLearner (h : node.Tracks) (id : NodeId) :
    (node.removeLearner id).1.Tracks := by
  unfold Node.removeLearner
  split
  · exact h
  refine h.mono h.countable (fun peer hpeer => h.targets peer ?_) rfl rfl le_rfl
  rw [mem_replicationTargets] at hpeer ⊢
  exact ⟨hpeer.1.imp_right Std.ExtTreeSet.mem_of_mem_erase, hpeer.2⟩

theorem trackProgress (h : node.Tracks) {count : Nat}
    (hcount : count ≤ node.lastLogIndex) :
    (node.trackProgress peer count).Tracks := by
  constructor
  · exact h.countable
  · intro other hother
    obtain ⟨hnext, hmatch⟩ := h.targets other hother
    exact ⟨isSome_insert (Or.inr hnext), isSome_insert (Or.inr hmatch)⟩
  · intro other next hfound
    rcases getElem?_insert_cases hfound with rfl | hold
    · exact ⟨Nat.succ_pos _, Nat.succ_le_succ hcount⟩
    · exact h.next other next hold
  · intro other found hfound
    rcases getElem?_insert_cases hfound with rfl | hold
    · exact hcount
    · exact h.matched other found hold

/-- A peer that rejects is tried one index earlier, but never before the
first. -/
theorem backOff (h : node.Tracks) {next : Nat}
    (hnext : node.nextIndex[peer]? = some next) :
    Tracks { node with
      nextIndex := node.nextIndex.insert peer (max (next - 1) 1) } := by
  constructor
  · exact h.countable
  · intro other hother
    obtain ⟨hknown, hmatch⟩ := h.targets other hother
    exact ⟨isSome_insert (Or.inr hknown), hmatch⟩
  · intro other found hfound
    rcases getElem?_insert_cases hfound with rfl | hold
    · have hrange := h.next peer next hnext
      simp only [lastLogIndex] at hrange ⊢
      omega
    · exact h.next other found hold
  · exact h.matched

end Tracks

/-! ### Appending and committing -/

theorem retireIfExcluded_leader (hrole : node.retireIfExcluded.role = .leader) :
    node.retireIfExcluded = node := by
  revert hrole
  unfold retireIfExcluded
  split
  · exact nofun
  · exact fun _ => rfl

/-- What a leader that is still one has kept while its commit index advanced. -/
structure Carries (node node' : Node) : Prop where
  id : node'.id = node.id
  learners : node'.learners = node.learners
  next : node'.nextIndex = node.nextIndex
  matched : node'.matchIndex = node.matchIndex
  last : node.lastLogIndex ≤ node'.lastLogIndex
  config : node'.currentConfig = node.currentConfig ∨
    node'.currentConfig = ⟨node.currentConfig.voters, none⟩

theorem Carries.tracks (h : Carries node node') (htracks : node.Tracks) :
    node'.Tracks := by
  refine htracks.mono ?_ (fun peer hpeer => htracks.targets peer ?_) h.next
    h.matched h.last
  · rcases h.config with hsame | hplain
    · rw [hsame]
      exact htracks.countable
    · rw [hplain]
      exact htracks.countable.plain
  · rw [mem_replicationTargets, h.id, h.learners] at hpeer
    rw [mem_replicationTargets]
    refine ⟨hpeer.1.imp_left (fun hvoter => ?_), hpeer.2⟩
    rcases h.config with hsame | hplain
    · rw [← hsame]
      exact hvoter
    · rw [hplain] at hvoter
      simp only [ClusterConfig.isVoter, Option.getD_none, List.contains_nil,
        Bool.or_false] at hvoter
      rw [ClusterConfig.isVoter, hvoter, Bool.true_or]

theorem commitTo_carries (node : Node) (candidate : Nat) :
    Carries node (node.commitTo candidate) := by
  unfold commitTo
  split <;> exact ⟨rfl, rfl, rfl, rfl, le_rfl, Or.inl rfl⟩

theorem advanceCommitIndex_carries
    (h : node.advanceCommitIndex = some (node', effects))
    (hrole : node'.role = .leader) : Carries node node' := by
  obtain ⟨candidate, -, ⟨-, rfl, -⟩ | ⟨-, last, rest, hrest, rfl, -⟩⟩ :=
    advanceCommitIndex_cases h
  · rw [retireIfExcluded_leader hrole]
    exact node.commitTo_carries candidate
  · obtain ⟨candidate', -, rfl, -⟩ := advanceCommitIndex_plain
      (by rw [recomputeConfig_push_followUp]) hrest
    rw [retireIfExcluded_leader hrole] at hrole ⊢
    rw [retireIfExcluded_leader hrole]
    have hfirst := node.commitTo_carries candidate
    generalize node.commitTo candidate = joint at *
    have hsecond := (joint.push joint.followUp).recomputeConfig.commitTo_carries
      candidate'
    refine ⟨hsecond.id.trans hfirst.id, hsecond.learners.trans hfirst.learners,
      hsecond.next.trans hfirst.next, hsecond.matched.trans hfirst.matched, ?_, ?_⟩
    · have hpushed : joint.lastLogIndex ≤
          (joint.push joint.followUp).recomputeConfig.lastLogIndex := by
        simp [lastLogIndex, recomputeConfig, push]
      exact (hfirst.last.trans hpushed).trans hsecond.last
    · refine Or.inr ?_
      rw [commitTo_currentConfig, recomputeConfig_push_followUp]
      rcases hfirst.config with hsame | hplain
      · rw [hsame]
      · rw [hplain]

/-- The configuration in force after an entry of the leader's own. -/
theorem currentConfig_push_command (hcurrent : node.ConfigCurrent) (term : Nat)
    (command : Bytes) :
    (node.push ⟨term, .command command⟩).recomputeConfig.currentConfig =
      node.currentConfig := by
  have hfst : node.currentConfig = _ := congrArg Prod.fst hcurrent
  rw [hfst]
  simp [recomputeConfig, push, latestConfigurationIn, List.zipIdx_append]

theorem appendOwn_some {entry : LogEntry}
    (hcountable : (node.push entry).recomputeConfig.currentConfig.Countable) :
    ∃ result, node.appendOwn entry = some result := by
  obtain ⟨⟨last, rest⟩, hadvance⟩ := advanceCommitIndex_some hcountable
  exact ⟨_, Option.bind_eq_some_iff.mpr ⟨_, hadvance, rfl⟩⟩

theorem appendOwn_tracks (h : node.Tracks) {entry : LogEntry} {index : Nat}
    (hcountable : (node.push entry).recomputeConfig.currentConfig.Countable)
    (htargets : ∀ peer ∈ (node.push entry).recomputeConfig.replicationTargets,
      node.Tracked peer)
    (hown : node.appendOwn entry = some (node', index, effects))
    (hrole : node'.role = .leader) : node'.Tracks := by
  obtain ⟨⟨last, rest⟩, hadvance, hown⟩ := Option.bind_eq_some_iff.mp hown
  cases hown
  have hpushed : (node.push entry).recomputeConfig.Tracks :=
    h.mono hcountable htargets rfl rfl (by
      simp [lastLogIndex, recomputeConfig, push])
  exact (advanceCommitIndex_carries hadvance hrole).tracks hpushed

end Node

end Kurogane.Raft
