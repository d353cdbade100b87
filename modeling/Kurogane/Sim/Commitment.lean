import Kurogane.Sim.Snapshots

/-!
Commitment and membership changes as protocol steps. A leader commits what
majorities have acknowledged in its own term, appends the plain configuration
that ends a transition, and retires when that one leaves it out. Starting a
transition is only a step while the last configuration is plain and committed.
-/

namespace Kurogane.Raft.Node

/-- The configuration in force is plain and its entry committed: no change is
in flight. -/
def NoChangeInFlight (node : Node) : Prop :=
  node.currentConfig.oldVoters = none ∧
    node.currentConfigIndex ≤ node.commitIndex

instance (node : Node) : Decidable node.NoChangeInFlight :=
  inferInstanceAs (Decidable (_ ∧ _))

end Kurogane.Raft.Node

namespace Kurogane.Sim

open Kurogane.Raft Kurogane.Consensus

variable {initial : ClusterConfig} {h : Ghost} {node node' : Node}
  {effects : List Effect}

theorem commitTo_simulates (s : h.Sound (membership initial))
    (hrel : NodeRel initial h node) (hrole : node.role = .leader)
    {candidate : Nat} (hcandidate : node.commitCandidate = some candidate) :
    ∃ h', Simulates initial h node [] h' (node.commitTo candidate) := by
  unfold Node.commitTo
  split
  swap
  · exact ⟨h, .refl hrel⟩
  rename_i hcommit
  obtain ⟨hadvance, hterm⟩ := hcommit
  obtain ⟨hpos, hlow, hhigh, hlast⟩ := hrel.termAt_some s hterm
  by_cases hcovered : h.Covered node.currentTerm h.clock
      ((h.log node.id).take candidate)
  · obtain ⟨h', hsim, -⟩ := settle_rel hrel hlow hhigh hcovered
    exact ⟨h', hsim⟩
  -- The leader counts itself for its whole log, so it acknowledges that.
  obtain ⟨helected, hlog, -, hmatched⟩ := hrel.leader hrole
  obtain ⟨h₁, hack, own, hown, hownVoter, hownTerm, hownLeader, hownLog⟩ :=
    ack_rel s hrel (h.log node.id) helected (hlog ▸ List.prefix_refl _)
      (List.prefix_refl _)
  have hrel₁ := hack.rel
  have ext₁ := hack.steps.extends
  have hterm₁ : h₁.term node.id = node.currentTerm := hrel₁.term
  have hframe : h₁.log node.id = h.log node.id := by
    have hinit := (s.ack_leader)
    have hnew := (hack.steps.sound s).ack_leader own hown
    obtain ⟨helected₁, hlog₁, -⟩ := hrel₁.leader hrole
    have hle := ext₁.leaderLog _ _ helected
    have hlength : (h₁.log node.id).length = (h.log node.id).length := by
      rw [← hrel₁.lastLogIndex (hack.steps.sound s), hrel.lastLogIndex s]
    rw [hlog, hlog₁]
    refine (hle.eq_of_length ?_).symm
    rw [← hlog, ← hlog₁, hlength]
  have hquorum : configQuorum ((membership initial).latest initial
      (h₁.log node.id)) (fun u => ∃ a ∈ h₁.acks, a.voter = u ∧
        a.term = h₁.term node.id ∧ a.leader = node.id ∧
        (h₁.log node.id).take candidate <+: a.log) := by
    rw [← hrel₁.currentConfig (hrel₁.informed (by rw [hrole]; nofun))]
    refine (membership initial).quorum_mono
      (Node.commitCandidate_quorum hcandidate) (fun u hu => ?_)
    rw [hframe, hterm₁]
    unfold Node.matchOf at hu
    split at hu
    · rename_i hself
      exact ⟨own, hown, hownVoter.trans hself.symm, hownTerm, hownLeader,
        hownLog ▸ List.take_prefix _ _⟩
    · cases hcount : node.matchIndex[u]? with
      | none =>
          rw [hcount, Option.getD_none] at hu
          omega
      | some count =>
          rw [hcount, Option.getD_some] at hu
          have hshorter := List.take_prefix_take_left (l := h.log node.id) hu
          obtain ⟨-, ⟨a, ha, havoter, haterm, haleader, hinit⟩ | hinside⟩ :=
            hmatched u count hcount
          · exact ⟨a, ext₁.acks ha, havoter, haterm, haleader,
              hshorter.trans hinit⟩
          · exact absurd (hinside.shorten hshorter) hcovered
  have hstep := History.Step.commit (R := membership initial)
    ((h₁.log node.id).take candidate)
    (by
      rw [hterm₁]
      exact (hrel₁.leader hrole).1)
    (by
      rw [hterm₁]
      exact (hrel₁.leader hrole).2.1)
    (List.take_prefix _ _) (by rw [hframe, hlast, hterm₁]) hquorum
  have hself : Function.update h₁.commit node.id
      ((h₁.log node.id).take candidate).length node.id = candidate := by
    rw [Function.update_self, List.length_take, hframe, Nat.min_eq_left hhigh]
  have hsim : Simulates initial h₁ node [] _
      { node with commitIndex := candidate } :=
    .quiet hrel₁ (.single hstep) ⟨⟨hrel₁.term, hrel₁.durable.voted,
      hlow.trans_eq hself.symm, hrel₁.durable.log,
      hrel₁.durable.snapshotTerm, hrel₁.durable.snapshotConfig⟩, hself,
      hrel₁.informed, hrel₁.config, hrel₁.candidate, fun hrole => by
        obtain ⟨helected, hlog, hnext, hmatched⟩ := hrel₁.leader hrole
        exact ⟨helected, hlog, hnext, fun peer count hcount =>
          (hmatched peer count hcount).extends hstep.extends rfl⟩⟩ rfl rfl
  exact ⟨_, hack.append hsim⟩

theorem retireIfExcluded_rel (hrel : NodeRel initial h node) :
    NodeRel initial h node.retireIfExcluded := by
  unfold Node.retireIfExcluded
  split
  · exact ⟨hrel.durable, hrel.commit, fun hrole => absurd rfl hrole, hrel.config,
      nofun, nofun⟩
  · exact hrel

theorem retireIfExcluded_simulates (hrel : NodeRel initial h node) :
    Simulates initial h node [] h node.retireIfExcluded :=
  .quiet hrel .refl (retireIfExcluded_rel hrel)
    node.retireIfExcluded_durable.2 node.retireIfExcluded_durable.1

/-! ### Appending -/

theorem informed_push (hinformed : node.Informed initial) (entry : LogEntry) :
    (node.push entry).recomputeConfig.Informed initial := by
  rcases hinformed with hknows | hfound
  · exact Or.inl hknows
  · refine Or.inr ?_
    show (latestConfigurationIn (node.log ++ [entry])
      node.snapshot.lastIncludedIndex).isSome
    rw [latestConfigurationIn_concat]
    cases entry.payload with
    | configuration config => rfl
    | command bytes => exact hfound

theorem append_simulates (s : h.Sound (membership initial))
    (hrel : NodeRel initial h node) (hrole : node.role = .leader)
    (entry : LogEntry) (hterm : entry.term = node.currentTerm)
    (hconfig : ∀ config, entryConfig entry = some config →
      configNext node.currentConfig config ∧
        node.currentConfigIndex ≤ node.commitIndex) :
    ∃ h', Simulates initial h node
      [.persistLog (node.push entry).recomputeConfig.lastLogIndex [entry]] h'
      (node.push entry).recomputeConfig := by
  obtain ⟨helected, hlog, hnext, hmatched⟩ := hrel.leader hrole
  have hinformed := hrel.informed (by rw [hrole]; nofun)
  have hboundary := hrel.boundary_le_length s
  have hstep := History.Step.append (R := membership initial) (v := node.id)
    (h := h) entry (by rw [hrel.term]; exact helected)
    (by rw [hrel.term]; exact hlog) (by rw [hrel.term]; exact hterm)
    (by
      intro config hentry
      obtain ⟨hconfigNext, hle⟩ := hconfig config hentry
      refine ⟨?_, ?_⟩
      · rw [hrel.currentConfig hinformed] at hconfigNext
        exact hconfigNext
      · rw [hrel.commit]
        exact hrel.no_config_above hle)
  have hself : Function.update h.log node.id (h.log node.id ++ [entry])
      node.id = h.log node.id ++ [entry] := Function.update_self _ _ _
  have htake : (Function.update h.log node.id (h.log node.id ++ [entry])
      node.id).take node.snapshot.lastIncludedIndex =
      (h.log node.id).take node.snapshot.lastIncludedIndex := by
    rw [hself, List.take_append_of_le_length hboundary]
  refine ⟨_, .write hrel (.single hstep) ⟨⟨hrel.term, hrel.durable.voted,
    hrel.durable.boundary, ?_, ?_, ?_⟩, hrel.commit, fun _ => ?_, rfl, ?_,
    fun _ => ?_⟩
    (node.push_persists entry)⟩
  · refine Eq.trans ?_ (congrArg (List.drop _) hself.symm)
    show node.log ++ [entry] =
      (h.log node.id ++ [entry]).drop node.snapshot.lastIncludedIndex
    rw [List.drop_append_of_le_length hboundary, ← hrel.log]
  · exact hrel.snapshotTerm.trans (congrArg _ htake.symm)
  · intro hpos
    exact (hrel.durable.snapshotConfig hpos).trans (congrArg _ htake.symm)
  · exact informed_push hinformed entry
  · intro hcandidate
    have hcandidate : node.role = .candidate := hcandidate
    rw [hrole] at hcandidate
    cases hcandidate
  · refine ⟨helected, ?_, hnext, ?_⟩
    · refine hself.trans ?_
      have hterm : node.currentTerm = h.term node.id := hrel.term.symm
      simp only [History.setLeaderLog]
      exact (if_pos ⟨hterm, rfl⟩).symm
    · intro peer count hcount
      obtain ⟨hle, hheld⟩ := hmatched peer count hcount
      have hsame : (h.log node.id ++ [entry]).take count =
          (h.log node.id).take count := List.take_append_of_le_length hle
      refine ⟨?_, ?_⟩
      · refine hle.trans (le_of_le_of_eq ?_ (congrArg _ hself.symm))
        simp
      · rcases hheld with ⟨a, ha, havoter, haterm, haleader, hinit⟩ | hcovered
        · refine Or.inl ⟨a, ha, havoter, haterm, haleader, ?_⟩
          exact ((congrArg (List.take count) hself).trans hsame) ▸ hinit
        · refine Or.inr ?_
          have hext := hstep.extends.covered hcovered le_rfl hstep.extends.clock
          exact ((congrArg (List.take count) hself).trans hsame) ▸ hext

/-- Committing, ending a committed transition and retiring. -/
theorem advanceCommitIndex_simulates (s : h.Sound (membership initial))
    (hrel : NodeRel initial h node) (hrole : node.role = .leader)
    (hadvance : node.advanceCommitIndex = some (node', effects)) :
    ∃ h', Simulates initial h node effects h' node' := by
  have hstay : ∀ (n : Node) (candidate : Nat),
      (n.commitTo candidate).role = n.role ∧
        (n.commitTo candidate).currentTerm = n.currentTerm := by
    intro n candidate
    unfold Node.commitTo
    split <;> exact ⟨rfl, rfl⟩
  obtain ⟨candidate, hcandidate,
    ⟨-, rfl, rfl⟩ | ⟨hjoint, last, rest, hrest, rfl, rfl⟩⟩ :=
    Node.advanceCommitIndex_cases hadvance
  · obtain ⟨h₁, hcommit⟩ := commitTo_simulates s hrel hrole hcandidate
    exact ⟨h₁, hcommit.append (retireIfExcluded_simulates hcommit.rel)⟩
  · obtain ⟨h₁, hcommit⟩ := commitTo_simulates s hrel hrole hcandidate
    have s₁ := hcommit.steps.sound s
    simp only [Node.jointCommitted, Bool.and_eq_true, decide_eq_true_eq] at hjoint
    have hrole₁ := (hstay node candidate).1.trans hrole
    obtain ⟨h₂, happend⟩ := append_simulates s₁ hcommit.rel hrole₁
      (node.commitTo candidate).followUp rfl
      (by
        intro config hentry
        cases hentry
        exact ⟨Or.inr ⟨hjoint.1, rfl⟩, hjoint.2⟩)
    have s₂ := happend.steps.sound s₁
    obtain ⟨candidate', hcandidate', rfl, rfl⟩ := Node.advanceCommitIndex_plain
      (by rw [Node.recomputeConfig_push_followUp]) hrest
    obtain ⟨h₃, hcommit'⟩ := commitTo_simulates s₂ happend.rel hrole₁
      hcandidate'
    have hretire := (retireIfExcluded_simulates hcommit'.rel).append
      (retireIfExcluded_simulates (retireIfExcluded_rel hcommit'.rel))
    exact ⟨h₃, hcommit.append (happend.append (hcommit'.append hretire))⟩

theorem appendOwn_simulates (s : h.Sound (membership initial))
    (hrel : NodeRel initial h node) (hrole : node.role = .leader)
    (entry : LogEntry) {index : Nat} (hterm : entry.term = node.currentTerm)
    (hconfig : ∀ config, entryConfig entry = some config →
      configNext node.currentConfig config ∧
        node.currentConfigIndex ≤ node.commitIndex)
    (happend : node.appendOwn entry = some (node', index, effects)) :
    ∃ h', Simulates initial h node effects h' node' := by
  unfold Node.appendOwn at happend
  dsimp only at happend
  obtain ⟨⟨last, rest⟩, hadvance, happend⟩ := Option.bind_eq_some_iff.mp happend
  cases happend
  obtain ⟨h₁, hpush⟩ := append_simulates s hrel hrole entry hterm hconfig
  obtain ⟨h₂, hmore⟩ := advanceCommitIndex_simulates (hpush.steps.sound s)
    hpush.rel hrole hadvance
  exact ⟨h₂, hpush.append hmore⟩

theorem propose_simulates (s : h.Sound (membership initial))
    (hrel : NodeRel initial h node) {command : Bytes} {index : Nat}
    (hpropose : node.propose command = some (some (node', index, effects))) :
    ∃ h', Simulates initial h node effects h' node' := by
  unfold Node.propose at hpropose
  split at hpropose
  · cases hpropose
  rename_i hrole
  obtain ⟨appended, happend, hpropose⟩ := Option.bind_eq_some_iff.mp hpropose
  cases hpropose
  exact appendOwn_simulates s hrel (by simpa using hrole)
    ⟨node.currentTerm, .command command⟩ rfl
    (by intro config hentry; cases hentry) happend

/-- A write that only concerns the learners is no protocol step. -/
theorem learners_simulates (hrel : NodeRel initial h node)
    (hrel' : NodeRel initial h node') (hpersists : Persists node effects node')
    (hlength : effects.length ≤ 1) :
    Simulates initial h node effects h node' := by
  refine .atomic hrel .refl hrel' hpersists ?_
  intro written hlt _
  obtain rfl : written = 0 := by omega
  rfl

theorem proposeConfigChange_simulates (s : h.Sound (membership initial))
    (hrel : NodeRel initial h node) {newVoters : List NodeId} {index : Nat}
    (hfree : node.role = .leader → newVoters ≠ [] → node.NoChangeInFlight)
    (hpropose : node.proposeConfigChange newVoters =
      some (some (node', index, effects))) :
    ∃ h', Simulates initial h node effects h' node' := by
  unfold Node.proposeConfigChange at hpropose
  split at hpropose
  · cases hpropose
  rename_i hrole
  simp only [ne_eq, List.isEmpty_iff, not_or, not_not] at hrole
  obtain ⟨hplain, hcommitted⟩ := hfree hrole.1 hrole.2
  have hdrop := node.dropPromoted_persists newVoters
  have hlength : (node.dropPromoted newVoters).2.length ≤ 1 := by
    unfold Node.dropPromoted
    dsimp only
    split <;> simp
  obtain ⟨⟨last, index, rest⟩, happend, hpropose⟩ :=
    Option.bind_eq_some_iff.mp hpropose
  cases hpropose
  have hrel₁ : NodeRel initial h (node.dropPromoted newVoters).1 :=
    ⟨⟨hrel.term, hrel.durable.voted, hrel.durable.boundary, hrel.durable.log,
      hrel.durable.snapshotTerm, hrel.durable.snapshotConfig⟩, hrel.commit,
      hrel.informed, hrel.config, hrel.candidate, hrel.leader⟩
  obtain ⟨h', hsim⟩ := appendOwn_simulates s hrel₁ hrole.1
    ((node.dropPromoted newVoters).1.jointEntry newVoters) rfl
    (by
      intro config hentry
      cases hentry
      exact ⟨Or.inl ⟨hplain, rfl⟩, hcommitted⟩) happend
  exact ⟨h', (learners_simulates hrel hrel₁ hdrop hlength).append hsim⟩

/-! ### Responses -/

/-- Recording progress a peer really made. -/
theorem trackProgress_rel (hrel : NodeRel initial h node) {peer : NodeId}
    {count : Nat} (hmatched : node.role = .leader →
      Matched h node.id node.currentTerm peer count) :
    NodeRel initial h (node.trackProgress peer count) := by
  refine ⟨hrel.durable, hrel.commit, hrel.informed, hrel.config,
    hrel.candidate, fun hrole => ?_⟩
  obtain ⟨helected, hlog, hnext, hold⟩ := hrel.leader hrole
  refine ⟨helected, hlog, ?_, ?_⟩
  · intro other next hother
    have hother : (node.nextIndex.insert peer (count + 1))[other]? =
      some next := hother
    rw [Std.ExtTreeMap.getElem?_insert] at hother
    split at hother
    · cases hother
      exact Nat.succ_pos _
    · exact hnext other next hother
  · intro other found hother
    have hinserted : (node.matchIndex.insert peer count)[other]? =
      some found := hother
    rw [Std.ExtTreeMap.getElem?_insert] at hinserted
    split at hinserted
    · rename_i heq
      rw [← Std.LawfulEqCmp.eq_of_compare heq, ← Option.some.inj hinserted]
      exact hmatched hrole
    · exact hold other found hinserted

theorem Matched.max {id peer : NodeId} {term a b : Nat}
    (ha : Matched h id term peer a) (hb : Matched h id term peer b) :
    Matched h id term peer (max a b) := by
  rcases Nat.le_total a b with hle | hle
  · rwa [Nat.max_eq_right hle]
  · rwa [Nat.max_eq_left hle]

/-- An acknowledgement of the current term counts for its whole length. -/
theorem matched_of_ack (s : h.Sound (membership initial))
    (hrel : NodeRel initial h node) (hrole : node.role = .leader)
    {peer : NodeId} {count : Nat}
    (hack : ∃ a ∈ h.acks, a.voter = peer ∧ a.term = node.currentTerm ∧
      a.leader = node.id ∧ a.log.length = count) :
    Matched h node.id node.currentTerm peer count := by
  obtain ⟨a, ha, havoter, haterm, haleader, rfl⟩ := hack
  have hinit := (s.ack_leader a ha).2
  rw [haterm, haleader, ← (hrel.leader hrole).2.1] at hinit
  refine ⟨hinit.length_le, Or.inl ⟨a, ha, havoter, haterm, haleader, ?_⟩⟩
  rw [← List.prefix_iff_eq_take.mp hinit]

theorem continueReplication_messages (s : h.Sound (membership initial))
    (hrel : NodeRel initial h node) {peer : NodeId}
    (hmore : node.continueReplication peer = some effects) :
    ∀ effect ∈ effects, ∃ receiver message,
      effect = .send receiver message ∧
        MessageRel initial h node.id receiver message := by
  unfold Node.continueReplication at hmore
  split at hmore
  · rename_i hrole
    obtain ⟨next, -, hmore⟩ := Option.bind_eq_some_iff.mp hmore
    split at hmore
    · obtain ⟨effect, heffect, hmore⟩ := Option.bind_eq_some_iff.mp hmore
      cases hmore
      obtain ⟨message, rfl⟩ := Node.replicateTo_send heffect
      intro effect hmem
      rw [List.mem_singleton.mp hmem]
      exact ⟨peer, message, rfl, replicateTo_message s hrel hrole heffect⟩
    · cases hmore
      simp
  · cases hmore
    simp

/-- The common end of both kinds of response to a leader. -/
theorem progress_simulates (s : h.Sound (membership initial))
    (hrel : NodeRel initial h node) (hrole : node.role = .leader)
    {peer : NodeId} {count : Nat} {last : Node} {persist more : List Effect}
    (hmatched : Matched h node.id node.currentTerm peer count)
    (hadvance : (node.trackProgress peer count).advanceCommitIndex =
      some (last, persist))
    (hmore : last.continueReplication peer = some more) :
    ∃ h', Simulates initial h node (persist ++ more) h' last := by
  have hrel₁ := trackProgress_rel hrel (fun _ => hmatched)
  obtain ⟨h₁, hsim⟩ := advanceCommitIndex_simulates s hrel₁ hrole hadvance
  have hquiet := Simulates.quiet hrel .refl hrel₁ rfl rfl
  exact ⟨h₁, (hquiet.append hsim).append (.messages hsim.rel
    (continueReplication_messages (hsim.steps.sound s) hsim.rel hmore))⟩

theorem onInstallSnapshotResponse_simulates (s : h.Sound (membership initial))
    (hrel : NodeRel initial h node) {sender : NodeId}
    {response : InstallSnapshotResponse}
    (hmessage : MessageRel initial h sender node.id
      (.installSnapshotResponse response))
    (hstep : node.onInstallSnapshotResponse sender response =
      some (node', effects)) :
    ∃ h', Simulates initial h node effects h' node' := by
  unfold Node.onInstallSnapshotResponse at hstep
  split at hstep
  · rename_i hterm
    cases hstep
    exact stepDown_simulates s hrel hterm
  rename_i hhigher
  split at hstep
  · cases hstep
    exact ⟨h, .refl hrel⟩
  rename_i hcurrent
  simp only [not_or, not_lt, ne_eq, not_not] at hcurrent
  obtain ⟨hlower, hrole⟩ := hcurrent
  have hterm : response.term = node.currentTerm := by omega
  obtain ⟨matchIndex, hmatch, hstep⟩ := Option.bind_eq_some_iff.mp hstep
  obtain ⟨⟨last, persist⟩, hadvance, hstep⟩ := Option.bind_eq_some_iff.mp hstep
  obtain ⟨more, hmore, hstep⟩ := Option.bind_eq_some_iff.mp hstep
  cases hstep
  obtain ⟨helected, hlog, -, hold⟩ := hrel.leader hrole
  refine progress_simulates s hrel hrole ((hold _ _ hmatch).max ?_)
    hadvance hmore
  rcases hmessage with hack | ⟨covered, hlength, hcovered⟩
  · rw [hterm] at hack
    exact matched_of_ack s hrel hrole hack
  · rw [hterm] at hcovered
    have hinit := s.covered_in_leader hcovered le_rfl helected
    rw [← hlog] at hinit
    rw [← hlength]
    refine ⟨hinit.length_le, Or.inr ?_⟩
    rw [← List.prefix_iff_eq_take.mp hinit]
    exact hcovered

theorem onAppendEntriesResponse_simulates (s : h.Sound (membership initial))
    (hrel : NodeRel initial h node) {sender : NodeId}
    {response : AppendEntriesResponse}
    (hmessage : MessageRel initial h sender node.id
      (.appendEntriesResponse response))
    (hstep : node.onAppendEntriesResponse sender response =
      some (node', effects)) :
    ∃ h', Simulates initial h node effects h' node' := by
  unfold Node.onAppendEntriesResponse at hstep
  split at hstep
  · rename_i hterm
    cases hstep
    exact stepDown_simulates s hrel hterm
  rename_i hhigher
  split at hstep
  · cases hstep
    exact ⟨h, .refl hrel⟩
  rename_i hcurrent
  simp only [not_or, not_lt, ne_eq, not_not] at hcurrent
  obtain ⟨hlower, hrole⟩ := hcurrent
  have hterm : response.term = node.currentTerm := by omega
  split at hstep
  · rename_i hsuccess
    obtain ⟨matchIndex, hmatch, hstep⟩ := Option.bind_eq_some_iff.mp hstep
    obtain ⟨⟨last, persist⟩, hadvance, hstep⟩ :=
      Option.bind_eq_some_iff.mp hstep
    obtain ⟨more, hmore, hstep⟩ := Option.bind_eq_some_iff.mp hstep
    cases hstep
    have hack := hmessage hsuccess
    rw [hterm] at hack
    exact progress_simulates s hrel hrole
      (((hrel.leader hrole).2.2.2 _ _ hmatch).max
        (matched_of_ack s hrel hrole hack)) hadvance hmore
  · obtain ⟨next, hnext, hstep⟩ := Option.bind_eq_some_iff.mp hstep
    dsimp only at hstep
    obtain ⟨more, hmore, hstep⟩ := Option.bind_eq_some_iff.mp hstep
    cases hstep
    have hrel₁ : NodeRel initial h { node with
        nextIndex := node.nextIndex.insert sender (max (next - 1) 1) } := by
      refine ⟨hrel.durable, hrel.commit, hrel.informed, hrel.config,
        hrel.candidate, fun hrole => ?_⟩
      obtain ⟨helected, hlog, hpos, hmatched⟩ := hrel.leader hrole
      refine ⟨helected, hlog, fun other found hfound => ?_, hmatched⟩
      have hfound : (node.nextIndex.insert sender (max (next - 1) 1))[other]? =
        some found := hfound
      rw [Std.ExtTreeMap.getElem?_insert] at hfound
      split at hfound
      · cases hfound
        omega
      · exact hpos other found hfound
    exact ⟨h, (Simulates.quiet hrel .refl hrel₁ rfl rfl).append
      (.messages hrel₁ (continueReplication_messages s hrel₁ hmore))⟩

end Kurogane.Sim
