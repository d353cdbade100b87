import Kurogane.Raft.Tracking
import Kurogane.Sim.Simulation

/-!
Elections as protocol steps: stepping down, campaigning, voting and winning.
A candidate wins by `hasQuorum`, which counts the granted votes without asking
who cast them; the protocol asks for a majority of the voters.
-/

namespace Kurogane.Raft.Node

/-- Votes that `hasQuorum` counts as a majority contain a majority of the
voters themselves. -/
def VotersCounted (node : Node) (votes : NodeSet) : Prop :=
  node.quorumSize ≤ votes.size →
    (∀ old ∈ node.currentConfig.oldVoters,
      majorityReached old votes.contains = true) →
    majorityReached node.currentConfig.voters votes.contains = true

instance (node : Node) (votes : NodeSet) :
    Decidable (node.VotersCounted votes) :=
  inferInstanceAs (Decidable (_ → _ → _))

end Kurogane.Raft.Node

namespace Kurogane.Sim

open Kurogane.Raft Kurogane.Consensus

variable {initial : ClusterConfig} {h : Ghost} {node node' : Node}
  {effects : List Effect}

/-! ### Messages of a leader -/

/-- Whatever a leader sends a peer speaks of its own log. -/
theorem replicateTo_message (s : h.Sound (membership initial))
    (hrel : NodeRel initial h node) (hrole : node.role = .leader)
    {peer receiver : NodeId} {message : Message}
    (hsend : node.replicateTo peer = some (.send receiver message)) :
    MessageRel initial h node.id receiver message := by
  obtain ⟨helected, hlog, hnext, -⟩ := hrel.leader hrole
  unfold Node.replicateTo at hsend
  obtain ⟨nextIndex, hpeer, hsend⟩ := Option.bind_eq_some_iff.mp hsend
  have hpos := hnext peer nextIndex hpeer
  split at hsend
  · rename_i hbehind
    cases hsend
    have hle := hrel.boundary_le_length s
    refine ⟨helected, by simp only; omega,
      (h.log node.id).take node.snapshot.lastIncludedIndex, ?_, ?_, ?_, ?_, ?_⟩
    · rw [hlog]
      exact List.take_prefix _ _
    · simpa using hle
    · exact hrel.snapshotTerm.symm
    · exact (hrel.snapshotConfig (Or.inl (by omega))).symm
    · exact hrel.snapshot_covered s
  · rename_i hahead
    dsimp only at hsend
    obtain ⟨entries, hentries, hsend⟩ := Option.bind_eq_some_iff.mp hsend
    cases hsend
    simp only [Node.entriesFrom, Option.ite_none_right_eq_some,
      Option.some.injEq] at hentries
    obtain ⟨hvec, hentries⟩ := hentries
    have hlength : node.snapshot.lastIncludedIndex + node.log.length =
        (h.log node.id).length := hrel.lastLogIndex s
    have hprev : nextIndex - 1 ≤ (h.log node.id).length := by
      simp only [Node.vecIndex] at hvec
      omega
    have hwhole : (h.log node.id).take (nextIndex - 1) ++ entries =
        h.log node.id := by
      rw [← hentries, hrel.log, List.drop_drop, Node.vecIndex,
        show node.snapshot.lastIncludedIndex + (nextIndex -
          node.snapshot.lastIncludedIndex - 1) = nextIndex - 1 by omega,
        List.take_append_drop]
    refine ⟨helected, (h.log node.id).take (nextIndex - 1), ?_, ?_, ?_, ?_, ?_⟩
    · simp only [hwhole, ← hlog]
      exact List.prefix_refl _
    · simpa using hprev
    · rcases Nat.eq_zero_or_pos (nextIndex - 1) with hzero | hprevPos
      · simp [hzero, Node.termAt]
      · simp [hrel.termAt hprevPos (by omega) hprev]
    · simp only [hwhole]
      exact hrel.commit_le_length s
    · simp only [hwhole]
      exact hrel.committed_covered s

theorem broadcast_messages (s : h.Sound (membership initial))
    (hrel : NodeRel initial h node) (hrole : node.role = .leader)
    (hbroadcast : node.broadcastReplication = some effects) :
    ∀ effect ∈ effects, ∃ receiver message,
      effect = .send receiver message ∧
        MessageRel initial h node.id receiver message := by
  intro effect hmem
  obtain ⟨peer, -, hpeer⟩ := Node.mem_broadcastReplication hbroadcast hmem
  obtain ⟨message, rfl⟩ := Node.replicateTo_send hpeer
  exact ⟨peer, message, rfl, replicateTo_message s hrel hrole hpeer⟩

/-! ### Terms and timers -/

/-- Adopting a higher term forgets the vote of the old one. -/
theorem stepDown_rel (s : h.Sound (membership initial))
    (hrel : NodeRel initial h node) {term : Nat}
    (hterm : node.currentTerm < term) :
    ∃ h', History.Step (membership initial) node.id h h' ∧
      NodeRel initial h' (node.stepDown term) ∧
      h'.term node.id = term := by
  refine ⟨_, .advance term (by rw [hrel.term]; exact hterm.le), ?_, ?_⟩
  · refine ⟨⟨?_, ?_, hrel.durable.boundary, hrel.durable.log,
      hrel.durable.snapshotTerm, hrel.durable.snapshotConfig⟩, hrel.commit,
      fun hrole => absurd rfl hrole, hrel.config, nofun, nofun⟩
    · exact Function.update_self _ _ _
    · intro c
      constructor
      · nofun
      · rintro ⟨a, ha, hvoter, haterm, -⟩
        have hvoter : a.voter = node.id := hvoter
        have hold := s.vote_term a ha
        rw [hvoter, hrel.term] at hold
        have haterm : a.term = term := haterm
        omega
  · exact Function.update_self _ _ _

theorem stepDown_simulates (s : h.Sound (membership initial))
    (hrel : NodeRel initial h node) {term : Nat}
    (hterm : node.currentTerm < term) :
    ∃ h', Simulates initial h node [(node.stepDown term).persistHardState] h'
      (node.stepDown term) := by
  obtain ⟨h', hstep, hrel', -⟩ := stepDown_rel s hrel hterm
  exact ⟨h', .write hrel (.single hstep) hrel' (node.stepDown_persists term)⟩

theorem onLeaderTick_simulates (s : h.Sound (membership initial))
    (hrel : NodeRel initial h node) (hrole : node.role = .leader)
    (htick : node.onLeaderTick = some (node', effects)) :
    ∃ h', Simulates initial h node effects h' node' := by
  have hquiet : ∀ heartbeat contact : Nat, NodeRel initial h { node with
      heartbeatElapsed := heartbeat, leaderContactElapsed := contact } :=
    fun _ _ => ⟨hrel.durable, hrel.commit, hrel.informed, hrel.config,
      hrel.candidate, hrel.leader⟩
  unfold Node.onLeaderTick at htick
  dsimp only at htick
  split at htick
  · cases htick
    exact ⟨h, .quiet hrel .refl (hquiet _ _) rfl rfl⟩
  · obtain ⟨sends, hsends, htick⟩ := Option.bind_eq_some_iff.mp htick
    cases htick
    have hrel' := hquiet 0 (node.leaderContactElapsed + 1)
    exact ⟨h, (Simulates.quiet hrel .refl hrel' rfl rfl).append
      (.messages hrel' (broadcast_messages s hrel' hrole hsends))⟩

/-! ### Winning -/

/-- A counted majority of the voters, and of the old voters during a
transition, is what the protocol calls a quorum. -/
theorem configQuorum_of_hasQuorum {P : NodeId → Prop}
    (hcounted : node.VotersCounted node.votesGranted)
    (hquorum : node.hasQuorum = true)
    (hvotes : ∀ u ∈ node.votesGranted, P u) :
    configQuorum node.currentConfig P := by
  have hmono : ∀ set, majorityReached set node.votesGranted.contains = true →
      Majority set P := fun set hset =>
    ((majorityReached_iff set _).mp hset).mono (fun u hu => hvotes u hu)
  unfold Node.hasQuorum at hquorum
  cases hold : node.currentConfig.oldVoters with
  | none =>
      simp only [hold, decide_eq_true_eq] at hquorum
      exact ⟨hmono _ (hcounted hquorum (by simp [hold])), by simp [hold]⟩
  | some old =>
      simp only [hold, Bool.and_eq_true, decide_eq_true_eq] at hquorum
      refine ⟨hmono _ (hcounted hquorum.1 (by simpa [hold] using hquorum.2)), ?_⟩
      rintro _ hsome
      rw [hold] at hsome
      cases hsome
      exact hmono old hquorum.2

theorem becomeLeader_simulates (s : h.Sound (membership initial))
    (hrel : NodeRel initial h node) (hrole : node.role = .candidate)
    (hcounted : node.VotersCounted node.votesGranted)
    (hquorum : node.hasQuorum = true)
    (hleader : node.becomeLeader = some (node', effects)) :
    ∃ h', Simulates initial h node effects h' node' := by
  obtain ⟨hcampaign, hnot, hvotes⟩ := hrel.candidate hrole
  have hinformed := hrel.informed (by rw [hrole]; nofun)
  unfold Node.becomeLeader at hleader
  dsimp only at hleader
  obtain ⟨sends, hsends, hleader⟩ := Option.bind_eq_some_iff.mp hleader
  cases hleader
  rw [← hrel.term] at hcampaign hnot
  have hwon := configQuorum_of_hasQuorum hcounted hquorum hvotes
  rw [hrel.currentConfig hinformed, ← hrel.term] at hwon
  have hstep := History.Step.elect (R := membership initial) hcampaign hnot hwon
  generalize hnew : ({ node with
    role := .leader, heartbeatElapsed := 0
    nextIndex := node.replicationTargets.toList.foldl (fun progress peer =>
      progress.insert peer (node.lastLogIndex + 1)) ∅
    matchIndex := node.replicationTargets.toList.foldl (fun progress peer =>
      progress.insert peer 0) ∅ } : Node) = leader at hsends ⊢
  generalize hh : ({ h.tick with
    elections := insert
      ⟨node.id, h.term node.id, h.log node.id, h.clock⟩ h.elections
    leaderLog := h.setLeaderLog (h.term node.id) node.id
      (h.log node.id) } : Ghost) = h' at hstep
  have hrel' : NodeRel initial h' leader := by
    subst hnew hh
    refine ⟨⟨hrel.durable.term, hrel.durable.voted, hrel.durable.boundary,
      hrel.durable.log, hrel.durable.snapshotTerm,
      hrel.durable.snapshotConfig⟩, hrel.commit, fun _ => hinformed,
      hrel.config, nofun, fun _ => ⟨?_, ?_, ?_, ?_⟩⟩
    · exact ⟨_, Set.mem_insert _ _, hrel.term, rfl⟩
    · simp only [History.setLeaderLog, hrel.term, and_self, ite_true]
      rfl
    · intro peer next hnext
      rcases foldl_insert_const _ _ _ hnext with rfl | hnone
      · exact Nat.succ_pos _
      · simp at hnone
    · intro peer count hcount
      rcases foldl_insert_const _ _ _ hcount with rfl | hnone
      · exact ⟨Nat.zero_le _, Or.inr (Or.inl (List.take_zero))⟩
      · simp at hnone
  have hid : leader.id = node.id := by rw [← hnew]
  have hdurable : leader.durable = node.durable := by
    rw [← hnew]
    rfl
  have hleading : leader.role = .leader := by rw [← hnew]
  have s' := s.step hstep
  exact ⟨h', (Simulates.quiet hrel (.single hstep) hrel' hid hdurable).append
    (.messages hrel' (broadcast_messages s' hrel' hleading hsends))⟩

/-! ### Campaigning -/

theorem elected_term_le (s : h.Sound (membership initial)) {term : Nat}
    {id : NodeId} (helected : h.Elected term id) : term ≤ h.term id := by
  obtain ⟨e, he, rfl, rfl⟩ := helected
  obtain ⟨c, hc, hnode, hterm, -⟩ := s.election_campaign e he
  have hle := s.campaign_term c hc
  rw [hnode, hterm] at hle
  exact hle

theorem campaign_rel (s : h.Sound (membership initial))
    (hrel : NodeRel initial h node) (hinformed : node.Informed initial)
    (nextTimeout : Nat) :
    ∃ h', History.Steps (membership initial) node.id h h' ∧
      NodeRel initial h' (node.campaign nextTimeout) := by
  have hterm := hrel.term
  have hadvance := History.Step.advance (R := membership initial) (v := node.id)
    (h := h) (node.currentTerm + 1) (by omega)
  generalize hh₁ : ({ h.tick with
    term := Function.update h.term node.id
      (node.currentTerm + 1) } : Ghost) = h₁ at hadvance
  have hterm₁ : h₁.term node.id = node.currentTerm + 1 := by
    rw [← hh₁]
    exact Function.update_self _ _ _
  have hlog₁ : h₁.log = h.log := by rw [← hh₁]; rfl
  have hvotes₁ : h₁.votes = h.votes := by rw [← hh₁]; rfl
  have hcampaigns₁ : h₁.campaigns = h.campaigns := by rw [← hh₁]; rfl
  have helections₁ : h₁.elections = h.elections := by rw [← hh₁]; rfl
  have hcommit₁ : h₁.commit = h.commit := by rw [← hh₁]; rfl
  have hdeclare := History.Step.declare (R := membership initial)
    (v := node.id) (h := h₁)
    (by
      intro c hc hnode
      rw [hcampaigns₁] at hc
      have hle := s.campaign_term c hc
      rw [hnode] at hle
      omega)
    (by
      have hle := s.node_term node.id
      rw [hlog₁]
      omega)
  generalize hh₂ : ({ h₁.tick with
    campaigns := insert ⟨node.id, h₁.term node.id, h₁.log node.id⟩
      h₁.campaigns } : Ghost) = h₂ at hdeclare
  have hvotes₂ : h₂.votes = h.votes := by rw [← hh₂]; exact hvotes₁
  have hterm₂ : h₂.term node.id = node.currentTerm + 1 := by
    rw [← hh₂]
    exact hterm₁
  have hlog₂ : h₂.log = h.log := by rw [← hh₂]; exact hlog₁
  have hcampaign₂ : ⟨node.id, node.currentTerm + 1, h.log node.id⟩ ∈
      h₂.campaigns := by
    rw [← hh₂, ← hterm₁, ← hlog₁]
    exact Set.mem_insert _ _
  have hold : ∀ a ∈ h.votes, a.voter = node.id → a.term ≠ node.currentTerm + 1 := by
    intro a ha hvoter
    have hle := s.vote_term a ha
    rw [hvoter] at hle
    omega
  have hvote := History.Step.vote (R := membership initial) (v := node.id)
    (h := h₂) _ hcampaign₂ hterm₂.symm
    (by
      intro a ha hvoter
      rw [hvotes₂] at ha
      exact hold a ha hvoter)
    (by
      rw [hlog₂]
      exact Or.inr ⟨rfl, le_rfl⟩)
  refine ⟨_, .tail (.tail (.single hadvance) hdeclare) hvote, ?_⟩
  refine ⟨⟨hterm₂, ?_, ?_, ?_, ?_, ?_⟩, ?_, fun _ => hinformed, hrel.config,
    fun _ => ⟨?_, ?_, ?_⟩, nofun⟩
  · intro c
    constructor
    · intro hc
      cases hc
      exact ⟨_, Set.mem_insert _ _, rfl, rfl, rfl⟩
    · rintro ⟨a, rfl | ha, hvoter, haterm, hcandidate⟩
      · exact congrArg some hcandidate
      · exact absurd haterm (hold a (hvotes₂ ▸ ha) hvoter)
  · rw [← hh₂, ← hh₁]
    exact hrel.durable.boundary
  · simp only [History.tick_log, hlog₂]
    exact hrel.durable.log
  · simp only [History.tick_log, hlog₂]
    exact hrel.durable.snapshotTerm
  · simp only [History.tick_log, hlog₂]
    exact hrel.durable.snapshotConfig
  · rw [← hh₂, ← hh₁]
    exact hrel.commit
  · simp only [History.tick_log, hlog₂]
    exact hcampaign₂
  · rintro ⟨e, he, heterm, heleader⟩
    have he : e ∈ h.elections := by
      rw [← helections₁]
      rw [← hh₂] at he
      exact he
    have hle := elected_term_le s ⟨e, he, heterm, heleader⟩
    have hid : (node.campaign nextTimeout).id = node.id := rfl
    have hnew : (node.campaign nextTimeout).currentTerm =
        node.currentTerm + 1 := rfl
    rw [hid, hnew] at hle
    omega
  · intro u hu
    have hu : u = node.id := by
      have hu : u ∈ (∅ : NodeSet).insert node.id := hu
      rw [Std.ExtTreeSet.mem_insert] at hu
      rcases hu with hu | hu
      · exact (Std.LawfulEqCmp.eq_of_compare hu).symm
      · exact absurd hu Std.ExtTreeSet.not_mem_empty
    exact ⟨_, Set.mem_insert _ _, hu.symm, rfl, rfl⟩

/-- A node that asks for votes states its own log. -/
theorem requestVotes_messages (s : h.Sound (membership initial))
    (hrel : NodeRel initial h node) (hrole : node.role = .candidate) :
    ∀ effect ∈ node.requestVotes, ∃ receiver message,
      effect = .send receiver message ∧
        MessageRel initial h node.id receiver message := by
  intro effect hmem
  obtain ⟨peer, -, rfl⟩ := List.mem_map.mp hmem
  exact ⟨peer, _, rfl, _, (hrel.candidate hrole).1, rfl, rfl,
    (hrel.lastLogIndex s).symm, hrel.lastLogTerm.symm⟩

theorem startElection_simulates (s : h.Sound (membership initial))
    (hrel : NodeRel initial h node) {nextTimeout : Nat}
    (hinformed : node.currentConfig.isVoter node.id = true → node.Informed initial)
    (hcounted : node.currentConfig.isVoter node.id = true →
      node.VotersCounted ((∅ : NodeSet).insert node.id))
    (hstart : node.startElection nextTimeout = some (node', effects)) :
    ∃ h', Simulates initial h node effects h' node' := by
  unfold Node.startElection at hstart
  split at hstart
  · cases hstart
    exact ⟨h, .refl hrel⟩
  rename_i hvoter
  have hvoter : node.currentConfig.isVoter node.id = true := by simpa using hvoter
  have hcounted := hcounted hvoter
  dsimp only at hstart
  obtain ⟨h₁, hsteps, hrel₁⟩ := campaign_rel s hrel (hinformed hvoter) nextTimeout
  have hwrite := Simulates.write hrel hsteps hrel₁
    (node.campaign_persists nextTimeout)
  have s₁ := hsteps.sound s
  split at hstart
  · rename_i hquorum
    obtain ⟨⟨leader, sends⟩, hleader, hstart⟩ := Option.bind_eq_some_iff.mp hstart
    cases hstart
    obtain ⟨h₂, hwon⟩ := becomeLeader_simulates s₁ hrel₁ rfl hcounted hquorum
      hleader
    exact ⟨h₂, hwrite.append hwon⟩
  · cases hstart
    exact ⟨h₁, hwrite.append
      (.messages hrel₁ (requestVotes_messages s₁ hrel₁ rfl))⟩

theorem onTick_simulates (s : h.Sound (membership initial))
    (hrel : NodeRel initial h node) {nextTimeout : Nat}
    (hinformed : node.role ≠ .leader →
      node.electionTimeout ≤ node.electionElapsed + 1 →
      node.currentConfig.isVoter node.id = true → node.Informed initial)
    (hcounted : node.role ≠ .leader →
      node.electionTimeout ≤ node.electionElapsed + 1 →
      node.currentConfig.isVoter node.id = true →
      node.VotersCounted ((∅ : NodeSet).insert node.id))
    (htick : node.onTick nextTimeout = some (node', effects)) :
    ∃ h', Simulates initial h node effects h' node' := by
  unfold Node.onTick at htick
  split at htick
  · rename_i hrole
    exact onLeaderTick_simulates s hrel hrole htick
  rename_i hrole
  dsimp only at htick
  have hrel' : NodeRel initial h { node with
      electionElapsed := node.electionElapsed + 1
      leaderContactElapsed := node.leaderContactElapsed + 1 } :=
    ⟨hrel.durable, hrel.commit, hrel.informed, hrel.config,
      hrel.candidate, hrel.leader⟩
  have hquiet := Simulates.quiet hrel .refl hrel' rfl rfl
  split at htick
  · cases htick
    exact ⟨h, hquiet⟩
  · rename_i hexpired
    have hexpired := Nat.not_lt.mp hexpired
    obtain ⟨h', hstart⟩ := startElection_simulates s hrel'
      (hinformed hrole hexpired) (hcounted hrole hexpired) htick
    exact ⟨h', hquiet.append hstart⟩

/-! ### Voting -/

theorem onRequestVoteResponse_simulates (s : h.Sound (membership initial))
    (hrel : NodeRel initial h node) {sender : NodeId}
    {response : RequestVoteResponse}
    (hmessage : MessageRel initial h sender node.id
      (.requestVoteResponse response))
    (hcounted : response.granted = true → response.term = node.currentTerm →
      node.role = .candidate → node.VotersCounted (node.votesGranted.insert sender))
    (hstep : node.onRequestVoteResponse sender response =
      some (node', effects)) :
    ∃ h', Simulates initial h node effects h' node' := by
  unfold Node.onRequestVoteResponse at hstep
  split at hstep
  · rename_i hterm
    cases hstep
    exact stepDown_simulates s hrel hterm
  split at hstep
  · cases hstep
    exact ⟨h, .refl hrel⟩
  rename_i hhigher hcandidate
  simp only [not_or, not_lt, ne_eq, not_not] at hcandidate
  obtain ⟨hle, hrole⟩ := hcandidate
  split at hstep
  · rename_i hgranted
    dsimp only at hstep
    obtain ⟨a, ha, hvoter, haterm, hacandidate⟩ := hmessage hgranted
    have hrel' : NodeRel initial h { node with
        votesGranted := node.votesGranted.insert sender } := by
      refine ⟨hrel.durable, hrel.commit, hrel.informed, hrel.config,
        fun _ => ⟨(hrel.candidate hrole).1, (hrel.candidate hrole).2.1, ?_⟩,
        hrel.leader⟩
      intro u hu
      have hu : u ∈ node.votesGranted.insert sender := hu
      rw [Std.ExtTreeSet.mem_insert] at hu
      rcases hu with hu | hu
      · obtain rfl := Std.LawfulEqCmp.eq_of_compare hu
        exact ⟨a, ha, hvoter, haterm.trans (by
          show response.term = node.currentTerm
          omega), hacandidate⟩
      · exact (hrel.candidate hrole).2.2 u hu
    have hquiet := Simulates.quiet hrel .refl hrel' rfl rfl
    split at hstep
    · rename_i hquorum
      obtain ⟨h', hwon⟩ := becomeLeader_simulates s hrel' hrole
        (hcounted hgranted (by omega) hrole) hquorum hstep
      exact ⟨h', hquiet.append hwon⟩
    · cases hstep
      exact ⟨h, hquiet⟩
  · cases hstep
    exact ⟨h, .refl hrel⟩

/-- Granting a vote to a campaign whose log is at least as up to date. -/
theorem grant_rel (hrel : NodeRel initial h node)
    {c : Campaign NodeId LogEntry} (hc : c ∈ h.campaigns)
    (hterm : c.term = node.currentTerm)
    (hup : (membership initial).UpToDate c.log (h.log node.id))
    (hfree : node.votedFor = none ∨ node.votedFor = some c.node) :
    ∃ h', History.Steps (membership initial) node.id h h' ∧
      NodeRel initial h' { node with
        votedFor := some c.node, electionElapsed := 0 } ∧
      ∃ a ∈ h'.votes, a.voter = node.id ∧ a.term = node.currentTerm ∧
        a.candidate = c.node := by
  rcases hfree with hnone | hsame
  · have hunused : ∀ a ∈ h.votes, a.voter = node.id → a.term ≠ c.term := by
      intro a ha hvoter haterm
      have hvoted := (hrel.durable.voted a.candidate).mpr
        ⟨a, ha, hvoter, haterm.trans hterm, rfl⟩
      rw [show node.durable.hardState.votedFor = none from hnone] at hvoted
      cases hvoted
    have hvote := History.Step.vote (R := membership initial) c hc
      (hterm.trans hrel.term.symm) hunused hup
    refine ⟨_, .single hvote,
      ⟨⟨hrel.term, ?_, hrel.durable.boundary, hrel.durable.log,
        hrel.durable.snapshotTerm, hrel.durable.snapshotConfig⟩, hrel.commit,
        hrel.informed, hrel.config, fun hrole => ?_, fun hrole => ?_⟩, ?_⟩
    · intro candidate
      constructor
      · intro hcandidate
        exact ⟨_, Set.mem_insert _ _, rfl, hterm,
          Option.some.inj hcandidate⟩
      · rintro ⟨a, rfl | ha, hvoter, haterm, hcandidate⟩
        · exact congrArg some hcandidate
        · exact absurd (haterm.trans hterm.symm) (hunused a ha hvoter)
    · obtain ⟨hcampaign, hnot, hvotes⟩ := hrel.candidate hrole
      refine ⟨hcampaign, hnot, fun u hu => ?_⟩
      obtain ⟨a, ha, hfacts⟩ := hvotes u hu
      exact ⟨a, Set.mem_insert_of_mem _ ha, hfacts⟩
    · obtain ⟨helected, hlog, hnext, hmatched⟩ := hrel.leader hrole
      exact ⟨helected, hlog, hnext, fun peer count hcount =>
        (hmatched peer count hcount).extends hvote.extends rfl⟩
    · exact ⟨_, Set.mem_insert _ _, rfl, hterm, rfl⟩
  · refine ⟨h, .refl, ⟨⟨hrel.term, ?_, hrel.durable.boundary,
      hrel.durable.log, hrel.durable.snapshotTerm,
      hrel.durable.snapshotConfig⟩, hrel.commit, hrel.informed,
      hrel.config, hrel.candidate, hrel.leader⟩, ?_⟩
    · rw [← hsame]
      exact hrel.durable.voted
    · exact (hrel.durable.voted c.node).mp hsame

theorem onRequestVote_simulates (s : h.Sound (membership initial))
    (hrel : NodeRel initial h node) {sender : NodeId} {request : RequestVote}
    (hmessage : MessageRel initial h sender node.id (.requestVote request))
    (hcandidate : request.candidateId = sender)
    (hstep : node.onRequestVote sender request = some (node', effects)) :
    ∃ h', Simulates initial h node effects h' node' := by
  have hrefused : ∀ (h : Ghost) (n : Node), MessageRel initial h n.id sender
      (.requestVoteResponse { term := n.currentTerm, granted := false }) := by
    intro h n hgranted
    cases hgranted
  unfold Node.onRequestVote at hstep
  split at hstep
  · cases hstep
    exact ⟨h, (Simulates.refl hrel).reply (hrefused h node)⟩
  rename_i hcurrent
  split at hstep
  · cases hstep
    exact ⟨h, (Simulates.refl hrel).reply (hrefused h node)⟩
  split at hstep
  · cases hstep
    exact ⟨h, (Simulates.refl hrel).reply (hrefused h node)⟩
  dsimp only at hstep
  -- Adopt the term of the request first.
  generalize hdown : (if decide (node.currentTerm < request.term) = true
    then node.stepDown request.term else node) = voter at hstep
  obtain ⟨h₁, hsteps₁, hrel₁, hid₁, hterm₁, hdurable₁⟩ : ∃ h₁,
      History.Steps (membership initial) node.id h h₁ ∧
      NodeRel initial h₁ voter ∧ voter.id = node.id ∧
      voter.currentTerm = request.term ∧
      voter.durable = { node.durable with
        hardState := ⟨voter.currentTerm, voter.votedFor⟩ } := by
    by_cases hlt : node.currentTerm < request.term
    · obtain ⟨h₁, hstep₁, hrel₁, -⟩ := stepDown_rel s hrel hlt
      simp only [hlt, decide_true, ite_true] at hdown
      subst hdown
      exact ⟨h₁, .single hstep₁, hrel₁, rfl, rfl, rfl⟩
    · simp only [hlt, decide_false, Bool.false_eq_true, ite_false] at hdown
      subst hdown
      exact ⟨h, .refl, hrel, rfl, by omega, rfl⟩
  have s₁ := hsteps₁.sound s
  obtain ⟨c, hc, hcnode, hcterm, hclength, hclast⟩ :=
    hmessage.extends hsteps₁.extends
  by_cases hgrant : (voter.logIsUpToDate request && (voter.votedFor.isNone ||
      decide (voter.votedFor = some request.candidateId))) = true
  · simp only [hgrant, ite_true, Bool.or_true] at hstep
    cases hstep
    simp only [Bool.and_eq_true, Bool.or_eq_true, Option.isNone_iff_eq_none,
      decide_eq_true_eq] at hgrant
    have hup : (membership initial).UpToDate c.log (h₁.log voter.id) := by
      have hlog := hgrant.1
      simp only [Node.logIsUpToDate, Bool.or_eq_true, Bool.and_eq_true,
        decide_eq_true_eq, hrel₁.lastLogTerm, hrel₁.lastLogIndex s₁] at hlog
      rw [← hclength, ← hclast] at hlog
      exact hlog
    obtain ⟨h₂, hsteps₂, hrel₂, a, ha, havoter, haterm, hacandidate⟩ :=
      grant_rel hrel₁ hc (hcterm.trans hterm₁.symm) hup (hcnode ▸ hgrant.2)
    rw [hcnode] at hrel₂
    rw [hid₁] at hsteps₂
    refine ⟨h₂, (Simulates.write hrel (hsteps₁.trans hsteps₂) hrel₂
      (.hardState hid₁ ?_)).reply ?_⟩
    · exact congrArg (fun d : Durable => { d with
        hardState := ⟨voter.currentTerm, some request.candidateId⟩ }) hdurable₁
    · intro _
      exact ⟨a, ha, havoter, haterm,
        hacandidate.trans (hcnode.trans hcandidate)⟩
  · have hgrant : (voter.logIsUpToDate request && (voter.votedFor.isNone ||
        decide (voter.votedFor = some request.candidateId))) = false :=
      eq_false_of_ne_true hgrant
    simp only [hgrant, Bool.or_false, Bool.false_eq_true, ite_false] at hstep
    cases hstep
    by_cases hlt : node.currentTerm < request.term
    · simp only [hlt, decide_true, ite_true]
      exact ⟨h₁, (Simulates.write hrel hsteps₁ hrel₁
        (.hardState hid₁ hdurable₁)).reply (hrefused h₁ _)⟩
    · obtain rfl : node = node' := by simpa [hlt] using hdown
      simp only [hlt, decide_false, Bool.false_eq_true, ite_false]
      exact ⟨h, (Simulates.refl hrel).reply (hrefused h node)⟩

end Kurogane.Sim
