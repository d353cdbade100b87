import Kurogane.Consensus.Protocol

/-!
Every step keeps the history sound, so every history reachable from the empty
one is: election safety, leader completeness, log matching and agreement on
committed prefixes hold along every run of the protocol.
-/

namespace Kurogane.Consensus

namespace History

variable {Node Entry Config : Type*} {R : Rules Node Entry Config}
  {h h' : History Node Entry} {v : Node}

/-- The history before anything happened. -/
def empty (Node Entry : Type*) : History Node Entry where
  clock := 0
  term _ := 0
  log _ := []
  commit _ := 0
  votes := ∅
  campaigns := ∅
  elections := ∅
  acks := ∅
  commits := ∅
  leaderLog _ _ := []

theorem empty_sound : (empty Node Entry).Sound R := by
  have hnone : ∀ t n, ¬ (empty Node Entry).Elected t n := by
    rintro t n ⟨e, he, -⟩
    exact he
  constructor <;> first
    | exact fun _ hfalse => hfalse.elim
    | exact fun t n hn => (hnone t n hn).elim
    | exact fun _ => Or.inl rfl
    | exact fun _ => le_rfl

namespace Sound

/-- A change of terms, logs and commit indices alone, with no new record. -/
theorem of_node (s : h.Sound R) {clock : Nat} {term : Node → Nat}
    {log : Node → List Entry} {commit : Node → Nat}
    (hclock : h.clock ≤ clock) (hterm : ∀ u, h.term u ≤ term u)
    (held : ∀ a ∈ h.acks, ∀ L, L <+: a.log → L <+: h.log a.voter →
      L <+: log a.voter ∨ h.Lost L a.term (term a.voter) clock)
    (backed : ∀ u, h.Backed R (log u))
    (old : ∀ u, R.lastTerm (log u) ≤ term u)
    (hcommit : ∀ u, commit u ≤ (log u).length)
    (covered : ∀ u, h.Covered (term u) clock ((log u).take (commit u))) :
    ({ h with
        clock := clock, term := term, log := log
        commit := commit } : History Node Entry).Sound R :=
  have ext : h.Extends { h with
      clock := clock, term := term, log := log, commit := commit } :=
    ⟨hclock, hterm, fun _ => id, fun _ => id, fun _ => id, fun _ => id,
      fun _ => id, fun _ _ _ => List.prefix_refl _⟩
  { vote_unique := s.vote_unique
    vote_term := fun a ha => (s.vote_term a ha).trans (hterm _)
    vote_time := fun a ha => (s.vote_time a ha).trans_le hclock
    vote_campaign := s.vote_campaign
    vote_backed := s.vote_backed
    campaign_unique := s.campaign_unique
    campaign_term := fun c hc => (s.campaign_term c hc).trans (hterm _)
    campaign_backed := s.campaign_backed
    campaign_old := s.campaign_old
    election_time := fun e he => (s.election_time e he).trans_le hclock
    election_campaign := s.election_campaign
    election_quorum := s.election_quorum
    election_log := s.election_log
    leader_chained := s.leader_chained
    leader_open := fun t n hn => ext.oneOpen (s.leader_open t n hn) hclock
    ack_leader := s.ack_leader
    ack_term := fun a ha => (s.ack_term a ha).trans (hterm _)
    ack_held := fun a ha L hL => by
      rcases s.ack_held a ha L hL with hheld | hlost
      · exact held a ha L hL hheld
      · exact Or.inr (ext.lost hlost (hterm _) hclock)
    ack_vote := s.ack_vote
    commit_time := fun c hc => (s.commit_time c hc).trans_le hclock
    commit_elected := s.commit_elected
    commit_prefix := s.commit_prefix
    commit_full := s.commit_full
    commit_term := s.commit_term
    commit_base := s.commit_base
    commit_quorum := s.commit_quorum
    commit_open := s.commit_open
    node_backed := backed
    node_term := old
    node_commit := hcommit
    node_covered := covered }

/-- Replacing a log by a prefix of the current leader's never drops a
committed entry. -/
theorem adopt_keeps_covered (s : h.Sound R) {n : Node} {t time : Nat}
    {log held : List Entry} (helected : h.Elected (h.term v) n)
    (hinit : log <+: h.leaderLog (h.term v) n)
    (hnot : ¬ log <+: h.log v) (ht : t ≤ h.term v)
    (hcovered : h.Covered t time held) (hheld : held <+: h.log v) :
    held <+: log := by
  have hleader := s.covered_in_leader hcovered ht helected
  rcases List.prefix_or_prefix_of_prefix hleader hinit with hin | hin
  · exact hin
  · exact absurd (hin.trans hheld) hnot

section Steps

variable [DecidableEq Node]

theorem advance (s : h.Sound R) {t : Nat} (hterm : h.term v ≤ t) :
    ({ h.tick with
        term := Function.update h.term v t } : History Node Entry).Sound R := by
  have hle : ∀ u, h.term u ≤ Function.update h.term v t u := by
    intro u
    by_cases hu : u = v
    · subst hu
      simpa using hterm
    · simp [hu]
  exact s.of_node (Nat.le_succ _) hle (fun _ _ _ _ hheld => Or.inl hheld)
    s.node_backed (fun u => (s.node_term u).trans (hle u)) s.node_commit
    (fun u => (Extends.refl h).covered (s.node_covered u) (hle u)
      (Nat.le_succ _))

theorem settle (s : h.Sound R) {k : Nat} (hk : k ≤ (h.log v).length)
    (hcovered : h.Covered (h.term v) h.clock ((h.log v).take k)) :
    ({ h.tick with
        commit := Function.update h.commit v k } : History Node Entry).Sound R := by
  refine s.of_node (Nat.le_succ _) (fun _ => le_rfl)
    (fun _ _ _ _ hheld => Or.inl hheld) s.node_backed s.node_term ?_ ?_
  · intro u
    by_cases hu : u = v
    · subst hu
      simpa using hk
    · simpa [hu] using s.node_commit u
  · intro u
    refine (Extends.refl h).covered ?_ le_rfl (Nat.le_succ h.clock)
    by_cases hu : u = v
    · subst hu
      simpa using hcovered
    · simpa [hu] using s.node_covered u

theorem adopt (s : h.Sound R) {n : Node} {log : List Entry}
    (helected : h.Elected (h.term v) n)
    (hinit : log <+: h.leaderLog (h.term v) n)
    (hnot : ¬ log <+: h.log v) :
    ({ h.tick with
        log := Function.update h.log v log } : History Node Entry).Sound R := by
  have hkept := s.adopt_keeps_covered helected hinit hnot le_rfl
    (s.node_covered v) (List.take_prefix _ _)
  refine s.of_node (Nat.le_succ _) (fun _ => le_rfl) ?_ ?_ ?_ ?_ ?_
  · intro a ha L hL hheld
    by_cases hv : a.voter = v
    · subst hv
      simp only [Function.update_self]
      have hterm := s.ack_term a ha
      obtain ⟨haelected, haprefix⟩ := s.ack_leader a ha
      by_cases hin : L <+: h.leaderLog (h.term a.voter) n
      · rcases List.prefix_or_prefix_of_prefix hin hinit with hlog | hlog
        · exact Or.inl hlog
        · exact absurd (hlog.trans hheld) hnot
      · rcases hterm.lt_or_eq with hlt | heq
        · obtain ⟨e, he, het, hel⟩ := helected
          have htime := s.election_time e he
          refine Or.inr ⟨e, he, by omega, het.le, htime.trans (Nat.lt_succ_self _), ?_⟩
          intro hsub
          apply hin
          rw [← het, ← hel]
          exact hsub.trans (s.election_prefix he)
        · rw [heq] at haelected haprefix
          rw [s.elected_unique haelected helected] at haprefix
          exact absurd (hL.trans haprefix) hin
    · simpa [hv] using Or.inl hheld
  · intro u
    by_cases hu : u = v
    · subst hu
      simpa using s.leader_backed helected hinit
    · simpa [hu] using s.node_backed u
  · intro u
    by_cases hu : u = v
    · subst hu
      simpa using s.leader_lastTerm helected hinit
    · simpa [hu] using s.node_term u
  · intro u
    by_cases hu : u = v
    · subst hu
      have hlength := hkept.length_le
      rw [List.length_take, Nat.min_eq_left (s.node_commit u)] at hlength
      simpa using hlength
    · simpa [hu] using s.node_commit u
  · intro u
    refine (Extends.refl h).covered ?_ le_rfl (Nat.le_succ h.clock)
    by_cases hu : u = v
    · subst hu
      have htake : log.take (h.commit u) = (h.log u).take (h.commit u) := by
        have hlength := List.prefix_iff_eq_take.mp hkept
        rw [List.length_take, Nat.min_eq_left (s.node_commit u)] at hlength
        exact hlength.symm
      simp only [Function.update_self, tick_term, tick_commit, htake]
      exact s.node_covered u
    · simpa [hu] using s.node_covered u

end Steps

theorem vote (s : h.Sound R) {c : Campaign Node Entry}
    (hc : c ∈ h.campaigns) (hterm : c.term = h.term v)
    (hnone : ∀ a ∈ h.votes, a.voter = v → a.term ≠ c.term)
    (hup : R.UpToDate c.log (h.log v)) :
    ({ h.tick with
        votes := insert ⟨v, c.term, c.node, h.log v, h.clock⟩
          h.votes } : History Node Entry).Sound R :=
  { s with
    vote_unique := by
      rintro a (rfl | ha) b (rfl | hb) hvoter hsame
      · rfl
      · exact absurd hsame.symm (hnone b hb hvoter.symm)
      · exact absurd hsame (hnone a ha hvoter)
      · exact s.vote_unique a ha b hb hvoter hsame
    vote_term := by
      rintro a (rfl | ha)
      · exact hterm.le
      · exact s.vote_term a ha
    vote_time := by
      rintro a (rfl | ha)
      · exact Nat.lt_succ_self _
      · exact (s.vote_time a ha).trans (Nat.lt_succ_self _)
    vote_campaign := by
      rintro a (rfl | ha)
      · exact ⟨c, hc, rfl, rfl, hup⟩
      · exact s.vote_campaign a ha
    vote_backed := by
      rintro a (rfl | ha)
      · exact s.node_backed v
      · exact s.vote_backed a ha
    election_time := fun e he =>
      (s.election_time e he).trans (Nat.lt_succ_self _)
    election_quorum := fun e he =>
      R.quorum_mono (s.election_quorum e he) (fun u ⟨a, ha, hfacts⟩ =>
        ⟨a, Or.inr ha, hfacts⟩)
    leader_open := fun t n hn =>
      (Extends.refl h).oneOpen (s.leader_open t n hn) (Nat.le_succ _)
    ack_held := fun a ha L hL => (s.ack_held a ha L hL).imp id
      (fun hlost => (Extends.refl h).lost hlost le_rfl (Nat.le_succ _))
    ack_vote := by
      rintro a ha b (rfl | hb) hvoter hlt L hL
      · have hheld := s.ack_held a ha L hL
        rw [hvoter] at hheld
        exact hterm ▸ hheld
      · exact s.ack_vote a ha b hb hvoter hlt L hL
    commit_time := fun d hd => (s.commit_time d hd).trans (Nat.lt_succ_self _)
    node_covered := fun u =>
      (Extends.refl h).covered (s.node_covered u) le_rfl (Nat.le_succ _) }

theorem declare (s : h.Sound R)
    (hfresh : ∀ c ∈ h.campaigns, c.node = v → c.term ≠ h.term v)
    (hold : R.lastTerm (h.log v) < h.term v) :
    ({ h.tick with
        campaigns := insert ⟨v, h.term v, h.log v⟩
          h.campaigns } : History Node Entry).Sound R :=
  { s with
    vote_time := fun a ha => (s.vote_time a ha).trans (Nat.lt_succ_self _)
    vote_campaign := fun a ha => by
      obtain ⟨c, hc, hfacts⟩ := s.vote_campaign a ha
      exact ⟨c, Or.inr hc, hfacts⟩
    campaign_unique := by
      rintro c (rfl | hc) d (rfl | hd) hnode hsame
      · rfl
      · exact absurd hsame.symm (hfresh d hd hnode.symm)
      · exact absurd hsame (hfresh c hc hnode)
      · exact s.campaign_unique c hc d hd hnode hsame
    campaign_term := by
      rintro c (rfl | hc)
      · exact le_rfl
      · exact s.campaign_term c hc
    campaign_backed := by
      rintro c (rfl | hc)
      · exact s.node_backed v
      · exact s.campaign_backed c hc
    campaign_old := by
      rintro c (rfl | hc)
      · exact hold
      · exact s.campaign_old c hc
    election_time := fun e he =>
      (s.election_time e he).trans (Nat.lt_succ_self _)
    election_campaign := fun e he => by
      obtain ⟨c, hc, hfacts⟩ := s.election_campaign e he
      exact ⟨c, Or.inr hc, hfacts⟩
    leader_open := fun t n hn =>
      (Extends.refl h).oneOpen (s.leader_open t n hn) (Nat.le_succ _)
    ack_held := fun a ha L hL => (s.ack_held a ha L hL).imp id
      (fun hlost => (Extends.refl h).lost hlost le_rfl (Nat.le_succ _))
    commit_time := fun d hd => (s.commit_time d hd).trans (Nat.lt_succ_self _)
    node_covered := fun u =>
      (Extends.refl h).covered (s.node_covered u) le_rfl (Nat.le_succ _) }

theorem ack (s : h.Sound R) {t : Nat} {n : Node} {log : List Entry}
    (helected : h.Elected t n) (hinit : log <+: h.leaderLog t n)
    (hheld : log <+: h.log v) (hterm : t ≤ h.term v)
    (hvotes : ∀ b ∈ h.votes, b.voter = v → t < b.term → log <+: b.log) :
    ({ h.tick with
        acks := insert ⟨v, n, t, log⟩ h.acks } : History Node Entry).Sound R :=
  { s with
    vote_time := fun a ha => (s.vote_time a ha).trans (Nat.lt_succ_self _)
    election_time := fun e he =>
      (s.election_time e he).trans (Nat.lt_succ_self _)
    leader_open := fun t n hn =>
      (Extends.refl h).oneOpen (s.leader_open t n hn) (Nat.le_succ _)
    ack_leader := by
      rintro a (rfl | ha)
      · exact ⟨helected, hinit⟩
      · exact s.ack_leader a ha
    ack_term := by
      rintro a (rfl | ha)
      · exact hterm
      · exact s.ack_term a ha
    ack_held := by
      rintro a (rfl | ha) L hL
      · exact Or.inl (hL.trans hheld)
      · exact (s.ack_held a ha L hL).imp id
          (fun hlost => (Extends.refl h).lost hlost le_rfl (Nat.le_succ _))
    ack_vote := by
      rintro a (rfl | ha) b hb hvoter hlt L hL
      · exact Or.inl (hL.trans (hvotes b hb hvoter.symm hlt))
      · exact s.ack_vote a ha b hb hvoter hlt L hL
    commit_time := fun d hd => (s.commit_time d hd).trans (Nat.lt_succ_self _)
    commit_quorum := fun c hc =>
      R.quorum_mono (s.commit_quorum c hc) (fun u ⟨a, ha, hfacts⟩ =>
        ⟨a, Or.inr ha, hfacts⟩)
    node_covered := fun u =>
      (Extends.refl h).covered (s.node_covered u) le_rfl (Nat.le_succ _) }

section Steps

variable [DecidableEq Node]

theorem elect (s : h.Sound R)
    (hcampaign : ⟨v, h.term v, h.log v⟩ ∈ h.campaigns)
    (hnot : ¬ h.Elected (h.term v) v)
    (hquorum : R.quorum (R.latest R.initial (h.log v))
      (fun u => ∃ a ∈ h.votes, a.voter = u ∧ a.term = h.term v ∧
        a.candidate = v)) :
    ({ h.tick with
        elections := insert ⟨v, h.term v, h.log v, h.clock⟩ h.elections
        leaderLog := h.setLeaderLog (h.term v) v
          (h.log v) } : History Node Entry).Sound R := by
  have ext := (Step.elect (R := R) hcampaign hnot hquorum).extends
  have hkeep : ∀ t n, h.Elected t n →
      h.setLeaderLog (h.term v) v (h.log v) t n = h.leaderLog t n := by
    intro t n hn
    refine if_neg (fun heq => hnot ?_)
    rw [← heq.1, ← heq.2]
    exact hn
  have hnew : h.setLeaderLog (h.term v) v (h.log v) (h.term v) v = h.log v :=
    if_pos ⟨rfl, rfl⟩
  have hcases : ∀ t n, ({ h.tick with
      elections := insert ⟨v, h.term v, h.log v, h.clock⟩ h.elections
      leaderLog := h.setLeaderLog (h.term v) v
        (h.log v) } : History Node Entry).Elected t n →
      (t = h.term v ∧ n = v) ∨ h.Elected t n := by
    rintro t n ⟨e, rfl | he, hterm, hleader⟩
    · exact Or.inl ⟨hterm.symm, hleader.symm⟩
    · exact Or.inr ⟨e, he, hterm, hleader⟩
  exact
  { vote_unique := s.vote_unique
    vote_term := s.vote_term
    vote_time := fun a ha => (s.vote_time a ha).trans (Nat.lt_succ_self _)
    vote_campaign := s.vote_campaign
    vote_backed := fun a ha => ext.backed (s.vote_backed a ha)
    campaign_unique := s.campaign_unique
    campaign_term := s.campaign_term
    campaign_backed := fun c hc => ext.backed (s.campaign_backed c hc)
    campaign_old := s.campaign_old
    election_time := by
      rintro e (rfl | he)
      · exact Nat.lt_succ_self _
      · exact (s.election_time e he).trans (Nat.lt_succ_self _)
    election_campaign := by
      rintro e (rfl | he)
      · exact ⟨_, hcampaign, rfl, rfl, rfl⟩
      · exact s.election_campaign e he
    election_quorum := by
      rintro e (rfl | he)
      · refine R.quorum_mono hquorum (fun u ⟨a, ha, hu, hterm, hcand⟩ => ?_)
        exact ⟨a, ha, hu, hterm, hcand, s.vote_time a ha⟩
      · exact s.election_quorum e he
    election_log := by
      rintro e (rfl | he)
      · exact ⟨[], by simpa using hnew, by simp⟩
      · obtain ⟨own, hown, hterm⟩ := s.election_log e he
        exact ⟨own, (hkeep _ _ ⟨e, he, rfl, rfl⟩).trans hown, hterm⟩
    leader_chained := by
      intro t n hn
      rcases hcases t n hn with ⟨rfl, rfl⟩ | hn
      · simp only [hnew]
        exact s.backed_chained (s.node_backed n)
      · simp only [hkeep t n hn]
        exact s.leader_chained t n hn
    leader_open := by
      intro t n hn
      refine ext.oneOpen ?_ (Nat.le_succ h.clock)
      rcases hcases t n hn with ⟨rfl, rfl⟩ | hn
      · simp only [hnew]
        exact (s.backed_open (s.node_backed n)).mono_term (s.node_term n)
      · simp only [hkeep t n hn]
        exact s.leader_open t n hn
    ack_leader := fun a ha => by
      obtain ⟨hel, hinit⟩ := s.ack_leader a ha
      exact ⟨ext.elected hel, hinit.trans (ext.leaderLog _ _ hel)⟩
    ack_term := s.ack_term
    ack_held := fun a ha L hL => (s.ack_held a ha L hL).imp id
      (fun hlost => ext.lost hlost le_rfl (Nat.le_succ _))
    ack_vote := fun a ha b hb hvoter hlt L hL =>
      (s.ack_vote a ha b hb hvoter hlt L hL).imp id
        (fun hlost => ext.lost hlost le_rfl le_rfl)
    commit_time := fun d hd => (s.commit_time d hd).trans (Nat.lt_succ_self _)
    commit_elected := fun c hc => ext.elected (s.commit_elected c hc)
    commit_prefix := s.commit_prefix
    commit_full := fun c hc => (s.commit_full c hc).trans
      (ext.leaderLog _ _ (s.commit_elected c hc))
    commit_term := s.commit_term
    commit_base := by
      rintro c hc e (rfl | he) hterm hleader
      · refine absurd ?_ hnot
        simp only at hterm hleader
        rw [hterm, hleader]
        exact s.commit_elected c hc
      · exact s.commit_base c hc e he hterm hleader
    commit_quorum := s.commit_quorum
    commit_open := fun c hc => ext.oneOpen (s.commit_open c hc) le_rfl
    node_backed := fun u => ext.backed (s.node_backed u)
    node_term := s.node_term
    node_commit := s.node_commit
    node_covered := fun u =>
      ext.covered (s.node_covered u) le_rfl (Nat.le_succ _) }

theorem append (s : h.Sound R) {x : Entry}
    (helected : h.Elected (h.term v) v)
    (hlog : h.log v = h.leaderLog (h.term v) v)
    (hterm : R.term x = h.term v)
    (hconfig : ∀ d, R.config x = some d →
      R.next (R.latest R.initial (h.log v)) d ∧
        R.configs ((h.log v).drop (h.commit v)) = []) :
    ({ h.tick with
        log := Function.update h.log v (h.log v ++ [x])
        leaderLog := h.setLeaderLog (h.term v) v
          (h.log v ++ [x]) } : History Node Entry).Sound R := by
  have ext := (Step.append (R := R) x helected hlog hterm hconfig).extends
  have hkeep : ∀ t n, ¬ (t = h.term v ∧ n = v) →
      h.setLeaderLog (h.term v) v (h.log v ++ [x]) t n = h.leaderLog t n :=
    fun _ _ hne => if_neg hne
  have hnew : h.setLeaderLog (h.term v) v (h.log v ++ [x]) (h.term v) v =
      h.log v ++ [x] := if_pos ⟨rfl, rfl⟩
  exact
  { vote_unique := s.vote_unique
    vote_term := s.vote_term
    vote_time := fun a ha => (s.vote_time a ha).trans (Nat.lt_succ_self _)
    vote_campaign := s.vote_campaign
    vote_backed := fun a ha => ext.backed (s.vote_backed a ha)
    campaign_unique := s.campaign_unique
    campaign_term := s.campaign_term
    campaign_backed := fun c hc => ext.backed (s.campaign_backed c hc)
    campaign_old := s.campaign_old
    election_time := fun e he =>
      (s.election_time e he).trans (Nat.lt_succ_self _)
    election_campaign := s.election_campaign
    election_quorum := s.election_quorum
    election_log := by
      intro e he
      obtain ⟨own, hown, hownTerm⟩ := s.election_log e he
      by_cases hself : e.term = h.term v ∧ e.leader = v
      · refine ⟨own ++ [x], ?_, ?_⟩
        · simp only [hself.1, hself.2, hnew] at hown ⊢
          rw [hlog, hown, List.append_assoc]
        · intro y hy
          rcases List.mem_append.mp hy with hy | hy
          · exact hownTerm y hy
          · rw [List.mem_singleton.mp hy, hterm, hself.1]
      · exact ⟨own, (hkeep _ _ hself).trans hown, hownTerm⟩
    leader_chained := by
      intro t n hn
      by_cases hself : t = h.term v ∧ n = v
      · obtain ⟨rfl, rfl⟩ := hself
        simp only [hnew]
        refine (R.chained_append _ _ _).mpr
          ⟨s.backed_chained (s.node_backed n), ?_⟩
        exact ⟨fun d hd => (hconfig d hd).1, trivial⟩
      · simp only [hkeep t n hself]
        exact s.leader_chained t n hn
    leader_open := by
      intro t n hn
      refine ext.oneOpen ?_ (Nat.le_succ h.clock)
      by_cases hself : t = h.term v ∧ n = v
      · obtain ⟨rfl, rfl⟩ := hself
        simp only [hnew]
        cases hx : R.config x with
        | none =>
            obtain ⟨settled, rest, hsplit, hcovered, hone⟩ :=
              s.leader_open (h.term n) n hn
            refine ⟨settled, rest ++ [x], ?_, hcovered, ?_⟩
            · rw [hlog, hsplit, List.append_assoc]
            · simpa [Rules.configs, hx] using hone
        | some d =>
            refine ⟨(h.log n).take (h.commit n),
              (h.log n).drop (h.commit n) ++ [x], ?_, s.node_covered n, ?_⟩
            · rw [← List.append_assoc, List.take_append_drop]
            · rw [R.configs_append, (hconfig d hx).2]
              simp [Rules.configs, hx]
      · simp only [hkeep t n hself]
        exact s.leader_open t n hn
    ack_leader := fun a ha => by
      obtain ⟨hel, hinit⟩ := s.ack_leader a ha
      exact ⟨hel, hinit.trans (ext.leaderLog _ _ hel)⟩
    ack_term := s.ack_term
    ack_held := fun a ha L hL => by
      rcases s.ack_held a ha L hL with hheld | hlost
      · refine Or.inl (hheld.trans ?_)
        by_cases hv : a.voter = v
        · simp only [hv, Function.update_self]
          exact List.prefix_append _ _
        · simp only [Function.update_of_ne hv]
          exact List.prefix_refl _
      · exact Or.inr (ext.lost hlost le_rfl (Nat.le_succ _))
    ack_vote := s.ack_vote
    commit_time := fun d hd => (s.commit_time d hd).trans (Nat.lt_succ_self _)
    commit_elected := s.commit_elected
    commit_prefix := s.commit_prefix
    commit_full := fun c hc => (s.commit_full c hc).trans
      (ext.leaderLog _ _ (s.commit_elected c hc))
    commit_term := s.commit_term
    commit_base := s.commit_base
    commit_quorum := s.commit_quorum
    commit_open := s.commit_open
    node_backed := by
      intro u
      by_cases hu : u = v
      · subst hu
        simp only [Function.update_self]
        refine Or.inr ⟨u, ?_, ?_⟩
        · rw [R.lastTerm_concat, hterm]
          exact helected
        · rw [R.lastTerm_concat, hterm]
          simp only [hnew]
          exact List.prefix_refl _
      · simp only [Function.update_of_ne hu]
        exact ext.backed (s.node_backed u)
    node_term := by
      intro u
      by_cases hu : u = v
      · subst hu
        simp only [Function.update_self, R.lastTerm_concat]
        exact hterm.le
      · simp only [Function.update_of_ne hu]
        exact s.node_term u
    node_commit := by
      intro u
      by_cases hu : u = v
      · subst hu
        have hle := s.node_commit u
        simp only [Function.update_self, List.length_append]
        exact hle.trans (Nat.le_add_right _ _)
      · simp only [Function.update_of_ne hu]
        exact s.node_commit u
    node_covered := by
      intro u
      refine ext.covered ?_ le_rfl (Nat.le_succ h.clock)
      by_cases hu : u = v
      · subst hu
        simp only [Function.update_self, tick_term, tick_commit]
        rw [List.take_append_of_le_length (s.node_commit u)]
        exact s.node_covered u
      · simp only [Function.update_of_ne hu]
        exact s.node_covered u }

theorem commit (s : h.Sound R) {log : List Entry}
    (helected : h.Elected (h.term v) v)
    (hlog : h.log v = h.leaderLog (h.term v) v) (hinit : log <+: h.log v)
    (hterm : R.lastTerm log = h.term v)
    (hquorum : R.quorum (R.latest R.initial (h.log v))
      (fun u => ∃ a ∈ h.acks, a.voter = u ∧ a.term = h.term v ∧
        a.leader = v ∧ log <+: a.log)) :
    ({ h.tick with
        commit := Function.update h.commit v log.length
        commits := insert ⟨v, h.term v, log, h.log v, h.clock⟩
          h.commits } : History Node Entry).Sound R := by
  have ext := (Step.commit (R := R) log helected hlog hinit hterm
    hquorum).extends
  exact
  { vote_unique := s.vote_unique
    vote_term := s.vote_term
    vote_time := fun a ha => (s.vote_time a ha).trans (Nat.lt_succ_self _)
    vote_campaign := s.vote_campaign
    vote_backed := s.vote_backed
    campaign_unique := s.campaign_unique
    campaign_term := s.campaign_term
    campaign_backed := s.campaign_backed
    campaign_old := s.campaign_old
    election_time := fun e he =>
      (s.election_time e he).trans (Nat.lt_succ_self _)
    election_campaign := s.election_campaign
    election_quorum := s.election_quorum
    election_log := s.election_log
    leader_chained := s.leader_chained
    leader_open := fun t n hn =>
      ext.oneOpen (s.leader_open t n hn) (Nat.le_succ _)
    ack_leader := s.ack_leader
    ack_term := s.ack_term
    ack_held := fun a ha L hL => (s.ack_held a ha L hL).imp id
      (fun hlost => ext.lost hlost le_rfl (Nat.le_succ _))
    ack_vote := s.ack_vote
    commit_time := by
      rintro d (rfl | hd)
      · exact Nat.lt_succ_self _
      · exact (s.commit_time d hd).trans (Nat.lt_succ_self _)
    commit_elected := by
      rintro c (rfl | hc)
      · exact helected
      · exact s.commit_elected c hc
    commit_prefix := by
      rintro c (rfl | hc)
      · exact hinit
      · exact s.commit_prefix c hc
    commit_full := by
      rintro c (rfl | hc)
      · exact hlog ▸ List.prefix_refl _
      · exact s.commit_full c hc
    commit_term := by
      rintro c (rfl | hc)
      · exact hterm
      · exact s.commit_term c hc
    commit_base := by
      rintro c (rfl | hc) e he heterm heleader
      · simp only at heterm heleader
        have hbase := s.election_prefix he
        rw [heterm, heleader, ← hlog] at hbase
        exact hbase
      · exact s.commit_base c hc e he heterm heleader
    commit_quorum := by
      rintro c (rfl | hc)
      · exact hquorum
      · exact s.commit_quorum c hc
    commit_open := by
      rintro c (rfl | hc)
      · have hopen := s.leader_open (h.term v) v helected
        rw [← hlog] at hopen
        exact ext.oneOpen hopen le_rfl
      · exact ext.oneOpen (s.commit_open c hc) le_rfl
    node_backed := s.node_backed
    node_term := s.node_term
    node_commit := by
      intro u
      by_cases hu : u = v
      · subst hu
        simpa using hinit.length_le
      · simpa [hu] using s.node_commit u
    node_covered := by
      intro u
      by_cases hu : u = v
      · subst hu
        simp only [Function.update_self]
        refine Or.inr ⟨_, Or.inl rfl, le_rfl, Nat.lt_succ_self _, ?_⟩
        simp only [tick_log]
        rw [← List.prefix_iff_eq_take.mp hinit]
      · simp only [Function.update_of_ne hu]
        exact ext.covered (s.node_covered u) le_rfl (Nat.le_succ _) }

/-- Every step of the protocol keeps the history sound. -/
theorem step (s : h.Sound R) (hstep : h.Step R v h') : h'.Sound R := by
  cases hstep with
  | advance t hterm => exact s.advance hterm
  | vote c hc hterm hnone hup => exact s.vote hc hterm hnone hup
  | declare hfresh hold => exact s.declare hfresh hold
  | elect hcampaign hnot hquorum => exact s.elect hcampaign hnot hquorum
  | append x helected hlog hterm hconfig =>
      exact s.append helected hlog hterm hconfig
  | adopt n log helected hinit hnot => exact s.adopt helected hinit hnot
  | ack t n log helected hinit hheld hterm hvotes =>
      exact s.ack helected hinit hheld hterm hvotes
  | commit log helected hlog hinit hterm hquorum =>
      exact s.commit helected hlog hinit hterm hquorum
  | settle k hk hcovered => exact s.settle hk hcovered

end Steps

end Sound

/-- Any number of steps of one node. -/
def Steps [DecidableEq Node] (R : Rules Node Entry Config) (v : Node) :
    History Node Entry → History Node Entry → Prop :=
  Relation.ReflTransGen (Step R v)

/-- What is covered stays in every log that holds it. -/
def Keeps (h h' : History Node Entry) : Prop :=
  ∀ u held, h.Covered (h.term u) h.clock held → held <+: h.log u → held <+: h'.log u

theorem Keeps.trans {h'' : History Node Entry} (hkeeps : h.Keeps h')
    (ext : h.Extends h') (hkeeps' : h'.Keeps h'') : h.Keeps h'' :=
  fun u held hcovered hheld => hkeeps' u held
    (ext.covered hcovered (ext.term u) ext.clock) (hkeeps u held hcovered hheld)

section Runs

variable [DecidableEq Node]

theorem Steps.sound (hsteps : Steps R v h h') (s : h.Sound R) :
    h'.Sound R := by
  induction hsteps with
  | refl => exact s
  | tail _ hstep ih => exact ih.step hstep

theorem Steps.extends (hsteps : Steps R v h h') : h.Extends h' := by
  induction hsteps with
  | refl => exact Extends.refl h
  | tail _ hstep ih => exact ih.trans hstep.extends

theorem Steps.frame (hsteps : Steps R v h h') : h.Frame v h' := by
  induction hsteps with
  | refl => exact Frame.refl v h
  | tail _ hstep ih => exact ih.trans hstep.frame

theorem Step.keeps (hstep : h.Step R v h') (s : h.Sound R) : h.Keeps h' := by
  intro u held hcovered hheld
  by_cases hu : u = v
  · subst hu
    cases hstep with
    | append x helected hlog hterm hconfig =>
        simp only [Function.update_self]
        exact hheld.trans (List.prefix_append _ _)
    | adopt n log helected hinit hnot =>
        simp only [Function.update_self]
        exact s.adopt_keeps_covered helected hinit hnot le_rfl hcovered hheld
    | _ => exact hheld
  · rw [hstep.frame.log u hu]
    exact hheld

theorem Steps.keeps (hsteps : Steps R v h h') (s : h.Sound R) : h.Keeps h' := by
  induction hsteps with
  | refl => exact fun _ _ _ hheld => hheld
  | tail hbefore hstep ih =>
      exact ih.trans (Steps.extends hbefore) (hstep.keeps (Steps.sound hbefore s))

end Runs

/-- What is covered is part of a leader's log. -/
theorem Sound.covered_backed {t time : Nat} {log : List Entry} (s : h.Sound R)
    (hlog : h.Covered t time log) : h.Backed R log := by
  rcases hlog with rfl | ⟨d, hd, -, -, hsub⟩
  · exact Or.inl rfl
  · exact s.leader_backed (s.commit_elected d hd)
      (hsub.trans ((s.commit_prefix d hd).trans (s.commit_full d hd)))

/-- An entry of a backed log is where the leader of its term has it. -/
theorem Sound.backed_entry {log : List Entry} {k : Nat} {x : Entry} (s : h.Sound R)
    (hlog : h.Backed R log) (hx : log[k]? = some x) :
    ∃ n, h.Elected (R.term x) n ∧ (h.leaderLog (R.term x) n)[k]? = some x := by
  have hlt := (List.getElem?_eq_some_iff.mp hx).1
  rcases (s.backed_prefix hlog (List.take_prefix (k + 1) log)).1 with hnil | ⟨n, hn, hinit⟩
  · have hlength := congrArg List.length hnil
    rw [List.length_take, List.length_nil] at hlength
    omega
  · rw [R.lastTerm_take hx] at hn hinit
    refine ⟨n, hn, ?_⟩
    obtain ⟨rest, hrest⟩ := hinit
    rw [← hrest, List.getElem?_append_left (by rw [List.length_take]; omega),
      List.getElem?_take, if_pos (Nat.lt_succ_self k), hx]

/-- Two backed logs are the same up to an entry that both have of one term. -/
theorem Sound.backed_matching {first second : List Entry} {k : Nat} {x y : Entry}
    (s : h.Sound R) (hfirst : h.Backed R first) (hsecond : h.Backed R second)
    (hx : first[k]? = some x) (hy : second[k]? = some y) (hterm : R.term x = R.term y) :
    first.take (k + 1) = second.take (k + 1) := by
  have hlt := (List.getElem?_eq_some_iff.mp hx).1
  have hlt' := (List.getElem?_eq_some_iff.mp hy).1
  refine s.backed_unique (s.backed_prefix hfirst (List.take_prefix _ _)).1
    (s.backed_prefix hsecond (List.take_prefix _ _)).1 ?_ ?_
  · rw [List.length_take_of_le hlt, List.length_take_of_le hlt']
  · rw [R.lastTerm_take hx, R.lastTerm_take hy, hterm]

/-- `x` is the entry at `k` of a leader's log that begins with `settled`. -/
def Follows (R : Rules Node Entry Config) (h : History Node Entry) (settled : List Entry)
    (k : Nat) (x : Entry) : Prop :=
  settled.length ≤ k ∧ ∃ log, h.Backed R log ∧ settled <+: log ∧ log[k]? = some x

/-- An entry of a log that is backed follows nothing later that it did not follow
there. -/
theorem Sound.follows_back {log settled : List Entry} {k : Nat} {x : Entry}
    (s' : h'.Sound R) (ext : h.Extends h') (hlog : h.Backed R log)
    (hx : log[k]? = some x) (hfollows : h'.Follows R settled k x) :
    h.Follows R settled k x := by
  obtain ⟨hle, other, hother, hinit, hx'⟩ := hfollows
  refine ⟨hle, log, hlog, ?_, hx⟩
  have hsame := s'.backed_matching (ext.backed hlog) hother hx hx' rfl
  have hbegin : settled <+: other.take (k + 1) := by
    rw [List.prefix_take_iff]
    exact ⟨hinit, hle.trans (Nat.le_succ k)⟩
  exact (hsame ▸ hbegin).trans (List.take_prefix _ _)

/-- What a leader's log has grown by carries the leader's term. -/
theorem Sound.leader_added {t k : Nat} {n : Node} {x : Entry} (s : h.Sound R)
    (s' : h'.Sound R) (ext : h.Extends h') (hn : h.Elected t n)
    (hbeyond : (h.leaderLog t n).length ≤ k) (hx : (h'.leaderLog t n)[k]? = some x) :
    R.term x = t := by
  obtain ⟨e, he, rfl, rfl⟩ := hn
  obtain ⟨own, hown, hterm⟩ := s'.election_log e (ext.elections he)
  have hle := (s.election_prefix he).length_le
  rw [hown, List.getElem?_append_right (hle.trans hbeyond)] at hx
  exact hterm x (List.mem_of_getElem? hx)

/-- What a leader appends after something committed, it appends to a log that
begins with it. -/
theorem Sound.follows_own {settled : List Entry} {t t' time k : Nat} {n : Node} {x : Entry}
    (s : h.Sound R) (s' : h'.Sound R) (ext : h.Extends h') (hn : h.Elected t n)
    (hcovered : h.Covered t' time settled) (hterm : R.term x = t)
    (hbeyond : (h.leaderLog t n).length ≤ k) (hfollows : h'.Follows R settled k x) :
    settled <+: h.leaderLog t n := by
  obtain ⟨hle, log, hlog, hinit, hx⟩ := hfollows
  obtain ⟨n', hn', hown⟩ := s'.backed_entry hlog hx
  rw [hterm] at hn' hown
  obtain rfl := s'.elected_unique hn' (ext.elected hn)
  have hsame := s'.backed_matching hlog
    (s'.leader_backed hn' List.prefix_rfl) hx hown rfl
  have hbegin : settled <+: h'.leaderLog t n' := by
    have htake : settled <+: log.take (k + 1) := by
      rw [List.prefix_take_iff]
      exact ⟨hinit, hle.trans (Nat.le_succ k)⟩
    exact (hsame ▸ htake).trans (List.take_prefix _ _)
  rcases List.prefix_or_prefix_of_prefix hbegin (ext.leaderLog t n' hn) with hin | hin
  · exact hin
  rcases hin.length_le.eq_or_lt with heq | hlt
  · rw [hin.eq_of_length heq]
  · -- Its first entry beyond the leader's log would be one of that leader.
    obtain ⟨y, hy⟩ : ∃ y, settled[(h.leaderLog t n').length]? = some y :=
      ⟨_, List.getElem?_eq_getElem hlt⟩
    obtain ⟨rest, hrest⟩ := hbegin
    have hy' : (h'.leaderLog t n')[(h.leaderLog t n').length]? = some y := by
      rw [← hrest, List.getElem?_append_left hlt]
      exact hy
    obtain ⟨m, hm, hmine⟩ := s.backed_entry (s.covered_backed hcovered) hy
    rw [s.leader_added s' ext hn le_rfl hy'] at hm hmine
    obtain rfl := s.elected_unique hm hn
    exact absurd (List.getElem?_eq_some_iff.mp hmine).1 (lt_irrefl _)

/-- `log` has been committed in some term, at some time. -/
def Committed (h : History Node Entry) (log : List Entry) : Prop :=
  ∃ t time, h.Covered t time log

theorem committed_nil (h : History Node Entry) : h.Committed [] :=
  ⟨0, 0, Or.inl rfl⟩

theorem Extends.committed (ext : h.Extends h') {log : List Entry}
    (hlog : h.Committed log) : h'.Committed log := by
  obtain ⟨t, time, hcovered⟩ := hlog
  exact ⟨t, time, ext.covered hcovered le_rfl le_rfl⟩

theorem Sound.committed_comparable (s : h.Sound R) {first second : List Entry}
    (hfirst : h.Committed first) (hsecond : h.Committed second) :
    first <+: second ∨ second <+: first := by
  obtain ⟨t, time, hfirst⟩ := hfirst
  obtain ⟨t', time', hsecond⟩ := hsecond
  exact s.covered_comparable hfirst hsecond

/-- Two committed logs are beginnings of one. -/
theorem Sound.committed_join (s : h.Sound R) {first second : List Entry}
    (hfirst : h.Committed first) (hsecond : h.Committed second) :
    ∃ log, h.Committed log ∧ first <+: log ∧ second <+: log := by
  rcases s.committed_comparable hfirst hsecond with hinit | hinit
  · exact ⟨second, hsecond, hinit, List.prefix_rfl⟩
  · exact ⟨first, hfirst, List.prefix_rfl, hinit⟩

/-- Two committed logs have the same entry wherever both have one. -/
theorem Sound.committed_agree (s : h.Sound R) {first second : List Entry}
    (hfirst : h.Committed first) (hsecond : h.Committed second) {k : Nat} {x y : Entry}
    (hx : first[k]? = some x) (hy : second[k]? = some y) : x = y := by
  have hlt := (List.getElem?_eq_some_iff.mp hx).1
  have hlt' := (List.getElem?_eq_some_iff.mp hy).1
  rcases s.committed_comparable hfirst hsecond with ⟨rest, rfl⟩ | ⟨rest, rfl⟩
  · rw [List.getElem?_append_left hlt] at hy
    exact Option.some.inj (hx.symm.trans hy)
  · rw [List.getElem?_append_left hlt'] at hx
    exact Option.some.inj (hx.symm.trans hy)

/-- An entry of a committed log is where the leader of its term has it. -/
theorem Sound.committed_entry (s : h.Sound R) {log : List Entry} {k : Nat} {x : Entry}
    (hlog : h.Committed log) (hx : log[k]? = some x) :
    ∃ n, h.Elected (R.term x) n ∧ (h.leaderLog (R.term x) n)[k]? = some x := by
  obtain ⟨t, time, hcovered⟩ := hlog
  exact s.backed_entry (s.covered_backed hcovered) hx

/-- A leader of a later term started with what is covered in an earlier one,
even if it was covered only after the leader was elected. -/
theorem covered_in_past_leader {t t' time : Nat} {n : Node} {log : List Entry}
    (s : h.Sound R) (s' : h'.Sound R) (ext : h.Extends h')
    (hlog : h'.Covered t time log) (hterm : t < t') (hn : h.Elected t' n) :
    log <+: h.leaderLog t' n := by
  rcases hlog with rfl | ⟨d, hd, hdt, -, hsub⟩
  · exact List.nil_prefix
  obtain ⟨e, he, rfl, rfl⟩ := hn
  have hcomplete := (s'.unique_and_complete e.term).2 e (ext.elections he) rfl
    d hd (by omega)
  exact hsub.trans (hcomplete.trans (s.election_prefix he))

end History

end Kurogane.Consensus
