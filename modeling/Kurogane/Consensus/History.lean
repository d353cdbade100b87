import Kurogane.Consensus.Rules
import Mathlib.Data.Set.Insert
import Mathlib.Order.WellFounded

/-!
The history of a run: who voted for whom and with which log, who won which
term, which prefixes were acknowledged and committed, and the log every
leader wrote. Records are never removed. `Sound` collects what a run keeps
true of them; each clause speaks about one record or one node and mentions no
safety property, so each is preserved by looking at the step alone. Election
safety, leader completeness and log matching are then consequences of `Sound`,
proved together by induction on the term.
-/

namespace Kurogane.Consensus

structure Vote (Node Entry : Type*) where
  voter : Node
  term : Nat
  candidate : Node
  log : List Entry
  time : Nat

structure Campaign (Node Entry : Type*) where
  node : Node
  term : Nat
  log : List Entry

structure Election (Node Entry : Type*) where
  leader : Node
  term : Nat
  log : List Entry
  time : Nat

structure Ack (Node Entry : Type*) where
  voter : Node
  leader : Node
  term : Nat
  log : List Entry

/-- `log` is the prefix committed and `full` the leader's whole log when it was
committed: the quorum that counts is the one of the last configuration of
`full`, which may lie beyond the committed prefix. -/
structure Commit (Node Entry : Type*) where
  leader : Node
  term : Nat
  log : List Entry
  full : List Entry
  time : Nat

structure History (Node Entry : Type*) where
  clock : Nat
  term : Node → Nat
  log : Node → List Entry
  commit : Node → Nat
  votes : Set (Vote Node Entry)
  campaigns : Set (Campaign Node Entry)
  elections : Set (Election Node Entry)
  acks : Set (Ack Node Entry)
  commits : Set (Commit Node Entry)
  leaderLog : Nat → Node → List Entry

namespace History

variable {Node Entry Config : Type*} (R : Rules Node Entry Config)
  (h : History Node Entry)

def Elected (t : Nat) (n : Node) : Prop :=
  ∃ e ∈ h.elections, e.term = t ∧ e.leader = n

/-- `log` is empty or a prefix of what the leader of its last term wrote. -/
def Backed (log : List Entry) : Prop :=
  log = [] ∨ ∃ n, h.Elected (R.lastTerm log) n ∧
    log <+: h.leaderLog (R.lastTerm log) n

/-- `log` is part of a prefix committed in a term up to `t`, before `time`. -/
def Covered (t time : Nat) (log : List Entry) : Prop :=
  log = [] ∨ ∃ d ∈ h.commits, d.term ≤ t ∧ d.time < time ∧ log <+: d.log

/-- At most one configuration entry of `log` is beyond its covered part. -/
def OneOpen (t time : Nat) (log : List Entry) : Prop :=
  ∃ settled rest, log = settled ++ rest ∧ h.Covered t time settled ∧
    (R.configs rest).length ≤ 1

/-- Some leader elected after term `since`, up to term `t` and before `time`,
did not have `log`: the only way an acknowledged prefix disappears. -/
def Lost (log : List Entry) (since t time : Nat) : Prop :=
  ∃ e ∈ h.elections, since < e.term ∧ e.term ≤ t ∧ e.time < time ∧
    ¬ log <+: e.log

structure Sound : Prop where
  vote_unique : ∀ a ∈ h.votes, ∀ b ∈ h.votes, a.voter = b.voter →
    a.term = b.term → a.candidate = b.candidate
  vote_term : ∀ a ∈ h.votes, a.term ≤ h.term a.voter
  vote_time : ∀ a ∈ h.votes, a.time < h.clock
  vote_campaign : ∀ a ∈ h.votes, ∃ c ∈ h.campaigns,
    c.node = a.candidate ∧ c.term = a.term ∧ R.UpToDate c.log a.log
  vote_backed : ∀ a ∈ h.votes, h.Backed R a.log
  campaign_unique : ∀ c ∈ h.campaigns, ∀ d ∈ h.campaigns,
    c.node = d.node → c.term = d.term → c.log = d.log
  campaign_term : ∀ c ∈ h.campaigns, c.term ≤ h.term c.node
  campaign_backed : ∀ c ∈ h.campaigns, h.Backed R c.log
  campaign_old : ∀ c ∈ h.campaigns, R.lastTerm c.log < c.term
  election_time : ∀ e ∈ h.elections, e.time < h.clock
  election_campaign : ∀ e ∈ h.elections, ∃ c ∈ h.campaigns,
    c.node = e.leader ∧ c.term = e.term ∧ c.log = e.log
  election_quorum : ∀ e ∈ h.elections,
    R.quorum (R.latest R.initial e.log) (fun v => ∃ a ∈ h.votes,
      a.voter = v ∧ a.term = e.term ∧ a.candidate = e.leader ∧
        a.time < e.time)
  election_log : ∀ e ∈ h.elections, ∃ own,
    h.leaderLog e.term e.leader = e.log ++ own ∧
      ∀ x ∈ own, R.term x = e.term
  leader_chained : ∀ t n, h.Elected t n →
    R.Chained R.initial (h.leaderLog t n)
  leader_open : ∀ t n, h.Elected t n →
    h.OneOpen R t h.clock (h.leaderLog t n)
  ack_leader : ∀ a ∈ h.acks, h.Elected a.term a.leader ∧
    a.log <+: h.leaderLog a.term a.leader
  ack_term : ∀ a ∈ h.acks, a.term ≤ h.term a.voter
  ack_held : ∀ a ∈ h.acks, ∀ log, log <+: a.log →
    log <+: h.log a.voter ∨ h.Lost log a.term (h.term a.voter) h.clock
  ack_vote : ∀ a ∈ h.acks, ∀ b ∈ h.votes, a.voter = b.voter →
    a.term < b.term → ∀ log, log <+: a.log →
      log <+: b.log ∨ h.Lost log a.term b.term b.time
  commit_time : ∀ c ∈ h.commits, c.time < h.clock
  commit_elected : ∀ c ∈ h.commits, h.Elected c.term c.leader
  commit_prefix : ∀ c ∈ h.commits, c.log <+: c.full
  commit_full : ∀ c ∈ h.commits, c.full <+: h.leaderLog c.term c.leader
  commit_term : ∀ c ∈ h.commits, R.lastTerm c.log = c.term
  commit_base : ∀ c ∈ h.commits, ∀ e ∈ h.elections, e.term = c.term →
    e.leader = c.leader → e.log <+: c.full
  commit_quorum : ∀ c ∈ h.commits,
    R.quorum (R.latest R.initial c.full) (fun v => ∃ a ∈ h.acks,
      a.voter = v ∧ a.term = c.term ∧ a.leader = c.leader ∧
        c.log <+: a.log)
  commit_open : ∀ c ∈ h.commits, h.OneOpen R c.term c.time c.full
  node_backed : ∀ v, h.Backed R (h.log v)
  node_term : ∀ v, R.lastTerm (h.log v) ≤ h.term v
  node_commit : ∀ v, h.commit v ≤ (h.log v).length
  node_covered : ∀ v, h.Covered (h.term v) h.clock
    ((h.log v).take (h.commit v))

variable {R h}

theorem Covered.shorten {t time : Nat} {first log : List Entry}
    (hlog : h.Covered t time log) (hinit : first <+: log) :
    h.Covered t time first := by
  rcases hlog with rfl | ⟨d, hd, hterm, htime, hcommit⟩
  · exact Or.inl (List.prefix_nil.mp hinit)
  · exact Or.inr ⟨d, hd, hterm, htime, hinit.trans hcommit⟩

theorem OneOpen.shorten {t time : Nat} {first log : List Entry}
    (hlog : h.OneOpen R t time log) (hinit : first <+: log) :
    h.OneOpen R t time first := by
  obtain ⟨settled, rest, rfl, hcovered, hone⟩ := hlog
  rcases List.prefix_or_prefix_of_prefix hinit
      (List.prefix_append settled rest) with hinside | ⟨tail, rfl⟩
  · exact ⟨first, [], by simp, hcovered.shorten hinside, by simp⟩
  · obtain ⟨end_, hend⟩ := hinit
    have hrest : rest = tail ++ end_ := by
      simpa [List.append_assoc] using hend.symm
    subst hrest
    refine ⟨settled, tail, rfl, hcovered, ?_⟩
    rw [R.configs_append, List.length_append] at hone
    omega

theorem OneOpen.mono_term {t t' time : Nat} {log : List Entry}
    (hlog : h.OneOpen R t time log) (hterm : t ≤ t') :
    h.OneOpen R t' time log := by
  obtain ⟨settled, rest, hsplit, hcovered, hone⟩ := hlog
  refine ⟨settled, rest, hsplit, ?_, hone⟩
  rcases hcovered with hnil | ⟨d, hd, hd', htime, hcommit⟩
  · exact Or.inl hnil
  · exact Or.inr ⟨d, hd, hd'.trans hterm, htime, hcommit⟩

namespace Sound

variable (s : h.Sound R)
include s

theorem election_old {e : Election Node Entry} (he : e ∈ h.elections) :
    R.lastTerm e.log < e.term := by
  obtain ⟨c, hc, -, hterm, hlog⟩ := s.election_campaign e he
  rw [← hterm, ← hlog]
  exact s.campaign_old c hc

theorem election_backed {e : Election Node Entry} (he : e ∈ h.elections) :
    h.Backed R e.log := by
  obtain ⟨c, hc, -, -, hlog⟩ := s.election_campaign e he
  rw [← hlog]
  exact s.campaign_backed c hc

theorem election_prefix {e : Election Node Entry} (he : e ∈ h.elections) :
    e.log <+: h.leaderLog e.term e.leader := by
  obtain ⟨own, hown, -⟩ := s.election_log e he
  rw [hown]
  exact List.prefix_append _ _

/-- Prefixes of a backed log are backed, and terms never decrease along it. -/
theorem backed_prefix {log first : List Entry} (hlog : h.Backed R log)
    (hinit : first <+: log) :
    h.Backed R first ∧ R.lastTerm first ≤ R.lastTerm log := by
  induction ht : R.lastTerm log using Nat.strong_induction_on
    generalizing log with
  | _ t ih =>
    subst ht
    rcases hlog with rfl | ⟨n, ⟨e, he, hterm, hleader⟩, hback⟩
    · rw [List.prefix_nil.mp hinit]
      exact ⟨Or.inl rfl, le_rfl⟩
    · obtain ⟨own, hown, hownTerm⟩ := s.election_log e he
      have hfirst : first <+: e.log ++ own := by
        rw [← hown, hterm, hleader]
        exact hinit.trans hback
      have hinside (hin : first <+: e.log) :
          h.Backed R first ∧ R.lastTerm first ≤ R.lastTerm log := by
        have hold : R.lastTerm e.log < R.lastTerm log :=
          hterm ▸ s.election_old he
        obtain ⟨hb, hle⟩ := ih _ hold (s.election_backed he) hin rfl
        exact ⟨hb, hle.trans hold.le⟩
      rcases List.prefix_or_prefix_of_prefix hfirst
          (List.prefix_append e.log own) with hin | ⟨tail, rfl⟩
      · exact hinside hin
      · by_cases htail : tail = []
        · subst htail
          exact hinside (by simp)
        · have hsub : ∀ x ∈ tail, R.term x = e.term := by
            intro x hx
            obtain ⟨more, hmore⟩ := hfirst
            rw [List.append_assoc] at hmore
            have hsplit := List.append_cancel_left hmore
            exact hownTerm x (hsplit ▸ List.mem_append_left more hx)
          have hlast : R.lastTerm (e.log ++ tail) = R.lastTerm log := by
            rw [R.lastTerm_append_of_terms _ _ hsub htail, hterm]
          refine ⟨Or.inr ⟨n, ?_, ?_⟩, hlast.le⟩
          · rw [hlast]
            exact ⟨e, he, hterm, hleader⟩
          · rw [hlast]
            exact hinit.trans hback

/-- A prefix of a leader's log that ends in the leader's own term contains
everything the leader was elected with. -/
theorem election_log_prefix {e : Election Node Entry} {log : List Entry}
    (he : e ∈ h.elections) (hlog : log <+: h.leaderLog e.term e.leader)
    (hterm : e.term ≤ R.lastTerm log) : e.log <+: log := by
  rcases List.prefix_or_prefix_of_prefix hlog (s.election_prefix he) with
    hin | hin
  · have hle := (s.backed_prefix (s.election_backed he) hin).2
    have hold := s.election_old he
    omega
  · exact hin

theorem backed_chained {log : List Entry} (hlog : h.Backed R log) :
    R.Chained R.initial log := by
  rcases hlog with rfl | ⟨n, helected, hinit⟩
  · trivial
  · exact R.chained_of_prefix hinit (s.leader_chained _ n helected)

theorem backed_open {log : List Entry} (hlog : h.Backed R log) :
    h.OneOpen R (R.lastTerm log) h.clock log := by
  rcases hlog with rfl | ⟨n, helected, hinit⟩
  · exact ⟨[], [], rfl, Or.inl rfl, by simp⟩
  · exact (s.leader_open _ n helected).shorten hinit

end Sound

/-- One leader at most in term `t`. -/
def UniqueAt (h : History Node Entry) (t : Nat) : Prop :=
  ∀ e ∈ h.elections, ∀ e' ∈ h.elections, e.term = t → e'.term = t →
    e.leader = e'.leader

/-- Leaders of term `t` start with everything committed in earlier terms. -/
def CompleteAt (h : History Node Entry) (t : Nat) : Prop :=
  ∀ e ∈ h.elections, e.term = t → ∀ c ∈ h.commits, c.term < t →
    c.log <+: e.log

namespace Sound

variable (s : h.Sound R)
include s

/-- What the configurations of `log` rest on is either part of the log `c`
was committed in, or already contains what `c` committed. -/
theorem settled_cross {c : Commit Node Entry} {log settled : List Entry}
    {t time : Nat} (hc : c ∈ h.commits) (hct : c.term < t)
    (hbelow : ∀ t' < t, h.UniqueAt t' ∧ h.CompleteAt t')
    (hsettled : h.Covered (R.lastTerm log) time settled)
    (hlog : settled <+: log) (hold : R.lastTerm log < t) :
    settled <+: c.full ∨ c.log <+: log := by
  rcases hsettled with rfl | ⟨d, hd, hdt, -, hsub⟩
  · exact Or.inl List.nil_prefix
  obtain ⟨ec, hec, hect, hecl⟩ := s.commit_elected c hc
  obtain ⟨ed, hed, hedt, hedl⟩ := s.commit_elected d hd
  rcases Nat.lt_trichotomy d.term c.term with hlt | heq | hgt
  · have hcomplete := (hbelow c.term hct).2 ec hec hect d hd hlt
    exact Or.inl (hsub.trans (hcomplete.trans
      (s.commit_base c hc ec hec hect hecl)))
  · have hleader : d.leader = c.leader := by
      rw [← hedl, ← hecl]
      exact (hbelow c.term hct).1 ed hed ec hec (hedt.trans heq) hect
    have hdfull : settled <+: h.leaderLog c.term c.leader := by
      rw [← heq, ← hleader]
      exact hsub.trans ((s.commit_prefix d hd).trans (s.commit_full d hd))
    rcases List.prefix_or_prefix_of_prefix hdfull (s.commit_full c hc) with
      hin | hin
    · exact Or.inl hin
    · exact Or.inr ((s.commit_prefix c hc).trans (hin.trans hlog))
  · have hcomplete := (hbelow d.term (by omega)).2 ed hed hedt c hc hgt
    have hbase : ed.log <+: d.log := by
      refine s.election_log_prefix hed ?_ ?_
      · rw [hedt, hedl]
        exact (s.commit_prefix d hd).trans (s.commit_full d hd)
      · rw [s.commit_term d hd, hedt]
    rcases List.prefix_or_prefix_of_prefix hsub (hcomplete.trans hbase) with
      hin | hin
    · exact Or.inl (hin.trans (s.commit_prefix c hc))
    · exact Or.inr (hin.trans hlog)

/-- A voter that had acknowledged a committed prefix when it voted passes it
on: the winner's log is at least as up to date as the voter's. -/
theorem vote_carries {c : Commit Node Entry} {e : Election Node Entry}
    {b : Vote Node Entry} (hc : c ∈ h.commits) (he : e ∈ h.elections)
    (hb : b ∈ h.votes) (hbt : b.term = e.term)
    (hbc : b.candidate = e.leader)
    (hbelow : ∀ t' < e.term, h.UniqueAt t' ∧ h.CompleteAt t')
    (hheld : c.log <+: b.log) : c.log <+: e.log := by
  have hupToDate : R.UpToDate e.log b.log := by
    obtain ⟨k, hk, hknode, hkterm, hup⟩ := s.vote_campaign b hb
    obtain ⟨k', hk', hknode', hkterm', hlog'⟩ := s.election_campaign e he
    rw [← hlog', s.campaign_unique k' hk' k hk (by rw [hknode', hknode, hbc])
      (by rw [hkterm', hkterm, hbt])]
    exact hup
  have hvoter : c.term ≤ R.lastTerm b.log := by
    rw [← s.commit_term c hc]
    exact (s.backed_prefix (s.vote_backed b hb) hheld).2
  have hterm : c.term ≤ R.lastTerm e.log := by
    rcases hupToDate with hlt | ⟨heq, -⟩ <;> omega
  obtain ⟨ec, hec, hect, hecl⟩ := s.commit_elected c hc
  have hpositive := s.election_old hec
  have hold := s.election_old he
  rcases s.election_backed he with hnil | ⟨m, ⟨em, hem, hemt, heml⟩, hback⟩
  · rw [hnil, R.lastTerm_nil] at hterm
    omega
  rcases hterm.lt_or_eq with hlt | heq
  · have hcomplete := (hbelow _ hold).2 em hem hemt c hc hlt
    refine hcomplete.trans (s.election_log_prefix hem ?_ hemt.le)
    rw [hemt, heml]
    exact hback
  · have hm : m = c.leader := by
      rw [← heml, ← hecl]
      exact (hbelow _ hold).1 em hem ec hec hemt (hect.trans heq)
    rw [hm, ← heq] at hback
    rcases List.prefix_or_prefix_of_prefix
        ((s.commit_prefix c hc).trans (s.commit_full c hc)) hback with
      hin | hin
    · exact hin
    · have hlength : c.log.length ≤ e.log.length := by
        rcases hupToDate with hlt | ⟨-, hle⟩
        · omega
        · exact hheld.length_le.trans hle
      rw [hin.eq_of_length (Nat.le_antisymm hin.length_le hlength)]

theorem complete_at (t : Nat)
    (hbelow : ∀ t' < t, h.UniqueAt t' ∧ h.CompleteAt t') :
    h.CompleteAt t := by
  intro e
  -- Earlier elections of the same term first: a voter may have been
  -- overwritten by one of them before it voted.
  induction htime : e.time using Nat.strong_induction_on generalizing e with
  | _ time ihe =>
  subst htime
  intro he het c
  -- Older commits first: the configurations of the log `c` was committed in
  -- rest on them.
  induction hctime : c.time using Nat.strong_induction_on generalizing c with
  | _ ctime ihc =>
  subst hctime
  intro hc hct
  subst het
  have hold := s.election_old he
  obtain ⟨settled, rest, hsplit, hcovered, hone⟩ :=
    s.backed_open (s.election_backed he)
  obtain ⟨settled', rest', hsplit', hcovered', hone'⟩ := s.commit_open c hc
  have hfull : settled' <+: e.log := by
    rcases hcovered' with rfl | ⟨d, hd, hdt, hdtime, hsub⟩
    · exact List.nil_prefix
    · exact hsub.trans (ihc d.time hdtime d rfl hd (by omega))
  have hsettled : settled <+: e.log := by
    rw [hsplit]
    exact List.prefix_append _ _
  rcases s.settled_cross hc hct hbelow hcovered hsettled hold with
    hcross | hdone
  · obtain ⟨v, ⟨b, hb, hbv, hbt, hbc, hbtime⟩, a, ha, hav, hat, -, hac⟩ :=
      R.overlap_of_settled
        (hsplit ▸ s.backed_chained (s.election_backed he))
        (hsplit' ▸ R.chained_of_prefix (s.commit_full c hc)
          (s.leader_chained _ _ (s.commit_elected c hc)))
        hone hone' (hsplit' ▸ hcross) (hsplit ▸ hfull)
        (hsplit ▸ s.election_quorum e he)
        (hsplit' ▸ s.commit_quorum c hc)
    rcases s.ack_vote a ha b hb (hav.trans hbv.symm) (by omega) c.log hac with
      hheld | ⟨e', he', hsince, hupto, htime', hnot⟩
    · exact s.vote_carries hc he hb hbt hbc hbelow hheld
    · refine absurd ?_ hnot
      rcases (hbt ▸ hupto).lt_or_eq with hlt | heq
      · exact (hbelow _ hlt).2 e' he' rfl c hc (by omega)
      · exact ihe e'.time (by omega) e' rfl he' heq c hc hct
  · exact hdone

theorem unique_at (t : Nat) (hcomplete : h.CompleteAt t) :
    h.UniqueAt t := by
  intro e he e' he' het het'
  obtain ⟨settled, rest, hsplit, hcovered, hone⟩ :=
    s.backed_open (s.election_backed he)
  obtain ⟨settled', rest', hsplit', hcovered', hone'⟩ :=
    s.backed_open (s.election_backed he')
  have hold := s.election_old he
  have hold' := s.election_old he'
  have hcross : settled <+: e'.log := by
    rcases hcovered with rfl | ⟨d, hd, hdt, -, hsub⟩
    · exact List.nil_prefix
    · exact hsub.trans (hcomplete e' he' het' d hd (by omega))
  have hcross' : settled' <+: e.log := by
    rcases hcovered' with rfl | ⟨d, hd, hdt, -, hsub⟩
    · exact List.nil_prefix
    · exact hsub.trans (hcomplete e he het d hd (by omega))
  obtain ⟨v, ⟨b, hb, hbv, hbt, hbc, -⟩, b', hb', hbv', hbt', hbc', -⟩ :=
    R.overlap_of_settled
      (hsplit ▸ s.backed_chained (s.election_backed he))
      (hsplit' ▸ s.backed_chained (s.election_backed he'))
      hone hone' (hsplit' ▸ hcross) (hsplit ▸ hcross')
      (hsplit ▸ s.election_quorum e he)
      (hsplit' ▸ s.election_quorum e' he')
  rw [← hbc, ← hbc']
  exact s.vote_unique b hb b' hb' (hbv.trans hbv'.symm) (by omega)

theorem unique_and_complete (t : Nat) :
    h.UniqueAt t ∧ h.CompleteAt t := by
  induction t using Nat.strong_induction_on with
  | _ t ih =>
    have hcomplete := s.complete_at t ih
    exact ⟨s.unique_at t hcomplete, hcomplete⟩

/-- Election safety: a term has at most one leader, over the whole run. -/
theorem elected_unique {t : Nat} {m n : Node} (hm : h.Elected t m)
    (hn : h.Elected t n) : m = n := by
  obtain ⟨e, he, hterm, rfl⟩ := hm
  obtain ⟨e', he', hterm', rfl⟩ := hn
  exact (s.unique_and_complete t).1 e he e' he' hterm hterm'

/-- Leader completeness: what was committed in term `c.term` is in the log of
every leader of that term or a later one. -/
theorem commit_in_leader {c : Commit Node Entry} {t : Nat} {n : Node}
    (hc : c ∈ h.commits) (hterm : c.term ≤ t) (hn : h.Elected t n) :
    c.log <+: h.leaderLog t n := by
  rcases hterm.lt_or_eq with hlt | heq
  · obtain ⟨e, he, het, hel⟩ := hn
    have hcomplete := (s.unique_and_complete t).2 e he het c hc hlt
    rw [← het, ← hel]
    exact hcomplete.trans (s.election_prefix he)
  · subst heq
    rw [s.elected_unique hn (s.commit_elected c hc)]
    exact (s.commit_prefix c hc).trans (s.commit_full c hc)

theorem covered_in_leader {t t' time : Nat} {n : Node} {log : List Entry}
    (hlog : h.Covered t time log) (hterm : t ≤ t') (hn : h.Elected t' n) :
    log <+: h.leaderLog t' n := by
  rcases hlog with rfl | ⟨d, hd, hdt, -, hsub⟩
  · exact List.nil_prefix
  · exact hsub.trans (s.commit_in_leader hd (hdt.trans hterm) hn)

/-- A committed prefix that reaches into the leader's own term starts with
everything that leader was elected with. -/
theorem commit_covers_base {c d : Commit Node Entry} (hc : c ∈ h.commits)
    (hd : d ∈ h.commits) (hlt : c.term < d.term) : c.log <+: d.log := by
  obtain ⟨e, he, het, hel⟩ := s.commit_elected d hd
  have hcomplete := (s.unique_and_complete d.term).2 e he het c hc hlt
  refine hcomplete.trans (s.election_log_prefix he ?_ ?_)
  · rw [het, hel]
    exact (s.commit_prefix d hd).trans (s.commit_full d hd)
  · rw [het, s.commit_term d hd]

/-- State machine safety: any two committed prefixes agree. -/
theorem commits_comparable {c d : Commit Node Entry} (hc : c ∈ h.commits)
    (hd : d ∈ h.commits) : c.log <+: d.log ∨ d.log <+: c.log := by
  rcases Nat.lt_trichotomy c.term d.term with hlt | heq | hgt
  · exact Or.inl (s.commit_covers_base hc hd hlt)
  · have hleader := s.commit_in_leader hc heq.le (s.commit_elected d hd)
    exact List.prefix_or_prefix_of_prefix hleader
      ((s.commit_prefix d hd).trans (s.commit_full d hd))
  · exact Or.inr (s.commit_covers_base hd hc hgt)

theorem covered_comparable {t t' time time' : Nat} {first second : List Entry}
    (hfirst : h.Covered t time first) (hsecond : h.Covered t' time' second) :
    first <+: second ∨ second <+: first := by
  rcases hfirst with rfl | ⟨c, hc, -, -, hc'⟩
  · exact Or.inl List.nil_prefix
  rcases hsecond with rfl | ⟨d, hd, -, -, hd'⟩
  · exact Or.inr List.nil_prefix
  rcases s.commits_comparable hc hd with hcd | hdc
  · exact List.prefix_or_prefix_of_prefix (hc'.trans hcd) hd'
  · exact List.prefix_or_prefix_of_prefix hc' (hd'.trans hdc)

/-- Log matching: two backed logs with equal lengths and equal last terms are
the same log. -/
theorem backed_unique {first second : List Entry}
    (hfirst : h.Backed R first) (hsecond : h.Backed R second)
    (hlength : first.length = second.length)
    (hterm : R.lastTerm first = R.lastTerm second) : first = second := by
  rcases hfirst with rfl | ⟨m, hm, hm'⟩
  · exact (List.length_eq_zero_iff.mp hlength.symm).symm
  rcases hsecond with rfl | ⟨n, hn, hn'⟩
  · exact List.length_eq_zero_iff.mp hlength
  rw [hterm] at hm hm'
  rw [s.elected_unique hm hn] at hm'
  exact prefix_unique hm' hn' hlength

theorem elected_positive {t : Nat} {n : Node} (hn : h.Elected t n) :
    0 < t := by
  obtain ⟨e, he, rfl, -⟩ := hn
  have := s.election_old he
  omega

theorem leader_backed {t : Nat} {n : Node} {log : List Entry}
    (hn : h.Elected t n) (hlog : log <+: h.leaderLog t n) :
    h.Backed R log := by
  obtain ⟨e, he, rfl, rfl⟩ := hn
  obtain ⟨own, hown, hterm⟩ := s.election_log e he
  rw [hown] at hlog
  rcases List.prefix_or_prefix_of_prefix hlog
      (List.prefix_append e.log own) with hin | ⟨tail, rfl⟩
  · exact (s.backed_prefix (s.election_backed he) hin).1
  · by_cases htail : tail = []
    · subst htail
      rw [List.append_nil]
      exact s.election_backed he
    · have hsub : ∀ x ∈ tail, R.term x = e.term := by
        intro x hx
        have hin := (List.prefix_append_right_inj e.log).mp hlog
        exact hterm x (hin.subset hx)
      have hlast := R.lastTerm_append_of_terms e.log tail hsub htail
      refine Or.inr ⟨e.leader, ?_, ?_⟩
      · rw [hlast]
        exact ⟨e, he, rfl, rfl⟩
      · rw [hlast, hown]
        exact hlog

/-- The last term of a prefix of a leader's log is at most its term. -/
theorem leader_lastTerm {t : Nat} {n : Node} {log : List Entry}
    (hn : h.Elected t n) (hlog : log <+: h.leaderLog t n) :
    R.lastTerm log ≤ t := by
  obtain ⟨e, he, rfl, rfl⟩ := hn
  obtain ⟨own, hown, hterm⟩ := s.election_log e he
  have hwhole : R.lastTerm (h.leaderLog e.term e.leader) ≤ e.term := by
    rw [hown]
    by_cases hnil : own = []
    · rw [hnil, List.append_nil]
      exact (s.election_old he).le
    · rw [R.lastTerm_append_of_terms e.log own hterm hnil]
  have hbacked := s.leader_backed ⟨e, he, rfl, rfl⟩
    (List.prefix_refl (h.leaderLog e.term e.leader))
  exact (s.backed_prefix hbacked hlog).2.trans hwhole

/-! ### Configurations that had a quorum -/

/-- The first election of all was won under the initial configuration. -/
theorem initial_quorum {e : Election Node Entry} (he : e ∈ h.elections) :
    ∃ P, R.quorum R.initial P := by
  induction ht : e.term using Nat.strong_induction_on generalizing e with
  | _ t ih =>
    rcases s.election_backed he with hnil | ⟨n, ⟨e', he', hterm, -⟩, -⟩
    · have hquorum := s.election_quorum e he
      rw [hnil] at hquorum
      exact ⟨_, hquorum⟩
    · refine ih e'.term ?_ he' rfl
      rw [hterm, ← ht]
      exact s.election_old he

/-- At each of its prefixes, what was committed was governed by a
configuration that has had a quorum: at most one configuration entry was open
when the last one decided. -/
theorem commit_quorums {d : Commit Node Entry} (hd : d ∈ h.commits)
    {log : List Entry} (hlog : log <+: d.full) :
    ∃ P, R.quorum (R.latest R.initial log) P := by
  induction ht : d.time using Nat.strong_induction_on generalizing d log with
  | _ time ih =>
    obtain ⟨settled, rest, hfull, hcovered, hone⟩ := s.commit_open d hd
    have hsettled : ∀ {first}, first <+: settled →
        ∃ P, R.quorum (R.latest R.initial first) P := by
      intro first hfirst
      rcases hcovered with rfl | ⟨d', hd', -, htime, hinit⟩
      · obtain ⟨e, he, -⟩ := s.commit_elected d hd
        rw [List.prefix_nil.mp hfirst]
        exact s.initial_quorum he
      · exact ih d'.time (ht ▸ htime) hd'
          (hfirst.trans (hinit.trans (s.commit_prefix d' hd'))) rfl
    rw [hfull] at hlog
    rcases List.prefix_or_prefix_of_prefix hlog
        (List.prefix_append settled rest) with hin | ⟨more, rfl⟩
    · exact hsettled hin
    obtain ⟨tail, rfl⟩ := (List.prefix_append_right_inj settled).mp hlog
    rw [R.configs_append, List.length_append] at hone
    by_cases hmore : R.configs more = []
    · rw [R.latest_append, R.latest_of_configs_nil _ more hmore]
      exact hsettled (List.prefix_refl settled)
    · have htail : R.configs tail = [] := by
        have hpos := List.length_pos_of_ne_nil hmore
        exact List.length_eq_zero_iff.mp (by omega)
      have hquorum := s.commit_quorum d hd
      rw [hfull, ← List.append_assoc, R.latest_append,
        R.latest_of_configs_nil _ tail htail] at hquorum
      exact ⟨_, hquorum⟩

theorem covered_quorum {t time : Nat} {log : List Entry} (hlog : h.Covered t time log)
    (hne : log ≠ []) : ∃ P, R.quorum (R.latest R.initial log) P := by
  obtain ⟨d, hd, -, -, hinit⟩ := hlog.resolve_left hne
  exact s.commit_quorums hd (hinit.trans (s.commit_prefix d hd))

end Sound

end History

end Kurogane.Consensus
