import Kurogane.Consensus.History
import Mathlib.Logic.Function.Basic
import Mathlib.Logic.Relation

/-!
What one node of the protocol may do to the history. The steps are weaker
than any implementation: a node may raise its term, vote, declare a campaign, win,
append, adopt a prefix of a leader's log, acknowledge, commit, or move its own
commit index inside what is known to be committed. An implementation is safe
as soon as each of its transitions is a sequence of these.
-/

namespace Kurogane.Consensus

namespace History

variable {Node Entry Config : Type*}

/-- Everything recorded in `h` is still recorded in `h'`. -/
structure Extends (h h' : History Node Entry) : Prop where
  clock : h.clock ≤ h'.clock
  term : ∀ u, h.term u ≤ h'.term u
  votes : h.votes ⊆ h'.votes
  campaigns : h.campaigns ⊆ h'.campaigns
  elections : h.elections ⊆ h'.elections
  acks : h.acks ⊆ h'.acks
  commits : h.commits ⊆ h'.commits
  leaderLog : ∀ t n, h.Elected t n → h.leaderLog t n <+: h'.leaderLog t n

/-- Nodes other than `v` are where they were, and only `v` voted, campaigned
or led. -/
structure Frame (v : Node) (h h' : History Node Entry) : Prop where
  term : ∀ u, u ≠ v → h'.term u = h.term u
  log : ∀ u, u ≠ v → h'.log u = h.log u
  commit : ∀ u, u ≠ v → h'.commit u = h.commit u
  votes : ∀ a ∈ h'.votes, a.voter ≠ v → a ∈ h.votes
  elections : ∀ e ∈ h'.elections, e.leader ≠ v → e ∈ h.elections
  leaderLog : ∀ t n, n ≠ v → h'.leaderLog t n = h.leaderLog t n

variable {R : Rules Node Entry Config} {h h' : History Node Entry} {v : Node}

namespace Extends

theorem refl (h : History Node Entry) : h.Extends h :=
  ⟨le_rfl, fun _ => le_rfl, fun _ => id, fun _ => id, fun _ => id,
    fun _ => id, fun _ => id, fun _ _ _ => List.prefix_refl _⟩

theorem elected (ext : h.Extends h') {t : Nat} {n : Node}
    (hn : h.Elected t n) : h'.Elected t n := by
  obtain ⟨e, he, hterm, hleader⟩ := hn
  exact ⟨e, ext.elections he, hterm, hleader⟩

theorem trans {h'' : History Node Entry} (ext : h.Extends h')
    (ext' : h'.Extends h'') : h.Extends h'' where
  clock := ext.clock.trans ext'.clock
  term u := (ext.term u).trans (ext'.term u)
  votes := ext.votes.trans ext'.votes
  campaigns := ext.campaigns.trans ext'.campaigns
  elections := ext.elections.trans ext'.elections
  acks := ext.acks.trans ext'.acks
  commits := ext.commits.trans ext'.commits
  leaderLog t n hn :=
    (ext.leaderLog t n hn).trans (ext'.leaderLog t n (ext.elected hn))

theorem backed (ext : h.Extends h') {log : List Entry}
    (hlog : h.Backed R log) : h'.Backed R log := by
  rcases hlog with rfl | ⟨n, hn, hinit⟩
  · exact Or.inl rfl
  · exact Or.inr ⟨n, ext.elected hn, hinit.trans (ext.leaderLog _ _ hn)⟩

theorem covered (ext : h.Extends h') {t t' time time' : Nat}
    {log : List Entry} (hlog : h.Covered t time log) (hterm : t ≤ t')
    (htime : time ≤ time') : h'.Covered t' time' log := by
  rcases hlog with rfl | ⟨d, hd, hdt, hdtime, hsub⟩
  · exact Or.inl rfl
  · exact Or.inr ⟨d, ext.commits hd, hdt.trans hterm, by omega, hsub⟩

theorem oneOpen (ext : h.Extends h') {t time time' : Nat} {log : List Entry}
    (hlog : h.OneOpen R t time log) (htime : time ≤ time') :
    h'.OneOpen R t time' log := by
  obtain ⟨settled, rest, hsplit, hcovered, hone⟩ := hlog
  exact ⟨settled, rest, hsplit, ext.covered hcovered le_rfl htime, hone⟩

theorem lost (ext : h.Extends h') {log : List Entry} {since t t' time time' : Nat}
    (hlost : h.Lost log since t time) (hterm : t ≤ t') (htime : time ≤ time') :
    h'.Lost log since t' time' := by
  obtain ⟨e, he, hsince, hupto, hetime, hnot⟩ := hlost
  exact ⟨e, ext.elections he, hsince, hupto.trans hterm, by omega, hnot⟩

end Extends

namespace Frame

theorem refl (v : Node) (h : History Node Entry) : h.Frame v h :=
  ⟨fun _ _ => rfl, fun _ _ => rfl, fun _ _ => rfl, fun _ ha _ => ha,
    fun _ he _ => he, fun _ _ _ => rfl⟩

theorem trans {h'' : History Node Entry} (frame : h.Frame v h')
    (frame' : h'.Frame v h'') : h.Frame v h'' where
  term u hu := (frame'.term u hu).trans (frame.term u hu)
  log u hu := (frame'.log u hu).trans (frame.log u hu)
  commit u hu := (frame'.commit u hu).trans (frame.commit u hu)
  votes a ha hne := frame.votes a (frame'.votes a ha hne) hne
  elections e he hne := frame.elections e (frame'.elections e he hne) hne
  leaderLog t n hn := (frame'.leaderLog t n hn).trans (frame.leaderLog t n hn)

end Frame

/-- Time passes: every record of a later step is younger. -/
def tick (h : History Node Entry) : History Node Entry :=
  { h with clock := h.clock + 1 }

@[simp] theorem tick_clock (h : History Node Entry) :
    h.tick.clock = h.clock + 1 := rfl

@[simp] theorem tick_term (h : History Node Entry) :
    h.tick.term = h.term := rfl

@[simp] theorem tick_log (h : History Node Entry) :
    h.tick.log = h.log := rfl

@[simp] theorem tick_commit (h : History Node Entry) :
    h.tick.commit = h.commit := rfl

section Steps

variable [DecidableEq Node] (R : Rules Node Entry Config)

def setLeaderLog (h : History Node Entry) (t : Nat) (n : Node)
    (log : List Entry) : Nat → Node → List Entry :=
  fun t' n' => if t' = t ∧ n' = n then log else h.leaderLog t' n'

/-- One step of node `v`. -/
inductive Step (v : Node) (h : History Node Entry) :
    History Node Entry → Prop where
  | advance (t : Nat) (hterm : h.term v ≤ t) :
      Step v h { h.tick with term := Function.update h.term v t }
  | vote (c : Campaign Node Entry) (hc : c ∈ h.campaigns)
      (hterm : c.term = h.term v)
      (hnone : ∀ a ∈ h.votes, a.voter = v → a.term ≠ c.term)
      (hup : R.UpToDate c.log (h.log v)) :
      Step v h { h.tick with
        votes := insert ⟨v, c.term, c.node, h.log v, h.clock⟩ h.votes }
  | declare (hfresh : ∀ c ∈ h.campaigns, c.node = v → c.term ≠ h.term v)
      (hold : R.lastTerm (h.log v) < h.term v) :
      Step v h { h.tick with
        campaigns := insert ⟨v, h.term v, h.log v⟩ h.campaigns }
  | elect (hcampaign : ⟨v, h.term v, h.log v⟩ ∈ h.campaigns)
      (hnot : ¬ h.Elected (h.term v) v)
      (hquorum : R.quorum (R.latest R.initial (h.log v))
        (fun u => ∃ a ∈ h.votes, a.voter = u ∧ a.term = h.term v ∧
          a.candidate = v)) :
      Step v h { h.tick with
        elections := insert ⟨v, h.term v, h.log v, h.clock⟩ h.elections
        leaderLog := h.setLeaderLog (h.term v) v (h.log v) }
  | append (x : Entry) (helected : h.Elected (h.term v) v)
      (hlog : h.log v = h.leaderLog (h.term v) v)
      (hterm : R.term x = h.term v)
      (hconfig : ∀ d, R.config x = some d →
        R.next (R.latest R.initial (h.log v)) d ∧
          R.configs ((h.log v).drop (h.commit v)) = []) :
      Step v h { h.tick with
        log := Function.update h.log v (h.log v ++ [x])
        leaderLog := h.setLeaderLog (h.term v) v (h.log v ++ [x]) }
  | adopt (n : Node) (log : List Entry) (helected : h.Elected (h.term v) n)
      (hinit : log <+: h.leaderLog (h.term v) n)
      (hnot : ¬ log <+: h.log v) :
      Step v h { h.tick with log := Function.update h.log v log }
  | ack (t : Nat) (n : Node) (log : List Entry) (helected : h.Elected t n)
      (hinit : log <+: h.leaderLog t n) (hheld : log <+: h.log v)
      (hterm : t ≤ h.term v)
      (hvotes : ∀ b ∈ h.votes, b.voter = v → t < b.term → log <+: b.log) :
      Step v h { h.tick with acks := insert ⟨v, n, t, log⟩ h.acks }
  | commit (log : List Entry) (helected : h.Elected (h.term v) v)
      (hlog : h.log v = h.leaderLog (h.term v) v) (hinit : log <+: h.log v)
      (hterm : R.lastTerm log = h.term v)
      (hquorum : R.quorum (R.latest R.initial (h.log v))
        (fun u => ∃ a ∈ h.acks, a.voter = u ∧ a.term = h.term v ∧
          a.leader = v ∧ log <+: a.log)) :
      Step v h { h.tick with
        commit := Function.update h.commit v log.length
        commits := insert ⟨v, h.term v, log, h.log v, h.clock⟩ h.commits }
  | settle (k : Nat) (hk : k ≤ (h.log v).length)
      (hcovered : h.Covered (h.term v) h.clock ((h.log v).take k)) :
      Step v h { h.tick with commit := Function.update h.commit v k }

variable {R} {v : Node} {h h' : History Node Entry}

theorem Step.frame (step : h.Step R v h') : h.Frame v h' := by
  cases step <;>
    refine ⟨fun u hu => ?_, fun u hu => ?_, fun u hu => ?_,
      fun a ha hne => ?_, fun e he hne => ?_, fun t n hn => ?_⟩ <;>
    first
    | rfl
    | exact ha
    | exact he
    | exact Function.update_of_ne hu _ _
    | exact ((Set.mem_insert_iff.mp ha).resolve_left
        (fun heq => hne (by rw [heq])))
    | exact ((Set.mem_insert_iff.mp he).resolve_left
        (fun heq => hne (by rw [heq])))
    | exact if_neg (fun heq => hn heq.2)

theorem Step.extends (step : h.Step R v h') : h.Extends h' := by
  have hupdate {t : Nat} (hterm : h.term v ≤ t) (u : Node) :
      h.term u ≤ Function.update h.term v t u := by
    by_cases hu : u = v
    · subst hu
      simpa using hterm
    · simp [hu]
  have hclock : h.clock ≤ h.tick.clock := Nat.le_succ _
  have hself : ∀ t n, h.Elected t n → h.leaderLog t n <+: h.leaderLog t n :=
    fun _ _ _ => List.prefix_refl _
  have hset {t : Nat} {n : Node} {log : List Entry}
      (hlog : h.Elected t n → h.leaderLog t n <+: log) (t' : Nat) (n' : Node)
      (hn : h.Elected t' n') :
      h.leaderLog t' n' <+: h.setLeaderLog t n log t' n' := by
    unfold setLeaderLog
    split
    · rename_i heq
      obtain ⟨rfl, rfl⟩ := heq
      exact hlog hn
    · exact List.prefix_refl _
  cases step with
  | advance t hterm =>
      exact ⟨hclock, hupdate hterm, fun _ => id, fun _ => id, fun _ => id,
        fun _ => id, fun _ => id, hself⟩
  | vote c hc hterm hnone hup =>
      exact ⟨hclock, fun _ => le_rfl, Set.subset_insert _ _, fun _ => id,
        fun _ => id, fun _ => id, fun _ => id, hself⟩
  | declare hfresh hold =>
      exact ⟨hclock, fun _ => le_rfl, fun _ => id, Set.subset_insert _ _,
        fun _ => id, fun _ => id, fun _ => id, hself⟩
  | elect hcampaign hnot hquorum =>
      exact ⟨hclock, fun _ => le_rfl, fun _ => id, fun _ => id,
        Set.subset_insert _ _, fun _ => id, fun _ => id,
        hset (fun hn => absurd hn hnot)⟩
  | append x helected hlog hterm hconfig =>
      exact ⟨hclock, fun _ => le_rfl, fun _ => id, fun _ => id, fun _ => id,
        fun _ => id, fun _ => id,
        hset (fun _ => hlog ▸ List.prefix_append _ _)⟩
  | adopt n log helected hinit hnot =>
      exact ⟨hclock, fun _ => le_rfl, fun _ => id, fun _ => id, fun _ => id,
        fun _ => id, fun _ => id, hself⟩
  | ack t n log helected hinit hheld hterm hvotes =>
      exact ⟨hclock, fun _ => le_rfl, fun _ => id, fun _ => id, fun _ => id,
        Set.subset_insert _ _, fun _ => id, hself⟩
  | commit log helected hlog hinit hterm hquorum =>
      exact ⟨hclock, fun _ => le_rfl, fun _ => id, fun _ => id, fun _ => id,
        fun _ => id, Set.subset_insert _ _, hself⟩
  | settle k hk hcovered =>
      exact ⟨hclock, fun _ => le_rfl, fun _ => id, fun _ => id, fun _ => id,
        fun _ => id, fun _ => id, hself⟩

end Steps

end History

end Kurogane.Consensus
