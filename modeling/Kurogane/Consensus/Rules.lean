import Mathlib.Data.List.Infix
import Mathlib.Tactic.Common

/-!
Logs of a replicated state machine whose membership is stored in the log
itself. Every entry carries the term it was created in; some entries replace
the configuration in force. Nothing here mentions an implementation: the
rules say which configuration may follow which, and that the quorums of two
configurations at most one replacement apart intersect.
-/

namespace Kurogane.Consensus

/-- What a reconfigurable replicated log needs to know about its entries and
its configurations. The three overlap fields are all that safety asks of the
quorums: of one configuration, of a configuration and the one that replaces
it, and of two rival replacements of the same one. -/
structure Rules (Node Entry Config : Type*) where
  term : Entry → Nat
  config : Entry → Option Config
  initial : Config
  quorum : Config → (Node → Prop) → Prop
  next : Config → Config → Prop
  quorum_mono : ∀ {c P Q}, quorum c P → (∀ v, P v → Q v) → quorum c Q
  overlap_self : ∀ {c P Q}, quorum c P → quorum c Q → ∃ v, P v ∧ Q v
  overlap_next : ∀ {c d P Q}, next c d → quorum c P → quorum d Q →
    ∃ v, P v ∧ Q v
  overlap_sibling : ∀ {c d e P Q}, next c d → next c e →
    quorum d P → quorum e Q → ∃ v, P v ∧ Q v

namespace Rules

variable {Node Entry Config : Type*} (R : Rules Node Entry Config)

/-- The configuration in force after `log`, when `c` was before it. -/
def latest (c : Config) (log : List Entry) : Config :=
  log.foldl (fun c e => (R.config e).getD c) c

/-- Every configuration entry of `log` may follow the one before it. -/
def Chained : Config → List Entry → Prop
  | _, [] => True
  | c, e :: rest =>
      (∀ d, R.config e = some d → R.next c d) ∧
        Chained ((R.config e).getD c) rest

def configs (log : List Entry) : List Config :=
  log.filterMap R.config

/-- The term of the last entry, zero for an empty log. -/
def lastTerm (log : List Entry) : Nat :=
  (log.getLast?.map R.term).getD 0

/-- The order votes are granted by: a higher last term wins, and of two logs
with equal last terms the longer one is at least as up to date. -/
def UpToDate (candidate voter : List Entry) : Prop :=
  R.lastTerm voter < R.lastTerm candidate ∨
    (R.lastTerm voter = R.lastTerm candidate ∧
      voter.length ≤ candidate.length)

@[simp] theorem latest_nil (c : Config) : R.latest c [] = c := rfl

theorem latest_cons (c : Config) (e : Entry) (log : List Entry) :
    R.latest c (e :: log) = R.latest ((R.config e).getD c) log := rfl

theorem latest_append (c : Config) (first second : List Entry) :
    R.latest c (first ++ second) = R.latest (R.latest c first) second := by
  simp [latest, List.foldl_append]

@[simp] theorem configs_nil : R.configs [] = [] := rfl

theorem configs_append (first second : List Entry) :
    R.configs (first ++ second) = R.configs first ++ R.configs second := by
  simp [configs]

theorem latest_of_configs_nil (c : Config) (log : List Entry)
    (h : R.configs log = []) : R.latest c log = c := by
  induction log generalizing c with
  | nil => rfl
  | cons e rest ih =>
      cases he : R.config e with
      | none =>
          have hrest : R.configs rest = [] := by
            simpa [configs, he] using h
          rw [latest_cons, he]
          exact ih c hrest
      | some d => simp [configs, he] at h

/-- What holds of the configuration before a log and of every one it sets holds
of the one in force after it. -/
theorem latest_invariant {P : Config → Prop} {c : Config} {log : List Entry} (h : P c)
    (hlog : ∀ e ∈ log, ∀ d, R.config e = some d → P d) : P (R.latest c log) := by
  induction log generalizing c with
  | nil => exact h
  | cons e rest ih =>
      rw [latest_cons]
      refine ih ?_ (fun x hx => hlog x (List.mem_cons_of_mem e hx))
      cases he : R.config e with
      | none => exact h
      | some d => exact hlog e List.mem_cons_self d he

/-- The first configuration a chained log sets may follow the one before it. -/
theorem exists_next_of_configs {c : Config} {log : List Entry} (hchain : R.Chained c log)
    (hconfigs : R.configs log ≠ []) : ∃ e ∈ log, ∃ d, R.config e = some d ∧ R.next c d := by
  induction log with
  | nil => exact absurd rfl hconfigs
  | cons e rest ih =>
      cases he : R.config e with
      | some d => exact ⟨e, List.mem_cons_self, d, he, hchain.1 d he⟩
      | none =>
          have hrest : R.Chained c rest := by
            have hlater := hchain.2
            rwa [he] at hlater
          obtain ⟨x, hx, hnext⟩ := ih hrest (by simpa [configs, he] using hconfigs)
          exact ⟨x, List.mem_cons_of_mem e hx, hnext⟩

theorem chained_append (c : Config) (first second : List Entry) :
    R.Chained c (first ++ second) ↔
      R.Chained c first ∧ R.Chained (R.latest c first) second := by
  induction first generalizing c with
  | nil => simp [Chained]
  | cons e rest ih =>
      simp only [List.cons_append, Chained, ih, latest_cons, and_assoc]

theorem chained_of_prefix {c : Config} {first log : List Entry}
    (hinit : first <+: log) (h : R.Chained c log) : R.Chained c first := by
  obtain ⟨rest, rfl⟩ := hinit
  exact ((R.chained_append c first rest).mp h).1

/-- After at most one configuration entry the configuration is unchanged or
a direct successor. -/
theorem latest_of_one_config (c : Config) (log : List Entry)
    (hchain : R.Chained c log) (hone : (R.configs log).length ≤ 1) :
    R.latest c log = c ∨ R.next c (R.latest c log) := by
  induction log generalizing c with
  | nil => exact Or.inl rfl
  | cons e rest ih =>
      obtain ⟨hnext, hrest⟩ := hchain
      cases he : R.config e with
      | none =>
          simp only [he, Option.getD_none] at hrest
          have hlength : (R.configs rest).length ≤ 1 := by
            simpa [configs, he] using hone
          rw [latest_cons, he]
          exact ih c hrest hlength
      | some d =>
          have hnil : R.configs rest = [] := by
            have hlength : (R.configs rest).length = 0 := by
              simpa [configs, he] using hone
            exact List.length_eq_zero_iff.mp hlength
          have hlatest : R.latest c (e :: rest) = d := by
            rw [latest_cons, he]
            exact R.latest_of_configs_nil d rest hnil
          rw [hlatest]
          exact Or.inr (hnext d he)

/-- Two logs that share a prefix and carry at most one configuration entry
each beyond it are governed by configurations whose quorums intersect. -/
theorem overlap_of_common_prefix {common left right : List Entry}
    {P Q : Node → Prop}
    (hleft : R.Chained R.initial (common ++ left))
    (hright : R.Chained R.initial (common ++ right))
    (hleftOne : (R.configs left).length ≤ 1)
    (hrightOne : (R.configs right).length ≤ 1)
    (hP : R.quorum (R.latest R.initial (common ++ left)) P)
    (hQ : R.quorum (R.latest R.initial (common ++ right)) Q) :
    ∃ v, P v ∧ Q v := by
  rw [latest_append] at hP hQ
  have hl := R.latest_of_one_config _ left
    ((R.chained_append _ common left).mp hleft).2 hleftOne
  have hr := R.latest_of_one_config _ right
    ((R.chained_append _ common right).mp hright).2 hrightOne
  rcases hl with hl | hl <;> rcases hr with hr | hr
  · rw [hl] at hP
    rw [hr] at hQ
    exact R.overlap_self hP hQ
  · rw [hl] at hP
    exact R.overlap_next hr hP hQ
  · rw [hr] at hQ
    obtain ⟨v, hv, hv'⟩ := R.overlap_next hl hQ hP
    exact ⟨v, hv', hv⟩
  · exact R.overlap_sibling hl hr hP hQ

/-- The form safety uses: each log is a settled part followed by at most one
configuration entry, and each settled part is a prefix of the other log. -/
theorem overlap_of_settled {left leftRest right rightRest : List Entry}
    {P Q : Node → Prop}
    (hleft : R.Chained R.initial (left ++ leftRest))
    (hright : R.Chained R.initial (right ++ rightRest))
    (hleftOne : (R.configs leftRest).length ≤ 1)
    (hrightOne : (R.configs rightRest).length ≤ 1)
    (hcross : left <+: right ++ rightRest)
    (hcross' : right <+: left ++ leftRest)
    (hP : R.quorum (R.latest R.initial (left ++ leftRest)) P)
    (hQ : R.quorum (R.latest R.initial (right ++ rightRest)) Q) :
    ∃ v, P v ∧ Q v := by
  rcases List.prefix_or_prefix_of_prefix (List.prefix_append left leftRest)
      hcross' with ⟨middle, rfl⟩ | ⟨middle, rfl⟩
  · obtain ⟨tail, htail⟩ := hcross'
    have hrest : leftRest = middle ++ tail := by
      simpa [List.append_assoc] using htail.symm
    subst hrest
    rw [← List.append_assoc] at hleft hP
    refine R.overlap_of_common_prefix hleft hright ?_ hrightOne hP hQ
    rw [configs_append, List.length_append] at hleftOne
    omega
  · obtain ⟨tail, htail⟩ := hcross
    have hrest : rightRest = middle ++ tail := by
      simpa [List.append_assoc] using htail.symm
    subst hrest
    rw [← List.append_assoc] at hright hQ
    refine R.overlap_of_common_prefix hleft hright hleftOne ?_ hP hQ
    rw [configs_append, List.length_append] at hrightOne
    omega

@[simp] theorem lastTerm_nil : R.lastTerm [] = 0 := rfl

@[simp] theorem lastTerm_concat (log : List Entry) (e : Entry) :
    R.lastTerm (log ++ [e]) = R.term e := by
  simp [lastTerm]

theorem lastTerm_append_of_terms (log own : List Entry) {t : Nat}
    (hown : ∀ e ∈ own, R.term e = t) (hne : own ≠ []) :
    R.lastTerm (log ++ own) = t := by
  obtain ⟨init, last, rfl⟩ := (List.eq_nil_or_concat own).resolve_left hne
  rw [List.concat_eq_append, ← List.append_assoc, lastTerm_concat]
  exact hown last (by simp)

theorem lastTerm_take {log : List Entry} {k : Nat} {x : Entry} (hx : log[k]? = some x) :
    R.lastTerm (log.take (k + 1)) = R.term x := by
  rw [List.take_add_one, hx]
  exact R.lastTerm_append_of_terms _ [x] (by simp) (by simp)

end Rules

/-- Two prefixes of one log with equal lengths are equal. -/
theorem prefix_unique {Entry : Type*} {first second log : List Entry}
    (h₁ : first <+: log) (h₂ : second <+: log)
    (hlength : first.length = second.length) : first = second :=
  (List.prefix_of_prefix_length_le h₁ h₂ hlength.le).eq_of_length hlength

end Kurogane.Consensus
