import Kurogane.Consensus.Safety
import Kurogane.Raft.Lockstep
import Kurogane.Raft.Quorums
import Kurogane.Raft.WriteAhead

/-!
Membership as the log determines it. `membership` instantiates the rules of a
reconfigurable log: a plain configuration is followed by a joint one that
keeps its voters as the old set, and a joint one by the plain one it announces.
The rest relates the node's own bookkeeping to the full log it is a suffix of.
-/

namespace Kurogane.Sim

open Kurogane.Raft Kurogane.Consensus

def entryConfig (entry : LogEntry) : Option ClusterConfig :=
  match entry.payload with
  | .configuration config => some config
  | .command _ => none

/-- One step of the sequence plain, joint, plain. -/
def configNext (config next : ClusterConfig) : Prop :=
  (config.oldVoters = none ∧ next.oldVoters = some config.voters) ∨
    (config.oldVoters.isSome ∧ next = ⟨config.voters, none⟩)

/-- The rules of membership for a cluster started with `initial`. -/
def membership (initial : ClusterConfig) :
    Rules NodeId LogEntry ClusterConfig where
  term := LogEntry.term
  config := entryConfig
  initial := initial
  quorum := configQuorum
  next := configNext
  quorum_mono := fun ⟨hnew, hold⟩ hmono =>
    ⟨hnew.mono hmono, fun old hsome => (hold old hsome).mono hmono⟩
  overlap_self := fun hP hQ => hP.1.overlap hQ.1
  overlap_next := by
    rintro c d P Q (⟨hplain, hjoint⟩ | ⟨hjoint, rfl⟩) hP hQ
    · exact hP.1.overlap (hQ.2 _ hjoint)
    · exact hP.1.overlap hQ.1
  overlap_sibling := by
    rintro c d e P Q (⟨hplain, hd⟩ | ⟨hjoint, rfl⟩)
      (⟨hplain', he⟩ | ⟨hjoint', rfl⟩) hP hQ
    · exact (hP.2 _ hd).overlap (hQ.2 _ he)
    · simp [hplain] at hjoint'
    · simp [hplain'] at hjoint
    · exact hP.1.overlap hQ.1

variable (initial : ClusterConfig)

@[simp] theorem membership_term :
    (membership initial).term = LogEntry.term := rfl

@[simp] theorem membership_initial :
    (membership initial).initial = initial := rfl

@[simp] theorem membership_config :
    (membership initial).config = entryConfig := rfl

/-! ### The latest configuration of a log -/

/-- The configuration a node computes from its suffix of the log is the one
in force after it. -/
theorem latestConfigurationIn_latest (c : ClusterConfig) (log : List LogEntry)
    (boundary : Nat) :
    ((latestConfigurationIn log boundary).map Prod.fst).getD c =
      (membership initial).latest c log := by
  induction log using List.reverseRecOn with
  | nil => rfl
  | append_singleton log entry ih =>
      rw [latestConfigurationIn_concat, Rules.latest_append, ← ih]
      cases h : entry.payload <;> simp [Rules.latest, entryConfig, h]

/-- A node finds a configuration in its suffix of the log if there is one. -/
theorem latestConfigurationIn_eq_none {log : List LogEntry} {boundary : Nat} :
    latestConfigurationIn log boundary = none ↔ (membership initial).configs log = [] := by
  rw [Rules.configs, List.filterMap_eq_nil_iff]
  constructor
  · intro h entry hmem
    have hcommand := latestConfigurationIn_none h entry hmem
    cases hpayload : entry.payload with
    | command bytes => simp [entryConfig, hpayload]
    | configuration config => exact absurd hpayload (hcommand config)
  · intro h
    cases hfound : latestConfigurationIn log boundary with
    | none => rfl
    | some found =>
        obtain ⟨term, hmem⟩ := latestConfigurationIn_mem hfound
        cases h _ hmem

/-- The index it computes is the one of the last configuration entry. -/
theorem latestConfigurationIn_index {log : List LogEntry}
    {boundary index : Nat} {config : ClusterConfig}
    (h : latestConfigurationIn log boundary = some (config, index)) :
    boundary < index ∧ index ≤ boundary + log.length ∧
      (membership initial).configs (log.drop (index - boundary)) = [] := by
  induction log using List.reverseRecOn with
  | nil => cases h
  | append_singleton log entry ih =>
      rw [latestConfigurationIn_concat] at h
      cases hentry : entry.payload with
      | configuration found =>
          simp only [hentry, Option.some.injEq, Prod.mk.injEq] at h
          obtain ⟨rfl, rfl⟩ := h
          have hlength : (log ++ [entry]).length = log.length + 1 := by simp
          refine ⟨by omega, by omega, ?_⟩
          rw [List.drop_eq_nil_of_le (by omega)]
          rfl
      | command bytes =>
          simp only [hentry] at h
          obtain ⟨hlow, hhigh, hnone⟩ := ih h
          refine ⟨hlow, ?_, ?_⟩
          · rw [List.length_append]
            omega
          · rw [List.drop_append_of_le_length (by omega),
              Rules.configs_append, hnone]
            simp [Rules.configs, entryConfig, hentry]

/-! ### Terms -/

theorem lastTerm_getLast? (log : List LogEntry) :
    (membership initial).lastTerm log =
      (log.getLast?.map LogEntry.term).getD 0 := rfl

/-- The last term of a log, seen from a suffix of it. -/
theorem lastTerm_drop (log : List LogEntry) (boundary : Nat) :
    (membership initial).lastTerm log =
      ((log.drop boundary).getLast?.map LogEntry.term).getD
        ((membership initial).lastTerm (log.take boundary)) := by
  conv_lhs => rw [← List.take_append_drop boundary log]
  rw [lastTerm_getLast?, lastTerm_getLast?, List.getLast?_append]
  cases h : (log.drop boundary).getLast? <;> simp

theorem lastTerm_take_succ (log : List LogEntry) {index : Nat}
    {entry : LogEntry} (h : log[index]? = some entry) :
    (membership initial).lastTerm (log.take (index + 1)) = entry.term := by
  obtain ⟨hlt, rfl⟩ := List.getElem?_eq_some_iff.mp h
  rw [List.take_succ_eq_append_getElem hlt, Rules.lastTerm_concat]
  rfl

end Kurogane.Sim
