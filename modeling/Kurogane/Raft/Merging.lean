import Kurogane.Raft.CommitRule

/-!
The merge loop of `on_append_entries` in closed form. It passes over what lies
below the boundary and what the log holds already, up to the first entry that
is new; from there on the message replaces the log.
-/

namespace Kurogane.Raft.Node

variable {node node' : Node}

/-- The first of `entries` that the node does not hold, with its index and all
that follows. The first of `entries` has absolute index `index`. -/
def firstNew (node : Node) : Nat → List LogEntry → Option (Nat × List LogEntry)
  | _, [] => none
  | index, entry :: rest =>
      if index ≤ node.snapshot.lastIncludedIndex ∨
          node.termAt index = some entry.term then
        node.firstNew (index + 1) rest
      else some (index, entry :: rest)

theorem termAt_congr (hlog : node'.log = node.log)
    (hsnapshot : node'.snapshot = node.snapshot) (index : Nat) :
    node'.termAt index = node.termAt index := by
  unfold termAt entryAt vecIndex
  rw [hlog, hsnapshot]

theorem firstNew_congr (hlog : node'.log = node.log)
    (hsnapshot : node'.snapshot = node.snapshot) (entries : List LogEntry) (index : Nat) :
    node'.firstNew index entries = node.firstNew index entries := by
  induction entries generalizing index with
  | nil => rfl
  | cons entry rest ih =>
      unfold firstNew
      rw [termAt_congr hlog hsnapshot, hsnapshot, ih]

theorem termAt_beyond {index : Nat} (hindex : node.lastLogIndex < index) :
    node.termAt index = none := by
  cases hterm : node.termAt index with
  | none => rfl
  | some term => exact absurd (termAt_le_lastLogIndex hterm) (Nat.not_le.mpr hindex)

/-- Beyond the end of the log the loop appends. -/
theorem mergeEntries_beyond (entries : List LogEntry) :
    ∀ (node : Node) (fromIndex : Nat),
      node.mergeEntries (some fromIndex) (node.lastLogIndex + 1) entries =
        ({ node with log := node.log ++ entries }, some fromIndex) := by
  induction entries with
  | nil =>
      intro node fromIndex
      rw [mergeEntries, List.append_nil]
  | cons entry rest ih =>
      intro node fromIndex
      have hpush : (node.push entry).lastLogIndex = node.lastLogIndex + 1 := by
        simp [lastLogIndex, push, Nat.add_assoc]
      have hlow : ¬ node.lastLogIndex + 1 ≤ node.snapshot.lastIncludedIndex := by
        unfold lastLogIndex
        omega
      have hrest := ih (node.push entry) fromIndex
      rw [hpush] at hrest
      rw [mergeEntries, if_neg hlow, termAt_beyond (Nat.lt_succ_self _)]
      simp only [Option.getD_some]
      rw [hrest]
      simp only [push, List.append_assoc, List.singleton_append]

/-- The loop replaces the log from the first new entry on. -/
theorem mergeEntries_eq {entries : List LogEntry} {index : Nat}
    (hindex : index ≤ node.lastLogIndex + 1) :
    node.mergeEntries none index entries =
      match node.firstNew index entries with
      | none => (node, none)
      | some (fromIndex, rest) =>
          ({ node with log := node.log.take (node.vecIndex fromIndex) ++ rest },
            some fromIndex) := by
  induction entries generalizing index with
  | nil => rfl
  | cons entry rest ih =>
      rw [mergeEntries, firstNew]
      by_cases hlow : index ≤ node.snapshot.lastIncludedIndex
      · rw [if_pos hlow, if_pos (Or.inl hlow)]
        apply ih
        unfold lastLogIndex
        omega
      rw [if_neg hlow]
      have hvec : node.vecIndex index ≤ node.log.length := by
        unfold lastLogIndex at hindex
        unfold vecIndex
        omega
      -- The log is cut off at `index`, which for a missing entry is its end.
      have hwritten : ∀ base : Node,
          base = { node with log := node.log.take (node.vecIndex index) ++ [entry] } →
          base.mergeEntries (some index) (index + 1) rest =
            ({ node with log := node.log.take (node.vecIndex index) ++ entry :: rest },
              some index) := by
        rintro base rfl
        have hlast : index + 1 = ({ node with
            log := node.log.take (node.vecIndex index) ++ [entry] } : Node).lastLogIndex + 1 := by
          simp only [lastLogIndex, List.length_append, List.length_take,
            List.length_singleton, Nat.min_eq_left hvec]
          unfold vecIndex
          omega
        rw [hlast, mergeEntries_beyond]
        simp only [List.append_assoc, List.singleton_append]
      cases hterm : node.termAt index with
      | none =>
          rw [if_neg (by simp [hlow])]
          apply hwritten
          have hend : node.log[node.vecIndex index]? = none := by
            rw [termAt_above (Nat.not_le.mp hlow), entryAt, if_neg (by omega)] at hterm
            exact Option.map_eq_none_iff.mp hterm
          rw [List.take_of_length_le (List.getElem?_eq_none_iff.mp hend)]
          rfl
      | some existing =>
          by_cases hsame : existing = entry.term
          · rw [if_pos (Or.inr (by rw [hsame]))]
            simp only [hsame, if_true]
            apply ih
            exact Nat.succ_le_succ (termAt_le_lastLogIndex hterm)
          · rw [if_neg (by simp [hlow, hsame])]
            simp only [hsame, if_false]
            exact hwritten _ rfl

/-! ### The handler -/

/-- Takes over what is new in a message. -/
def adopt (node : Node) : Option (Nat × List LogEntry) → Node
  | none => node
  | some (fromIndex, rest) =>
      { node with
        log := node.log.take (node.vecIndex fromIndex) ++ rest }.recomputeConfig

@[simp] theorem adopt_snapshot (node : Node) (found : Option (Nat × List LogEntry)) :
    (node.adopt found).snapshot = node.snapshot := by
  cases found <;> rfl

@[simp] theorem adopt_snapshotConfig (node : Node)
    (found : Option (Nat × List LogEntry)) :
    (node.adopt found).snapshotConfig = node.snapshotConfig := by
  cases found <;> rfl

@[simp] theorem adopt_commitIndex (node : Node) (found : Option (Nat × List LogEntry)) :
    (node.adopt found).commitIndex = node.commitIndex := by
  cases found <;> rfl

@[simp] theorem adopt_currentTerm (node : Node) (found : Option (Nat × List LogEntry)) :
    (node.adopt found).currentTerm = node.currentTerm := by
  cases found <;> rfl

/-- The splice that makes it durable. -/
def adoptEffects : Option (Nat × List LogEntry) → List Effect
  | none => []
  | some (fromIndex, rest) => [.persistLog fromIndex rest]

theorem firstNew_range {entries : List LogEntry} {index fromIndex : Nat}
    {rest : List LogEntry} (hindex : index ≤ node.lastLogIndex + 1)
    (h : node.firstNew index entries = some (fromIndex, rest)) :
    node.snapshot.lastIncludedIndex < fromIndex ∧ index ≤ fromIndex ∧
      fromIndex ≤ node.lastLogIndex + 1 ∧
      entries = entries.take (fromIndex - index) ++ rest ∧
      fromIndex + rest.length = index + entries.length := by
  induction entries generalizing index with
  | nil => cases h
  | cons entry tail ih =>
      rw [firstNew] at h
      split at h
      · rename_i hheld
        have hnext : index + 1 ≤ node.lastLogIndex + 1 := by
          rcases hheld with hlow | hterm
          · unfold lastLogIndex
            omega
          · exact Nat.succ_le_succ (termAt_le_lastLogIndex hterm)
        obtain ⟨hlow, hle, hhigh, hsplit, hlength⟩ := ih hnext h
        refine ⟨hlow, by omega, hhigh, ?_, ?_⟩
        · rw [show fromIndex - index = (fromIndex - (index + 1)) + 1 by omega,
            List.take_succ_cons, List.cons_append, ← hsplit]
        · rw [List.length_cons]
          omega
      · rename_i hnew
        cases h
        refine ⟨?_, Nat.le_refl _, hindex, ?_, rfl⟩
        · exact Nat.not_le.mp (fun hlow => hnew (Or.inl hlow))
        · rw [Nat.sub_self, List.take_zero, List.nil_append]

/-- The node does not need `entry` at `index`: it lies behind the boundary, or the
log holds one of its term there. -/
def Holds (node : Node) (index : Nat) (entry : LogEntry) : Prop :=
  index ≤ node.snapshot.lastIncludedIndex ∨ node.termAt index = some entry.term

/-- All before the first new entry is held. -/
theorem firstNew_held {entries : List LogEntry} {index : Nat} :
    ∀ offset entry, entries[offset]? = some entry →
      (∀ fromIndex rest, node.firstNew index entries = some (fromIndex, rest) →
        index + offset < fromIndex) → node.Holds (index + offset) entry := by
  induction entries generalizing index with
  | nil =>
      intro offset entry hentry
      cases hentry
  | cons first tail ih =>
      intro offset entry hentry hbefore
      unfold firstNew at hbefore
      by_cases hheld : index ≤ node.snapshot.lastIncludedIndex ∨
          node.termAt index = some first.term
      · rw [if_pos hheld] at hbefore
        cases offset with
        | zero =>
            cases hentry
            exact hheld
        | succ offset =>
            have hlater := ih offset entry hentry (fun fromIndex rest hfound => by
              have := hbefore fromIndex rest hfound
              omega)
            rw [show index + (offset + 1) = index + 1 + offset by omega]
            exact hlater
      · rw [if_neg hheld] at hbefore
        have := hbefore index _ rfl
        omega

/-- The first new entry is not held. -/
theorem firstNew_new {entries : List LogEntry} {index fromIndex : Nat}
    {rest : List LogEntry} (h : node.firstNew index entries = some (fromIndex, rest)) :
    ∃ entry tail, rest = entry :: tail ∧ ¬ node.Holds fromIndex entry := by
  induction entries generalizing index with
  | nil => cases h
  | cons first tail ih =>
      unfold firstNew at h
      split at h
      · exact ih h
      · rename_i hnew
        cases h
        exact ⟨first, tail, rfl, hnew⟩

/-- Below the first new entry the log stays, from it on it is the message's. -/
theorem adopt_entryAt {fromIndex : Nat} {rest : List LogEntry}
    (hlow : node.snapshot.lastIncludedIndex < fromIndex)
    (hhigh : fromIndex ≤ node.lastLogIndex + 1) {index : Nat}
    (hindex : node.snapshot.lastIncludedIndex < index) :
    (node.adopt (some (fromIndex, rest))).entryAt index =
      if index < fromIndex then node.entryAt index else rest[index - fromIndex]? := by
  have hlength : (node.log.take (node.vecIndex fromIndex)).length =
      node.vecIndex fromIndex := by
    apply List.length_take_of_le
    unfold lastLogIndex at hhigh
    unfold vecIndex
    omega
  have hlog : (node.adopt (some (fromIndex, rest))).log =
      node.log.take (node.vecIndex fromIndex) ++ rest := rfl
  have hvec : (node.adopt (some (fromIndex, rest))).vecIndex index = node.vecIndex index :=
    rfl
  unfold entryAt
  rw [adopt_snapshot, if_neg (by omega), hlog, hvec]
  split
  · have hbefore : node.vecIndex index < node.vecIndex fromIndex := by
      unfold vecIndex
      omega
    rw [List.getElem?_append_left (by omega), List.getElem?_take_of_lt hbefore,
      if_neg (by omega)]
  · have hafter : node.vecIndex fromIndex ≤ node.vecIndex index := by
      unfold vecIndex
      omega
    rw [List.getElem?_append_right (by omega), hlength]
    congr 1
    unfold vecIndex
    omega

theorem followLeader_log (node : Node) (term : Nat) :
    (node.followLeader term).1.log = node.log ∧
      (node.followLeader term).1.snapshot = node.snapshot ∧
      (node.followLeader term).1.snapshotConfig = node.snapshotConfig ∧
      (node.followLeader term).1.learners = node.learners ∧
      (node.followLeader term).1.commitIndex = node.commitIndex ∧
      (node.followLeader term).1.id = node.id := by
  unfold followLeader
  dsimp only
  split
  · exact ⟨rfl, rfl, rfl, rfl, rfl, rfl⟩
  split <;> exact ⟨rfl, rfl, rfl, rfl, rfl, rfl⟩

theorem prevLogSatisfied_congr {request : AppendEntries} (hlog : node'.log = node.log)
    (hsnapshot : node'.snapshot = node.snapshot) :
    node'.prevLogSatisfied request = node.prevLogSatisfied request := by
  unfold prevLogSatisfied
  rw [termAt_congr hlog hsnapshot, hsnapshot]

/-- The splice of a message that is taken over is what the log holds from the
first new entry on. -/
theorem adopt_persists {fromIndex leaderCommit : Nat} {rest : List LogEntry}
    (hslice : node.vecIndex fromIndex ≤ node.log.length) :
    ((node.adopt (some (fromIndex, rest))).followCommit leaderCommit).persistChanged
        (some fromIndex) = some [.persistLog fromIndex rest] := by
  have hentries : ((node.adopt (some (fromIndex, rest))).followCommit
      leaderCommit).entriesFrom fromIndex = some rest := by
    have hvec : ((node.adopt (some (fromIndex, rest))).followCommit
        leaderCommit).vecIndex fromIndex = node.vecIndex fromIndex := by
      apply vecIndex_congr
      unfold followCommit
      split <;> rfl
    have hlog : ((node.adopt (some (fromIndex, rest))).followCommit leaderCommit).log =
        node.log.take (node.vecIndex fromIndex) ++ rest := by
      unfold followCommit
      split <;> rfl
    have hlength : (node.log.take (node.vecIndex fromIndex)).length =
        node.vecIndex fromIndex := List.length_take_of_le hslice
    unfold entriesFrom
    rw [hvec, hlog, if_pos (by rw [List.length_append, hlength]; omega),
      List.drop_left' hlength]
  simp only [persistChanged, hentries, Option.bind_eq_bind, Option.bind_some]

theorem appendReply_congr {sender : NodeId} {success : Bool} {count : Nat}
    (hterm : node'.currentTerm = node.currentTerm) :
    node'.appendReply sender success count = node.appendReply sender success count := by
  unfold appendReply
  rw [hterm]

theorem followCommit_currentTerm (node : Node) (leaderCommit : Nat) :
    (node.followCommit leaderCommit).currentTerm = node.currentTerm := by
  unfold followCommit
  split <;> rfl

variable {sender : NodeId} {request : AppendEntries}

theorem onAppendEntries_stale (hterm : request.term < node.currentTerm) :
    node.onAppendEntries sender request =
      some (node, [node.rejectAppendEntries sender]) := by
  unfold onAppendEntries
  rw [if_pos hterm]

theorem onAppendEntries_rejects (hterm : node.currentTerm ≤ request.term)
    (hprev : node.prevLogSatisfied request = false) :
    node.onAppendEntries sender request =
      some ((node.followLeader request.term).1, (node.followLeader request.term).2 ++
        [(node.followLeader request.term).1.rejectAppendEntries sender]) := by
  obtain ⟨hlog, hsnapshot, -⟩ := node.followLeader_log request.term
  unfold onAppendEntries
  rw [if_neg (Nat.not_lt.mpr hterm)]
  dsimp only
  rw [prevLogSatisfied_congr hlog hsnapshot, hprev]
  rfl

/-- Once the entry before the message is known to match, the node takes over
what is new and follows the leader's commit index. -/
theorem onAppendEntries_accepts (hterm : node.currentTerm ≤ request.term)
    (hprev : node.prevLogSatisfied request = true) :
    node.onAppendEntries sender request =
      some ((((node.followLeader request.term).1.adopt
          (node.firstNew (request.prevLogIndex + 1) request.entries)).followCommit
            request.leaderCommit),
        (node.followLeader request.term).2 ++
          adoptEffects (node.firstNew (request.prevLogIndex + 1) request.entries) ++
          [((node.followLeader request.term).1.adopt
            (node.firstNew (request.prevLogIndex + 1) request.entries)).appendReply
              sender true (request.prevLogIndex + request.entries.length)]) := by
  obtain ⟨hlog, hsnapshot, -⟩ := node.followLeader_log request.term
  have hindex : request.prevLogIndex + 1 ≤ node.lastLogIndex + 1 :=
    Nat.succ_le_succ (prevLogSatisfied_le hprev)
  have hindex' : request.prevLogIndex + 1 ≤
      (node.followLeader request.term).1.lastLogIndex + 1 := by
    unfold lastLogIndex at hindex ⊢
    rw [hlog, hsnapshot]
    exact hindex
  unfold onAppendEntries
  rw [if_neg (Nat.not_lt.mpr hterm)]
  dsimp only
  rw [prevLogSatisfied_congr hlog hsnapshot, hprev, mergeEntries_eq hindex',
    firstNew_congr hlog hsnapshot]
  cases hnew : node.firstNew (request.prevLogIndex + 1) request.entries with
  | none =>
      rw [appendReply_congr (followCommit_currentTerm _ _)]
      simp [persistChanged, adopt, adoptEffects]
  | some found =>
      obtain ⟨fromIndex, rest⟩ := found
      have hhigh := (firstNew_range hindex hnew).2.2.1
      have hpersist : (((node.followLeader request.term).1.adopt
          (some (fromIndex, rest))).followCommit request.leaderCommit).persistChanged
            (some fromIndex) = some [.persistLog fromIndex rest] := by
        apply adopt_persists
        unfold vecIndex
        unfold lastLogIndex at hhigh
        rw [hlog, hsnapshot]
        omega
      have hreply : (((node.followLeader request.term).1.adopt
          (some (fromIndex, rest))).followCommit request.leaderCommit).appendReply sender true
            (request.prevLogIndex + request.entries.length) =
          ((node.followLeader request.term).1.adopt (some (fromIndex, rest))).appendReply
            sender true (request.prevLogIndex + request.entries.length) :=
        appendReply_congr (followCommit_currentTerm _ _)
      unfold adopt at hpersist hreply ⊢
      simp only [Option.isSome_some, if_true] at hpersist hreply ⊢
      rw [hpersist, hreply]
      simp [adoptEffects]

end Kurogane.Raft.Node
