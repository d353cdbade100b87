import Kurogane.Raft.Lockstep
import Kurogane.Raft.Merging

/-!
The log of a follower beside that of a leader. The leader's log is kept whole,
with what the leader has compacted away; a node holds the part above its
boundary. What the follower takes over is then read off the whole log.
-/

namespace Kurogane.Raft

/-- The term of entry `index` of a whole log, the first of which is entry 1. -/
def termIn (whole : List LogEntry) (index : Nat) : Option Nat :=
  if index = 0 then none else whole[index - 1]?.map LogEntry.term

section Whole

variable {whole : List LogEntry}

theorem termIn_isSome (whole : List LogEntry) {index : Nat} (hpos : 0 < index)
    (hle : index ≤ whole.length) :
    ∃ entry, whole[index - 1]? = some entry ∧ termIn whole index = some entry.term := by
  have hlt : index - 1 < whole.length := by omega
  refine ⟨_, List.getElem?_eq_getElem hlt, ?_⟩
  unfold termIn
  rw [if_neg (by omega), List.getElem?_eq_getElem hlt]
  rfl

theorem termIn_append {more : List LogEntry} {index : Nat} (hle : index ≤ whole.length) :
    termIn (whole ++ more) index = termIn whole index := by
  unfold termIn
  split
  · rfl
  · rw [List.getElem?_append_left (by omega)]

end Whole

namespace Node

/-- Up to `index` the log, above the boundary, is that of `whole`. -/
def AgreesTo (node : Node) (whole : List LogEntry) (index : Nat) : Prop :=
  ∀ position, node.snapshot.lastIncludedIndex < position → position ≤ index →
    node.entryAt position = whole[position - 1]?

/-- Log matching: the same term at an index means the same log up to it. -/
def Matches (node : Node) (whole : List LogEntry) : Prop :=
  ∀ index term, node.snapshot.lastIncludedIndex < index →
    node.termAt index = some term → termIn whole index = some term →
    node.AgreesTo whole index

/-- What the snapshot stands for is a prefix of `whole`. -/
structure SnapshotOf (node : Node) (whole : List LogEntry) : Prop where
  within : node.snapshot.lastIncludedIndex ≤ whole.length
  term : 0 < node.snapshot.lastIncludedIndex →
    termIn whole node.snapshot.lastIncludedIndex = some node.snapshot.lastIncludedTerm

/-- The snapshot and the log above it are `whole`. -/
structure Reads (node : Node) (whole : List LogEntry) : Prop
    extends node.SnapshotOf whole where
  log : node.log = whole.drop node.snapshot.lastIncludedIndex

end Node

/-- The message carries a slice of `whole` and the term of the entry before it. -/
structure AppendEntries.SliceOf (request : AppendEntries) (whole : List LogEntry) :
    Prop where
  within : request.prevLogIndex + request.entries.length ≤ whole.length
  prev : 0 < request.prevLogIndex →
    termIn whole request.prevLogIndex = some request.prevLogTerm
  entries : ∀ offset entry, request.entries[offset]? = some entry →
    whole[request.prevLogIndex + offset]? = some entry

namespace Node

variable {node node' : Node} {effects : List Effect} {whole : List LogEntry}
  {sender : NodeId} {request : AppendEntries}

/-! ### What a leader reads and sends -/

theorem Reads.lastLogIndex (h : node.Reads whole) : node.lastLogIndex = whole.length := by
  have hwithin := h.within
  unfold Node.lastLogIndex
  rw [h.log, List.length_drop]
  omega

theorem Reads.entryAt (h : node.Reads whole) {index : Nat}
    (hindex : node.snapshot.lastIncludedIndex < index) :
    node.entryAt index = whole[index - 1]? := by
  unfold Node.entryAt vecIndex
  rw [if_neg (by omega), h.log, List.getElem?_drop]
  congr 1
  omega

theorem Reads.termAt (h : node.Reads whole) {index : Nat} (hpos : 0 < index)
    (hindex : node.snapshot.lastIncludedIndex ≤ index) :
    node.termAt index = termIn whole index := by
  rcases Nat.eq_or_lt_of_le hindex with heq | hlt
  · have hterm := h.term (by omega)
    unfold Node.termAt
    rw [if_neg (by omega), if_pos heq.symm, ← heq, hterm]
  · rw [termAt_above hlt, h.entryAt hlt]
    unfold termIn
    rw [if_neg (by omega)]

/-- What a leader sends is a slice of its whole log, to its end. -/
theorem Reads.sends (h : node.Reads whole) {peer : NodeId}
    (hsend : node.replicateTo peer = some (.send peer (.appendEntries request))) :
    request.SliceOf whole ∧ request.term = node.currentTerm ∧
      request.leaderId = node.id ∧
      node.nextIndex[peer]? = some (request.prevLogIndex + 1) ∧
      node.snapshot.lastIncludedIndex ≤ request.prevLogIndex ∧
      request.prevLogIndex + request.entries.length = whole.length := by
  have hlast := h.lastLogIndex
  have hwithin := h.within
  obtain ⟨next, hnext, hsend⟩ := Option.bind_eq_some_iff.mp hsend
  split at hsend
  · cases hsend
  rename_i hlow
  obtain ⟨entries, hentries, hsend⟩ := Option.bind_eq_some_iff.mp hsend
  cases hsend
  simp only [entriesFrom, Option.ite_none_right_eq_some, Option.some.injEq] at hentries
  obtain ⟨hslice, rfl⟩ := hentries
  have hdrop : node.log.drop (node.vecIndex next) = whole.drop (next - 1) := by
    rw [h.log, List.drop_drop]
    congr 1
    unfold vecIndex
    omega
  have hlength : next - 1 + (node.log.drop (node.vecIndex next)).length = whole.length := by
    unfold vecIndex at hslice
    rw [h.log, List.length_drop] at hslice
    rw [hdrop, List.length_drop]
    omega
  refine ⟨⟨Nat.le_of_eq hlength, ?_, ?_⟩, rfl, rfl, ?_, by dsimp only; omega, hlength⟩
  · intro hpos
    dsimp only at hpos ⊢
    rw [h.termAt hpos (by omega)]
    obtain ⟨entry, -, hterm⟩ := termIn_isSome whole hpos (by omega)
    rw [hterm]
    rfl
  · intro offset entry hentry
    dsimp only at hentry ⊢
    rw [hdrop, List.getElem?_drop] at hentry
    exact hentry
  · rw [hnext]
    congr 1
    dsimp only
    omega

end Node

theorem AppendEntries.SliceOf.extend {request : AppendEntries} {whole : List LogEntry}
    (h : request.SliceOf whole) (more : List LogEntry) : request.SliceOf (whole ++ more) where
  within := by
    have hwithin := h.within
    rw [List.length_append]
    omega
  prev hpos := by
    have hwithin := h.within
    rw [termIn_append (by omega)]
    exact h.prev hpos
  entries offset entry hentry := by
    have hfound := h.entries offset entry hentry
    rw [List.getElem?_append_left (List.getElem?_eq_some_iff.mp hfound).1]
    exact hfound

namespace Node

variable {node node' : Node} {effects : List Effect} {whole : List LogEntry}
  {sender : NodeId} {request : AppendEntries}

/-! ### What a follower takes over -/

theorem AgreesTo.mono {index more : Nat} (h : node.AgreesTo whole more)
    (hle : index ≤ more) : node.AgreesTo whole index :=
  fun position hlow hhigh => h position hlow (hhigh.trans hle)

theorem AgreesTo.congr {index : Nat} (h : node.AgreesTo whole index)
    (hlog : node'.log = node.log) (hsnapshot : node'.snapshot = node.snapshot) :
    node'.AgreesTo whole index := by
  intro position hlow hhigh
  rw [hsnapshot] at hlow
  have hentry : node'.entryAt position = node.entryAt position := by
    unfold entryAt vecIndex
    rw [hlog, hsnapshot]
  rw [hentry]
  exact h position hlow hhigh

theorem Matches.congr (h : node.Matches whole) (hlog : node'.log = node.log)
    (hsnapshot : node'.snapshot = node.snapshot) : node'.Matches whole := by
  intro index term hlow hterm hwhole
  rw [hsnapshot] at hlow
  rw [termAt_congr hlog hsnapshot] at hterm
  exact (h index term hlow hterm hwhole).congr hlog hsnapshot

/-- A log that ends where it agrees matches. -/
theorem AgreesTo.matches {index : Nat} (h : node.AgreesTo whole index)
    (hend : node.lastLogIndex ≤ index) : node.Matches whole := by
  intro position term _ hterm _
  exact h.mono ((termAt_le_lastLogIndex hterm).trans hend)

/-- Where the log holds an entry of the whole log, it agrees up to it. -/
theorem Matches.of_held (h : node.Matches whole) {index : Nat} {entry : LogEntry}
    (hpos : 0 < index) (hheld : node.Holds index entry)
    (hwhole : whole[index - 1]? = some entry) : node.AgreesTo whole index := by
  by_cases hlow : index ≤ node.snapshot.lastIncludedIndex
  · intro position hlow' hhigh
    omega
  · rcases hheld with hle | hterm
    · exact absurd hle hlow
    · refine h index entry.term (Nat.not_le.mp hlow) hterm ?_
      unfold termIn
      rw [if_neg (by omega), hwhole]
      rfl

/-- The entry before an accepted message is one of the whole log. -/
theorem Matches.of_prev (h : node.Matches whole) (hslice : request.SliceOf whole)
    (hprev : node.prevLogSatisfied request = true) :
    node.AgreesTo whole request.prevLogIndex := by
  by_cases hlow : request.prevLogIndex ≤ node.snapshot.lastIncludedIndex
  · intro position hlow' hhigh
    omega
  · unfold prevLogSatisfied at hprev
    simp only [hlow, decide_false, Bool.false_or, decide_eq_true_eq] at hprev
    exact h _ _ (Nat.not_le.mp hlow) hprev (hslice.prev (by omega))

/-- Taking over a slice of the whole log extends what agrees to its end, and
leaves what agreed before. -/
theorem Matches.adopt (h : node.Matches whole) (hslice : request.SliceOf whole)
    (hprev : node.prevLogSatisfied request = true) :
    (node.adopt (node.firstNew (request.prevLogIndex + 1) request.entries)).Matches whole ∧
      (node.adopt (node.firstNew (request.prevLogIndex + 1) request.entries)).AgreesTo
        whole (request.prevLogIndex + request.entries.length) ∧
      ∀ index, node.AgreesTo whole index → index ≤ whole.length →
        (node.adopt (node.firstNew (request.prevLogIndex + 1) request.entries)).AgreesTo
          whole index := by
  have hbefore := h.of_prev hslice hprev
  have hindex : request.prevLogIndex + 1 ≤ node.lastLogIndex + 1 :=
    Nat.succ_le_succ (prevLogSatisfied_le hprev)
  -- Up to the last entry that is held, the log agrees.
  have hheld : ∀ count, count ≤ request.entries.length →
      (∀ fromIndex rest,
        node.firstNew (request.prevLogIndex + 1) request.entries = some (fromIndex, rest) →
        request.prevLogIndex + count < fromIndex) →
      node.AgreesTo whole (request.prevLogIndex + count) := by
    intro count hcount hfirst
    cases count with
    | zero => exact hbefore
    | succ offset =>
        have hget : request.entries[offset]? = some request.entries[offset] :=
          List.getElem?_eq_getElem hcount
        have hholds := firstNew_held offset _ hget (fun fromIndex rest hfound => by
          have := hfirst fromIndex rest hfound
          omega)
        rw [show request.prevLogIndex + 1 + offset = request.prevLogIndex + (offset + 1) by
          omega] at hholds
        exact h.of_held (by omega) hholds (hslice.entries offset _ hget)
  cases hnew : node.firstNew (request.prevLogIndex + 1) request.entries with
  | none =>
      refine ⟨h, ?_, fun index hagrees _ => hagrees⟩
      apply hheld _ le_rfl
      rw [hnew]
      nofun
  | some found =>
      obtain ⟨fromIndex, rest⟩ := found
      obtain ⟨hlow, hle, hhigh, hsplit, hlength⟩ := firstNew_range hindex hnew
      obtain ⟨entry, tail, rfl, hnot⟩ := firstNew_new hnew
      have hkept : node.AgreesTo whole (fromIndex - 1) := by
        have hcount := hheld (fromIndex - 1 - request.prevLogIndex)
          (by rw [List.length_cons] at hlength; omega) (by
            rw [hnew]
            rintro _ _ ⟨⟩
            omega)
        rw [show request.prevLogIndex + (fromIndex - 1 - request.prevLogIndex) =
          fromIndex - 1 by omega] at hcount
        exact hcount
      have hrest : ∀ offset, offset < (entry :: tail).length →
          (entry :: tail)[offset]? = whole[fromIndex - 1 + offset]? := by
        intro offset hoffset
        have htake : (request.entries.take (fromIndex - (request.prevLogIndex + 1))).length =
            fromIndex - (request.prevLogIndex + 1) := by
          apply List.length_take_of_le
          rw [List.length_cons] at hlength
          omega
        have hsame : request.entries[fromIndex - (request.prevLogIndex + 1) + offset]? =
            (entry :: tail)[offset]? := by
          rw [hsplit, List.getElem?_append_right (by omega), htake]
          congr 1
          omega
        rw [← hsame]
        have hin : fromIndex - (request.prevLogIndex + 1) + offset <
            request.entries.length := by omega
        rw [List.getElem?_eq_getElem hin,
          show fromIndex - 1 + offset = request.prevLogIndex +
            (fromIndex - (request.prevLogIndex + 1) + offset) by omega]
        exact (hslice.entries _ _ (List.getElem?_eq_getElem hin)).symm
      have hagrees : (node.adopt (some (fromIndex, entry :: tail))).AgreesTo whole
          (request.prevLogIndex + request.entries.length) := by
        intro position hposition hend
        rw [adopt_snapshot] at hposition
        rw [adopt_entryAt hlow hhigh hposition]
        split
        · exact hkept position hposition (by omega)
        · rw [hrest _ (by omega)]
          congr 1
          omega
      have hend : (node.adopt (some (fromIndex, entry :: tail))).lastLogIndex ≤
          request.prevLogIndex + request.entries.length := by
        have hlog : (node.adopt (some (fromIndex, entry :: tail))).log =
            node.log.take (node.vecIndex fromIndex) ++ (entry :: tail) := rfl
        unfold Node.lastLogIndex vecIndex at *
        rw [hlog, adopt_snapshot, List.length_append, List.length_take]
        omega
      refine ⟨hagrees.matches hend, hagrees, fun index hold hwithin => ?_⟩
      -- Where the log agreed, nothing was new.
      have hbelow : index < fromIndex := by
        by_contra hge
        obtain ⟨own, hown, -⟩ := termIn_isSome whole
          (Nat.lt_of_le_of_lt (Nat.zero_le _) hlow) (by omega)
        have hfirst := hrest 0 (by simp)
        rw [Nat.add_zero, hown] at hfirst
        cases hfirst
        apply hnot
        right
        rw [termAt_above hlow, hold fromIndex hlow (Nat.not_lt.mp hge), hown]
        rfl
      intro position hposition hle'
      rw [adopt_snapshot] at hposition
      rw [adopt_entryAt hlow hhigh hposition, if_pos (by omega)]
      exact hold position hposition hle'

/-- A message whose predecessor is held is taken over and answered with the index
it ends at. -/
theorem Matches.onAppendEntries (h : node.Matches whole) (hslice : request.SliceOf whole)
    (sender : NodeId) (hcurrent : node.currentTerm ≤ request.term)
    (hprev : node.prevLogSatisfied request = true) :
    ∃ node' persists, node.onAppendEntries sender request = some (node', persists ++
        [.send sender (.appendEntriesResponse
          ⟨request.term, true, request.prevLogIndex + request.entries.length⟩)]) ∧
      node'.Matches whole ∧
      node'.AgreesTo whole (request.prevLogIndex + request.entries.length) ∧
      (∀ index, node.AgreesTo whole index → index ≤ whole.length →
        node'.AgreesTo whole index) ∧
      node'.snapshot = node.snapshot ∧ node'.currentTerm = request.term := by
  obtain ⟨hlog, hsnapshot, -⟩ := node.followLeader_log request.term
  have hterm := node.followLeader_term hcurrent
  have hprev' : (node.followLeader request.term).1.prevLogSatisfied request = true :=
    (prevLogSatisfied_congr hlog hsnapshot).trans hprev
  obtain ⟨hadopted, hagrees, hkept⟩ := (h.congr hlog hsnapshot).adopt hslice hprev'
  rw [firstNew_congr hlog hsnapshot] at hadopted hagrees hkept
  rw [onAppendEntries_accepts hcurrent hprev]
  generalize node.firstNew (request.prevLogIndex + 1) request.entries = found at *
  have hlog' := ((node.followLeader request.term).1.adopt found).followCommit_log
    request.leaderCommit
  have hsnapshot' := ((node.followLeader request.term).1.adopt found).followCommit_snapshot
    request.leaderCommit
  refine ⟨_, (node.followLeader request.term).2 ++ adoptEffects found, ?_,
    hadopted.congr hlog' hsnapshot', hagrees.congr hlog' hsnapshot',
    fun index hold hle => (hkept index (hold.congr hlog hsnapshot) hle).congr hlog'
      hsnapshot', ?_, ?_⟩
  · rw [appendReply, adopt_currentTerm, hterm, List.append_assoc]
  · rw [hsnapshot', adopt_snapshot, hsnapshot]
  · rw [followCommit_currentTerm, adopt_currentTerm, hterm]

end Node

end Kurogane.Raft
