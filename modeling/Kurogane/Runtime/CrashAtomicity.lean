import Kurogane.Runtime.Mirroring

/-!
Crashes inside a batch of effects. Each effect is flushed by itself, so a
crash may leave any prefix of a batch behind. Most batches move the log once
or append to it twice, and every prefix of those can be read back. The
exception is a new snapshot: between it and the splice that follows, the
entries of the old log are read against the new boundary.
-/

namespace Kurogane.Raft

/-- Whether an effect changes where the entries of the log are read. -/
def Effect.movesLog : Effect → Bool
  | .persistLog _ _ | .persistSnapshot _ _ _ _ => true
  | _ => false

/-- The effects leave the log alone. -/
def Still (effects : List Effect) : Prop :=
  ∀ effect ∈ effects, effect.movesLog = false

/-- At most one of the effects moves the log. -/
def MovesOnce (effects : List Effect) : Prop :=
  effects.countP Effect.movesLog ≤ 1

namespace Durable

/-- The entry a node recovered from `durable` holds at `index`. -/
def entryAt (durable : Durable) (index : Nat) : Option LogEntry :=
  if index ≤ durable.boundary then none
  else durable.log[index - durable.boundary - 1]?

theorem entryAt_congr {durable durable' : Durable}
    (hlog : durable.log = durable'.log)
    (hboundary : durable.boundary = durable'.boundary) (index : Nat) :
    durable.entryAt index = durable'.entryAt index := by
  rw [entryAt, entryAt, hlog, hboundary]

theorem entryAt_of_prefix {durable durable' : Durable}
    (hlog : durable.log <+: durable'.log)
    (hboundary : durable.boundary = durable'.boundary) {index : Nat}
    {entry : LogEntry} (h : durable.entryAt index = some entry) :
    durable'.entryAt index = some entry := by
  rw [entryAt, hboundary] at h
  rw [entryAt]
  split at h
  · cases h
  · rename_i habove
    rw [if_neg habove]
    obtain ⟨hlt, rfl⟩ := List.getElem?_eq_some_iff.mp h
    obtain ⟨rest, hrest⟩ := hlog
    rw [← hrest, List.getElem?_append_left hlt, List.getElem?_eq_getElem hlt]

theorem recordAll_still {effects : List Effect} (hstill : Still effects) :
    ∀ {durable durable' : Durable},
      durable.recordAll effects = some durable' →
        durable'.log = durable.log ∧ durable'.boundary = durable.boundary := by
  induction effects with
  | nil =>
      intro durable durable' h
      cases h
      exact ⟨rfl, rfl⟩
  | cons effect rest ih =>
      intro durable durable' h
      obtain ⟨heffect, hrest⟩ := List.forall_mem_cons.mp hstill
      obtain ⟨next, hnext, h⟩ := Option.bind_eq_some_iff.mp h
      obtain ⟨hlog, hboundary⟩ := ih hrest h
      have hsame : next.log = durable.log ∧
          next.boundary = durable.boundary := by
        cases effect with
        | persistLog fromIndex entries => cases heffect
        | persistSnapshot index term data config => cases heffect
        | send receiver message =>
            cases hnext
            exact ⟨rfl, rfl⟩
        | persistHardState term votedFor =>
            cases hnext
            exact ⟨rfl, rfl⟩
        | persistLearners learners =>
            cases hnext
            exact ⟨rfl, rfl⟩
      exact ⟨hlog.trans hsame.1, hboundary.trans hsame.2⟩

/-- A batch that moves the log once leaves the log before it or after it. -/
theorem recordAll_take_once {durable durable' partly : Durable}
    {effects : List Effect} (honce : MovesOnce effects)
    (hall : durable.recordAll effects = some durable') {written : Nat}
    (hpart : durable.recordAll (effects.take written) = some partly) :
    (partly.log = durable.log ∧ partly.boundary = durable.boundary) ∨
      (partly.log = durable'.log ∧ partly.boundary = durable'.boundary) := by
  have hcount : (effects.take written).countP Effect.movesLog +
      (effects.drop written).countP Effect.movesLog ≤ 1 := by
    rw [← List.countP_append, List.take_append_drop]
    exact honce
  rcases Nat.eq_zero_or_pos ((effects.take written).countP Effect.movesLog)
    with hzero | hpos
  · have hstill : Still (effects.take written) := by
      intro effect hmem
      simpa using List.countP_eq_zero.mp hzero effect hmem
    exact Or.inl (recordAll_still hstill hpart)
  · have hstill : Still (effects.drop written) := by
      intro effect hmem
      simpa using List.countP_eq_zero.mp (by omega) effect hmem
    rw [← List.take_append_drop written effects, recordAll_append, hpart]
      at hall
    obtain ⟨hlog, hboundary⟩ := recordAll_still hstill hall
    exact Or.inr ⟨hlog.symm, hboundary.symm⟩

end Durable

theorem still_of_sends {effects : List Effect}
    (h : ∀ effect ∈ effects, effect.isSend = true) : Still effects := by
  intro effect hmem
  have hsend := h effect hmem
  cases effect <;> first | rfl | cases hsend

theorem Still.once {effects : List Effect} (h : Still effects) :
    MovesOnce effects := by
  have hzero : effects.countP Effect.movesLog = 0 :=
    List.countP_eq_zero.mpr (fun effect hmem => by simp [h effect hmem])
  exact hzero.le.trans (Nat.zero_le 1)

theorem MovesOnce.append_still {first second : List Effect}
    (h : MovesOnce first) (hstill : Still second) :
    MovesOnce (first ++ second) := by
  have hzero : second.countP Effect.movesLog = 0 :=
    List.countP_eq_zero.mpr (fun effect hmem => by simp [hstill effect hmem])
  rw [MovesOnce, List.countP_append, hzero]
  exact h

theorem Still.append_once {first second : List Effect}
    (hstill : Still first) (h : MovesOnce second) :
    MovesOnce (first ++ second) := by
  have hzero : first.countP Effect.movesLog = 0 :=
    List.countP_eq_zero.mpr (fun effect hmem => by simp [hstill effect hmem])
  rw [MovesOnce, List.countP_append, hzero, Nat.zero_add]
  exact h

theorem Still.append {first second : List Effect} (h : Still first)
    (h' : Still second) : Still (first ++ second) :=
  List.forall_mem_append.mpr ⟨h, h'⟩

namespace Node

variable {node node' : Node} {effects : List Effect}

/-! ### Batches that move the log once -/

theorem onTick_still {nextTimeout : Nat}
    (h : node.onTick nextTimeout = some (node', effects)) : Still effects := by
  unfold onTick at h
  split at h
  · unfold onLeaderTick at h
    dsimp only at h
    split at h
    · cases h
      simp [Still]
    · obtain ⟨sends, hsends, h⟩ := Option.bind_eq_some_iff.mp h
      cases h
      exact still_of_sends (broadcastReplication_sends hsends)
  · dsimp only at h
    split at h
    · cases h
      simp [Still]
    · unfold startElection at h
      split at h
      · cases h
        simp [Still]
      · dsimp only at h
        split at h
        · obtain ⟨⟨leader, sends⟩, hleader, h⟩ := Option.bind_eq_some_iff.mp h
          obtain ⟨_, hsends, hleader⟩ := Option.bind_eq_some_iff.mp hleader
          cases hleader
          cases h
          exact List.forall_mem_cons.mpr
            ⟨rfl, still_of_sends (broadcastReplication_sends hsends)⟩
        · cases h
          exact List.forall_mem_cons.mpr
            ⟨rfl, still_of_sends (requestVotes_sends _)⟩

theorem onRequestVote_still {sender : NodeId} {request : RequestVote}
    (h : node.onRequestVote sender request = some (node', effects)) :
    Still effects := by
  have hreply : ∀ (n : Node) (granted : Bool),
      Still [n.voteReply sender granted] := by
    simp [Still, voteReply, Effect.movesLog]
  have hpersist : ∀ (due : Bool) (n : Node),
      Still (if due then [n.persistHardState] else []) := by
    intro due n
    cases due <;> simp [Still, persistHardState, Effect.movesLog]
  unfold onRequestVote at h
  split at h
  · cases h
    exact hreply _ _
  split at h
  · cases h
    exact hreply _ _
  split at h
  · cases h
    exact hreply _ _
  dsimp only at h
  cases h
  exact (hpersist _ _).append (hreply _ _)

theorem onRequestVoteResponse_still {sender : NodeId}
    {response : RequestVoteResponse}
    (h : node.onRequestVoteResponse sender response = some (node', effects)) :
    Still effects := by
  unfold onRequestVoteResponse at h
  split at h
  · cases h
    simp [Still, persistHardState, Effect.movesLog]
  split at h
  · cases h
    simp [Still]
  split at h
  · dsimp only at h
    split at h
    · obtain ⟨_, hsends, h⟩ := Option.bind_eq_some_iff.mp h
      cases h
      exact still_of_sends (broadcastReplication_sends hsends)
    · cases h
      simp [Still]
  · cases h
    simp [Still]

theorem followLeader_still (node : Node) (term : Nat) :
    Still (node.followLeader term).2 := by
  unfold followLeader
  dsimp only
  split <;> simp [Still, persistHardState, Effect.movesLog]

theorem persistChanged_once {changed : Option Nat}
    (h : node.persistChanged changed = some effects) : MovesOnce effects := by
  cases changed with
  | none =>
      cases h
      exact Nat.zero_le 1
  | some fromIndex =>
      obtain ⟨entries, -, h⟩ := Option.bind_eq_some_iff.mp h
      cases h
      exact le_rfl

theorem onAppendEntries_once {sender : NodeId} {request : AppendEntries}
    (h : node.onAppendEntries sender request = some (node', effects)) :
    MovesOnce effects := by
  have hreply : ∀ (n : Node) (success : Bool) (matchIndex : Nat),
      Still [n.appendReply sender success matchIndex] := by
    simp [Still, appendReply, Effect.movesLog]
  unfold onAppendEntries at h
  split at h
  · cases h
    exact (hreply _ _ _).once
  have hfollow := node.followLeader_still request.term
  generalize node.followLeader request.term = followed at *
  obtain ⟨follower, persistTerm⟩ := followed
  dsimp only at h hfollow
  split at h
  · cases h
    exact (hfollow.append (hreply _ _ _)).once
  obtain ⟨persistLog, hpersist, h⟩ := Option.bind_eq_some_iff.mp h
  cases h
  exact (hfollow.append_once (persistChanged_once hpersist)).append_still
    (hreply _ _ _)

theorem advanceCommitIndex_once
    (h : node.advanceCommitIndex = some (node', effects)) :
    MovesOnce effects := by
  obtain ⟨candidate, -, ⟨-, -, rfl⟩ | ⟨-, last, rest, hrest, -, rfl⟩⟩ :=
    advanceCommitIndex_cases h
  · exact Nat.zero_le 1
  · obtain ⟨candidate', -, -, rfl⟩ := advanceCommitIndex_plain
      (by rw [recomputeConfig_push_followUp]) hrest
    exact le_rfl

theorem onAppendEntriesResponse_once {sender : NodeId}
    {response : AppendEntriesResponse}
    (h : node.onAppendEntriesResponse sender response = some (node', effects)) :
    MovesOnce effects := by
  unfold onAppendEntriesResponse at h
  split at h
  · cases h
    exact Nat.zero_le 1
  split at h
  · cases h
    exact Nat.zero_le 1
  split at h
  · obtain ⟨matchIndex, -, h⟩ := Option.bind_eq_some_iff.mp h
    obtain ⟨⟨last, first⟩, hadvance, h⟩ := Option.bind_eq_some_iff.mp h
    obtain ⟨more, hmore, h⟩ := Option.bind_eq_some_iff.mp h
    cases h
    exact (advanceCommitIndex_once hadvance).append_still
      (still_of_sends (continueReplication_sends hmore))
  · obtain ⟨nextIndex, -, h⟩ := Option.bind_eq_some_iff.mp h
    obtain ⟨more, hmore, h⟩ := Option.bind_eq_some_iff.mp h
    cases h
    exact (still_of_sends (continueReplication_sends hmore)).once

theorem onInstallSnapshotResponse_once {sender : NodeId}
    {response : InstallSnapshotResponse}
    (h : node.onInstallSnapshotResponse sender response =
      some (node', effects)) : MovesOnce effects := by
  unfold onInstallSnapshotResponse at h
  split at h
  · cases h
    exact Nat.zero_le 1
  split at h
  · cases h
    exact Nat.zero_le 1
  obtain ⟨matchIndex, -, h⟩ := Option.bind_eq_some_iff.mp h
  obtain ⟨⟨last, first⟩, hadvance, h⟩ := Option.bind_eq_some_iff.mp h
  obtain ⟨more, hmore, h⟩ := Option.bind_eq_some_iff.mp h
  cases h
  exact (advanceCommitIndex_once hadvance).append_still
    (still_of_sends (continueReplication_sends hmore))

/-! ### Every prefix of a batch -/

/-- What `durable` holds is what `node` or `node'` holds at the same index. -/
def Explains (node node' : Node) (durable : Durable) : Prop :=
  ∀ index entry, durable.entryAt index = some entry →
    node.entryAt index = some entry ∨ node'.entryAt index = some entry

theorem entryAt_durable (node : Node) (index : Nat) :
    node.durable.entryAt index = node.entryAt index := by
  have hboundary : node.durable.boundary = node.snapshot.lastIncludedIndex :=
    rfl
  rw [Durable.entryAt, entryAt, vecIndex, hboundary]
  by_cases hlow : index ≤ node.snapshot.lastIncludedIndex
  · rw [if_pos hlow, if_pos (Or.inr hlow)]
  · rw [if_neg hlow, if_neg (by omega)]
    rfl

theorem Explains.before {durable : Durable} (hlog : durable.log = node.log)
    (hboundary : durable.boundary = node.snapshot.lastIncludedIndex) :
    node.Explains node' durable := by
  intro index entry hentry
  have hsame : durable.entryAt index = node.durable.entryAt index :=
    Durable.entryAt_congr hlog hboundary index
  rw [hsame, entryAt_durable] at hentry
  exact Or.inl hentry

theorem Explains.after {durable : Durable} (hlog : durable.log <+: node'.log)
    (hboundary : durable.boundary = node'.snapshot.lastIncludedIndex) :
    node.Explains node' durable := by
  intro index entry hentry
  have hafter : node'.durable.entryAt index = some entry :=
    Durable.entryAt_of_prefix hlog hboundary hentry
  rw [entryAt_durable] at hafter
  exact Or.inr hafter

theorem explains_once {written : Nat} {durable : Durable}
    (h : WriteAhead node effects node') (honce : MovesOnce effects)
    (hpart : node.durable.recordAll (effects.take written) = some durable) :
    node.Explains node' durable := by
  rcases Durable.recordAll_take_once honce h.recorded hpart with
    ⟨hlog, hboundary⟩ | ⟨hlog, hboundary⟩
  · exact .before hlog hboundary
  · exact .after (hlog ▸ List.prefix_refl _) hboundary

/-- Appending an entry, and a follow-up at most, passes through prefixes of
the final log. -/
theorem explains_appendOwn {entry : LogEntry} {index written : Nat}
    {durable : Durable}
    (h : node.appendOwn entry = some (node', index, effects))
    (hpart : node.durable.recordAll (effects.take written) = some durable) :
    node.Explains node' durable := by
  obtain ⟨⟨last, rest⟩, hadvance, h⟩ := Option.bind_eq_some_iff.mp h
  cases h
  have hpush := node.push_persists entry
  obtain ⟨added, hadded, -⟩ := advanceCommitIndex_appends hadvance
  have honce := advanceCommitIndex_once hadvance
  have hrest := advanceCommitIndex_persists hadvance
  cases written with
  | zero =>
      cases hpart
      exact .before rfl rfl
  | succ written =>
      rw [List.take_succ_cons, ← List.singleton_append,
        Durable.recordAll_append, hpush.recorded, Option.bind_some] at hpart
      refine .after ?_ ?_
      · rcases Durable.recordAll_take_once honce hrest.recorded hpart with
          ⟨hlog, -⟩ | ⟨hlog, -⟩
        · have hinit : (node.push entry).recomputeConfig.log <+:
              node'.log := ⟨added, hadded.log.symm⟩
          exact hlog ▸ hinit
        · exact hlog ▸ List.prefix_refl _
      · rcases Durable.recordAll_take_once honce hrest.recorded hpart with
          ⟨-, hboundary⟩ | ⟨-, hboundary⟩
        · rw [hboundary, hadded.snapshot]
          rfl
        · rw [hboundary]
          rfl

/-! ### A snapshot without its splice -/

/-- Reading the old log against another boundary shows an entry where neither
node has it: at the far end if the boundary went up, at the near end if it
went down. -/
theorem torn_not_explained {durable : Durable} (hlog : durable.log = node.log)
    (hne : node.log ≠ [])
    (hmoved : durable.boundary ≠ node.snapshot.lastIncludedIndex)
    (hboundary : node'.snapshot.lastIncludedIndex = durable.boundary)
    (hshorter : node'.log.length < node.log.length)
    (hempty : durable.boundary < node.snapshot.lastIncludedIndex →
      node'.log = []) : ¬ node.Explains node' durable := by
  intro hexplains
  have hpos : 0 < node.log.length := List.length_pos_iff.mpr hne
  have hread : ∀ offset, offset < node.log.length →
      ∃ entry, durable.entryAt (durable.boundary + offset + 1) =
        some entry := by
    intro offset hoffset
    refine ⟨node.log[offset], ?_⟩
    rw [Durable.entryAt, if_neg (by omega), hlog,
      show durable.boundary + offset + 1 - durable.boundary - 1 = offset
        by omega, List.getElem?_eq_getElem hoffset]
  rcases Nat.lt_or_gt_of_ne hmoved with hdown | hup
  · obtain ⟨entry, hentry⟩ := hread 0 hpos
    rcases hexplains _ _ hentry with hold | hnew
    · have hlow := (entryAt_range hold).1
      omega
    · have hhigh := (entryAt_range hnew).2
      rw [lastLogIndex, hboundary, hempty hdown, List.length_nil] at hhigh
      omega
  · obtain ⟨entry, hentry⟩ := hread (node.log.length - 1) (by omega)
    rcases hexplains _ _ hentry with hold | hnew
    · have hhigh := (entryAt_range hold).2
      rw [lastLogIndex] at hhigh
      omega
    · have hhigh := (entryAt_range hnew).2
      rw [lastLogIndex, hboundary] at hhigh
      omega

/-- A snapshot and its splice between effects that leave the log alone: only
the prefix that ends right after the snapshot can fail to be explained. -/
theorem explains_snapshot_iff {before after : List Effect} {index term : Nat}
    {data : Bytes} {config : ClusterConfig} {entries : List LogEntry}
    {written : Nat} {durable : Durable} (h : WriteAhead node effects node')
    (heffects : effects = before ++
      .persistSnapshot index term data config ::
        .persistLog (index + 1) entries :: after)
    (hbefore : Still before) (hafter : Still after)
    (hboundary : node'.snapshot.lastIncludedIndex = index)
    (hshorter : node.log ≠ [] → index ≠ node.snapshot.lastIncludedIndex →
      node'.log.length < node.log.length)
    (hempty : index < node.snapshot.lastIncludedIndex → node'.log = [])
    (hpart : node.durable.recordAll (effects.take written) = some durable) :
    node.Explains node' durable ↔
      ¬ (written = before.length + 1 ∧
        index ≠ node.snapshot.lastIncludedIndex ∧ node.log ≠ []) := by
  rcases Nat.lt_trichotomy written (before.length + 1) with hlt | heq | hgt
  · -- Only effects before the snapshot have been written.
    have htake : effects.take written = before.take written := by
      rw [heffects, List.take_append_of_le_length (by omega)]
    have hstill : Still (effects.take written) := by
      rw [htake]
      exact fun effect hmem => hbefore effect (List.mem_of_mem_take hmem)
    obtain ⟨hlog, hsame⟩ := Durable.recordAll_still hstill hpart
    exact ⟨fun _ htorn => by omega, fun _ => .before hlog hsame⟩
  · -- The snapshot is the last effect written.
    have htake : effects.take written =
        before ++ [.persistSnapshot index term data config] := by
      rw [heffects, heq, List.take_append, List.take_of_length_le (by omega),
        Nat.add_sub_cancel_left]
      rfl
    rw [htake, Durable.recordAll_append] at hpart
    obtain ⟨middle, hmiddle, hpart⟩ := Option.bind_eq_some_iff.mp hpart
    obtain ⟨hlog, hsame⟩ := Durable.recordAll_still hbefore hmiddle
    cases hpart
    constructor
    · rintro hexplains ⟨-, hmoved, hne⟩
      have htorn : Durable.log { middle with
          snapshot := ⟨⟨index, term⟩, data, config⟩ } = node.log := hlog
      exact torn_not_explained htorn hne hmoved hboundary
        (hshorter hne hmoved) hempty hexplains
    · intro hwhole
      by_cases hnil : node.log = []
      · refine .after ?_ hboundary.symm
        have hlog : middle.log = [] := hlog.trans hnil
        exact hlog ▸ List.nil_prefix
      · have hunmoved : index = node.snapshot.lastIncludedIndex := by
          by_contra hmoved
          exact hwhole ⟨heq, hmoved, hnil⟩
        exact .before hlog hunmoved
  · -- The splice has been written as well.
    obtain ⟨more, hmore⟩ : ∃ more, written - before.length = more + 2 :=
      ⟨written - before.length - 2, by omega⟩
    have hdrop : effects.drop written = after.drop more := by
      rw [heffects, List.drop_append, List.drop_eq_nil_of_le (by omega),
        hmore, List.drop_succ_cons, List.drop_succ_cons, List.nil_append]
    have hrest : Still (effects.drop written) := by
      rw [hdrop]
      exact fun effect hmem => hafter effect (List.mem_of_mem_drop hmem)
    have hall := h.recorded
    rw [← List.take_append_drop written effects, Durable.recordAll_append,
      hpart] at hall
    obtain ⟨hlog, hsame⟩ := Durable.recordAll_still hrest hall
    exact ⟨fun _ htorn => by omega,
      fun _ => .after (hlog ▸ List.prefix_refl _) hsame.symm⟩

/-- The boundary an operation moves the log to, and how many of its effects
have been written once the storage has that boundary but not yet the log. -/
def movesBoundary (node : Node) : Operation → Option (Nat × Nat)
  | .compact upToIndex _ =>
      if node.snapshot.lastIncludedIndex < upToIndex ∧
          upToIndex ≤ node.commitIndex then
        some (upToIndex, 1)
      else none
  | .receive sender (.installSnapshot request) =>
      if request.leaderId = sender ∧ node.currentTerm ≤ request.term ∧
          node.alreadyCovered request = false then
        some (request.lastIncludedIndex,
          if node.currentTerm < request.term then 2 else 1)
      else none
  | _ => none

/-- A crash after `written` effects leaves the old log, with entries in it,
under a new boundary. -/
def Torn (node : Node) (operation : Operation) (written : Nat) : Prop :=
  ∃ index, node.movesBoundary operation = some (index, written) ∧
    index ≠ node.snapshot.lastIncludedIndex ∧ node.log ≠ []

theorem not_torn {operation : Operation} {written : Nat}
    (h : node.movesBoundary operation = none) :
    ¬ node.Torn operation written := by
  rintro ⟨index, hmoves, -⟩
  rw [h] at hmoves
  cases hmoves

theorem torn_iff {operation : Operation} {index count written : Nat}
    (h : node.movesBoundary operation = some (index, count)) :
    node.Torn operation written ↔ written = count ∧
      index ≠ node.snapshot.lastIncludedIndex ∧ node.log ≠ [] := by
  rw [Torn, h]
  constructor
  · rintro ⟨_, hmoves, hmoved, hne⟩
    cases hmoves
    exact ⟨rfl, hmoved, hne⟩
  · rintro ⟨rfl, hmoved, hne⟩
    exact ⟨index, rfl, hmoved, hne⟩

theorem compact_explains {upToIndex written : Nat} {snapshotData : Bytes}
    {durable : Durable}
    (h : node.compact upToIndex snapshotData = some (.ok (node', effects)))
    (hpart : node.durable.recordAll (effects.take written) = some durable) :
    node.Explains node' durable ↔
      ¬ node.Torn (.compact upToIndex snapshotData) written := by
  have hwrites := (compact_persists h).writeAhead
  rcases compact_cases h with ⟨hbelow, rfl, rfl⟩ |
    ⟨term, config, log, habove, hcommitted, hterm, rfl, rfl, rfl, rfl⟩
  · have hnone : node'.movesBoundary (.compact upToIndex snapshotData) =
        none := if_neg (by omega)
    refine ⟨fun _ => not_torn hnone, fun _ => ?_⟩
    exact explains_once hwrites (Nat.zero_le 1) hpart
  · have hmoves : node.movesBoundary (.compact upToIndex snapshotData) =
        some (upToIndex, 1) := if_pos ⟨habove, hcommitted⟩
    rw [torn_iff hmoves]
    have hnothing : Still [] := by simp [Still]
    refine explains_snapshot_iff hwrites (List.nil_append _).symm hnothing
      hnothing rfl ?_ (by omega) hpart
    intro hne _
    have hpos : 0 < node.log.length := List.length_pos_iff.mpr hne
    have hdropped : (node.log.drop (upToIndex -
        node.snapshot.lastIncludedIndex)).length < node.log.length := by
      rw [List.length_drop]
      omega
    exact hdropped

theorem onInstallSnapshot_explains {sender : NodeId}
    {request : InstallSnapshot} {written : Nat} {durable : Durable}
    (hsender : request.leaderId = sender)
    (h : node.onInstallSnapshot sender request = some (node', effects))
    (hpart : node.durable.recordAll (effects.take written) = some durable) :
    node.Explains node' durable ↔
      ¬ node.Torn (.receive sender (.installSnapshot request)) written := by
  have hwrites := onInstallSnapshot_writeAhead h
  have hreply : ∀ (n : Node) (index : Nat),
      Still [n.snapshotReply sender index] := by
    simp [Still, snapshotReply, Effect.movesLog]
  unfold onInstallSnapshot at h
  split at h
  · rename_i hstale
    cases h
    have hnone : node.movesBoundary
        (.receive sender (.installSnapshot request)) = none :=
      if_neg (fun hall => absurd hstale (Nat.not_lt.mpr hall.2.1))
    refine ⟨fun _ => not_torn hnone, fun _ => ?_⟩
    exact explains_once hwrites (hreply _ _).once hpart
  rename_i hcurrent
  have hstill := node.followLeader_still request.term
  have hcount : (node.followLeader request.term).2.length + 1 =
      if node.currentTerm < request.term then 2 else 1 := by
    unfold followLeader
    by_cases hdown : node.currentTerm < request.term <;> simp [hdown]
  have hfollow : (node.followLeader request.term).1.log = node.log ∧
      (node.followLeader request.term).1.snapshot = node.snapshot := by
    unfold followLeader
    dsimp only
    split
    · exact ⟨rfl, rfl⟩
    split <;> exact ⟨rfl, rfl⟩
  have hcovered : (node.followLeader request.term).1.alreadyCovered request =
      node.alreadyCovered request := by
    have hterm : (node.followLeader request.term).1.termAt
        request.lastIncludedIndex = node.termAt request.lastIncludedIndex := by
      simp only [termAt, entryAt, vecIndex, hfollow]
    rw [alreadyCovered, alreadyCovered, hterm]
  generalize node.followLeader request.term = followed at *
  obtain ⟨follower, persistTerm⟩ := followed
  dsimp only at h hstill hcount hfollow hcovered
  split at h
  · rename_i hcover
    cases h
    have hnone : node.movesBoundary
        (.receive sender (.installSnapshot request)) = none :=
      if_neg (by simp [← hcovered, hcover])
    refine ⟨fun _ => not_torn hnone, fun _ => ?_⟩
    exact explains_once hwrites (hstill.append (hreply _ _)).once hpart
  · rename_i hcover
    cases h
    have hmoves : node.movesBoundary
        (.receive sender (.installSnapshot request)) =
          some (request.lastIncludedIndex, persistTerm.length + 1) := by
      rw [hcount]
      exact if_pos ⟨hsender, Nat.le_of_not_lt hcurrent, by
        rw [← hcovered]
        simpa using hcover⟩
    rw [torn_iff hmoves]
    refine explains_snapshot_iff hwrites rfl hstill (hreply _ _) rfl ?_
      (fun _ => rfl) hpart
    exact fun hne _ => List.length_pos_iff.mpr hne

/-! ### Every operation -/

theorem proposeConfigChange_explains {newVoters : List NodeId}
    {index written : Nat} {durable : Durable}
    (h : node.proposeConfigChange newVoters =
      some (some (node', index, effects)))
    (hpart : node.durable.recordAll (effects.take written) = some durable) :
    node.Explains node' durable := by
  unfold proposeConfigChange at h
  split at h
  · cases h
  have hdrop := node.dropPromoted_persists newVoters
  have hsnapshot : (node.dropPromoted newVoters).1.snapshot = node.snapshot :=
    rfl
  have hlog : (node.dropPromoted newVoters).1.log = node.log := rfl
  have hstill : Still (node.dropPromoted newVoters).2 := by
    unfold dropPromoted
    dsimp only
    split <;> simp [Still, persistLearners, Effect.movesLog]
  generalize node.dropPromoted newVoters = dropped at *
  obtain ⟨remaining, persist⟩ := dropped
  dsimp only at h hdrop hsnapshot hlog hstill
  obtain ⟨⟨last, index', rest⟩, happended, h⟩ := Option.bind_eq_some_iff.mp h
  cases h
  rw [List.take_append, Durable.recordAll_append] at hpart
  obtain ⟨middle, hmiddle, hpart⟩ := Option.bind_eq_some_iff.mp hpart
  rcases Nat.le_total persist.length written with hall | hsome
  · rw [List.take_of_length_le hall, hdrop.recorded] at hmiddle
    cases hmiddle
    intro position entry hentry
    have hexplained := explains_appendOwn happended hpart position entry hentry
    simpa only [entryAt, vecIndex, hlog, hsnapshot] using hexplained
  · rw [Nat.sub_eq_zero_of_le hsome] at hpart
    cases hpart
    obtain ⟨hsameLog, hsame⟩ := Durable.recordAll_still
      (fun effect hmem => hstill effect (List.mem_of_mem_take hmem)) hmiddle
    exact .before hsameLog hsame

theorem receive_explains {sender : NodeId} {message : Message}
    {written : Nat} {durable : Durable}
    (h : node.step (.step sender message) = some (node', effects))
    (hpart : node.durable.recordAll (effects.take written) = some durable) :
    node.Explains node' durable ↔
      ¬ node.Torn (.receive sender message) written := by
  have hwrites := step_writeAhead h
  have honce : MovesOnce effects →
      node.movesBoundary (.receive sender message) = none →
      (node.Explains node' durable ↔
        ¬ node.Torn (.receive sender message) written) :=
    fun honce hnone => ⟨fun _ => not_torn hnone,
      fun _ => explains_once hwrites honce hpart⟩
  cases message with
  | requestVote request =>
      refine honce ?_ rfl
      simp only [step] at h
      split at h
      · cases h
        exact Nat.zero_le 1
      split at h
      · cases h
        exact Nat.zero_le 1
      · exact (onRequestVote_still h).once
  | requestVoteResponse response =>
      refine honce ?_ rfl
      simp only [step] at h
      split at h
      · cases h
        exact Nat.zero_le 1
      · exact (onRequestVoteResponse_still h).once
  | appendEntries request =>
      refine honce ?_ rfl
      simp only [step] at h
      split at h
      · cases h
        exact Nat.zero_le 1
      · exact onAppendEntries_once h
  | appendEntriesResponse response =>
      refine honce ?_ rfl
      simp only [step] at h
      split at h
      · cases h
        exact Nat.zero_le 1
      · exact onAppendEntriesResponse_once h
  | installSnapshotResponse response =>
      refine honce ?_ rfl
      simp only [step] at h
      split at h
      · cases h
        exact Nat.zero_le 1
      · exact onInstallSnapshotResponse_once h
  | installSnapshot request =>
      simp only [step] at h
      split at h
      · rename_i hsender
        cases h
        exact honce (Nat.zero_le 1) (if_neg (fun hall => hsender hall.1))
      · rename_i hsender
        exact onInstallSnapshot_explains (by simpa using hsender) h hpart

/-- A crash inside any batch is explained unless it tears it. -/
theorem perform_explains {operation : Operation} {written : Nat}
    {durable : Durable}
    (h : node.perform operation = some (node', effects))
    (hpart : node.durable.recordAll (effects.take written) = some durable) :
    node.Explains node' durable ↔ ¬ node.Torn operation written := by
  have hwrites := perform_writeAhead h
  have hplain : node.Explains node' durable →
      node.movesBoundary operation = none →
      (node.Explains node' durable ↔ ¬ node.Torn operation written) :=
    fun hexplains hnone => ⟨fun _ => not_torn hnone, fun _ => hexplains⟩
  cases operation with
  | tick nextTimeout =>
      have hstep : node.onTick nextTimeout = some (node', effects) := h
      exact hplain (explains_once hwrites (onTick_still hstep).once hpart) rfl
  | receive sender message => exact receive_explains h hpart
  | propose command =>
      refine hplain ?_ rfl
      obtain ⟨answer, hanswer, h⟩ := Option.bind_eq_some_iff.mp h
      rcases answer with _ | ⟨last, index, rest⟩
      · cases h
        exact explains_once hwrites (Nat.zero_le 1) hpart
      · cases h
        unfold propose at hanswer
        split at hanswer
        · cases hanswer
        · obtain ⟨_, happended, hanswer⟩ :=
            Option.bind_eq_some_iff.mp hanswer
          cases hanswer
          exact explains_appendOwn happended hpart
  | proposeConfigChange newVoters =>
      refine hplain ?_ rfl
      obtain ⟨answer, hanswer, h⟩ := Option.bind_eq_some_iff.mp h
      rcases answer with _ | ⟨last, index, rest⟩
      · cases h
        exact explains_once hwrites (Nat.zero_le 1) hpart
      · cases h
        exact proposeConfigChange_explains hanswer hpart
  | addLearner id =>
      refine hplain (explains_once hwrites ?_ hpart) rfl
      obtain rfl := congrArg Prod.snd (Option.some.inj h)
      refine Still.once ?_
      unfold addLearner
      split <;> simp [Still, persistLearners, Effect.movesLog]
  | removeLearner id =>
      refine hplain (explains_once hwrites ?_ hpart) rfl
      obtain rfl := congrArg Prod.snd (Option.some.inj h)
      refine Still.once ?_
      unfold removeLearner
      split <;> simp [Still, persistLearners, Effect.movesLog]
  | compact upToIndex snapshotData =>
      obtain ⟨answer, hanswer, h⟩ := Option.bind_eq_some_iff.mp h
      rcases answer with error | ⟨last, rest⟩
      · cases h
        refine hplain (explains_once hwrites (Nat.zero_le 1) hpart) ?_
        refine if_neg ?_
        rintro ⟨habove, hcommitted⟩
        unfold compact at hanswer
        rw [if_neg (by omega), if_neg (by omega)] at hanswer
        obtain ⟨_, -, hanswer⟩ := Option.bind_eq_some_iff.mp hanswer
        obtain ⟨_, -, hanswer⟩ := Option.bind_eq_some_iff.mp hanswer
        cases hanswer
      · cases h
        exact compact_explains hanswer hpart

end Node

end Kurogane.Raft

namespace Kurogane.Runtime

open Kurogane.Raft

/-- Every entry of `recovered` is one that `node` or `node'` has at the same
index. -/
def EntriesKept (node node' recovered : Node) : Prop :=
  ∀ index entry, recovered.entryAt index = some entry →
    node.entryAt index = some entry ∨ node'.entryAt index = some entry

/-- Storage a crash leaves in the middle of a batch always reads back, and
holds entries of the node before or after the batch if and only if the crash
did not tear it. -/
theorem crash_atomicity_iff {storage : Storage} {node node' : Node}
    {operation : Operation} {effects : List Effect}
    (hmirrors : storage.Mirrors node.durable)
    (hperform : node.perform operation = some (node', effects))
    (written : Nat) :
    ∃ partly, storage.applyAll (effects.take written) = some partly ∧
      ∀ id peers electionTimeout heartbeatInterval recovered,
        Node.recover id peers electionTimeout heartbeatInterval
          partly.hardState partly.log
          ⟨partly.snapshot, partly.snapshotData, partly.snapshotConfig⟩
          partly.learners = .ok recovered →
        (EntriesKept node node' recovered ↔ ¬ node.Torn operation written) := by
  obtain ⟨durable, hdurable⟩ := Durable.recordAll_take
    (Node.perform_writeAhead hperform).recorded written
  obtain ⟨partly, hpartly, hread⟩ := hmirrors.applyAll hdurable
  refine ⟨partly, hpartly, ?_⟩
  intro id peers electionTimeout heartbeatInterval recovered hrecover
  have hrecovered := Storage.mirrors_of_recover hrecover
  have hentries : ∀ index, recovered.entryAt index = durable.entryAt index := by
    intro index
    rw [← recovered.entryAt_durable]
    refine Durable.entryAt_congr ?_ ?_ index
    · rw [← hrecovered.log, hread.log]
    · rw [Durable.boundary, Durable.boundary, ← hrecovered.snapshot,
        hread.snapshot]
  rw [← Node.perform_explains hperform hdurable]
  simp only [EntriesKept, Node.Explains, hentries]

/-- What is left of a single voter whose compaction at index one is
interrupted after `written` effects: its storage and the node before, the
node after and the effects it did not all execute, and the storage and the
node that come back. -/
structure Interrupted where
  storage : Storage
  node : Node
  node' : Node
  effects : List Effect
  partly : Storage
  recovered : Node
deriving DecidableEq

/-- The voter elects itself and appends two commands before it compacts. -/
def interruptCompaction (written : Nat) : Option Interrupted := do
  let start ← (Node.new ⟨1⟩ [⟨1⟩] 2 1).toOption
  let (node, batches) ←
    start.performAll [.tick 2, .tick 2, .propose [1], .propose [2]]
  let storage ← Storage.fresh.applyAll batches.flatten
  let (node', effects) ← node.perform (.compact 1 [9])
  let partly ← storage.applyAll (effects.take written)
  let recovered ← (Node.recover ⟨1⟩ [⟨1⟩] 2 1 partly.hardState partly.log
    ⟨partly.snapshot, partly.snapshotData, partly.snapshotConfig⟩
    partly.learners).toOption
  some { storage, node, node', effects, partly, recovered }

theorem interruptCompaction_spec {written : Nat} {left : Interrupted}
    (h : interruptCompaction written = some left) :
    left.storage.Mirrors left.node.durable ∧
      left.node.perform (.compact 1 [9]) = some (left.node', left.effects) ∧
      left.storage.applyAll (left.effects.take written) = some left.partly ∧
      Node.recover ⟨1⟩ [⟨1⟩] 2 1 left.partly.hardState left.partly.log
        ⟨left.partly.snapshot, left.partly.snapshotData,
          left.partly.snapshotConfig⟩ left.partly.learners =
            .ok left.recovered := by
  simp only [interruptCompaction, Option.bind_eq_bind,
    Option.bind_eq_some_iff, Prod.exists] at h
  obtain ⟨start, hstart, node, batches, hnode, storage, hstorage, node',
    effects, hperform, partly, hpartly, recovered, hrecovered, h⟩ := h
  cases h
  have hnew := ok_of_toOption hstart
  have hmirrors : Storage.fresh.Mirrors start.durable :=
    Storage.mirrors_of_recover hnew
  obtain ⟨other, hother, hmirrors⟩ := hmirrors.performAll hnode
  rw [hstorage] at hother
  cases hother
  exact ⟨hmirrors, hperform, hpartly, ok_of_toOption hrecovered⟩

theorem crash_atomicity_after_the_splice :
    ∃ left, interruptCompaction 2 = some left ∧ left.recovered.log ≠ [] ∧
      EntriesKept left.node left.node' left.recovered := by
  obtain ⟨left, hleft, hlog⟩ : ∃ left, interruptCompaction 2 = some left ∧
      left.recovered.log ≠ [] := by
    have hcheck : (interruptCompaction 2).any
        (fun left => left.recovered.log ≠ []) = true := by
      decide +kernel
    obtain ⟨left, hleft, hlog⟩ := (Option.any_eq_true _ _).mp hcheck
    exact ⟨left, hleft, of_decide_eq_true hlog⟩
  obtain ⟨hmirrors, hperform, hpartly, hrecover⟩ :=
    interruptCompaction_spec hleft
  refine ⟨left, hleft, hlog, ?_⟩
  obtain ⟨partly, hpartly', hiff⟩ := crash_atomicity_iff hmirrors hperform 2
  rw [hpartly] at hpartly'
  cases hpartly'
  refine (hiff _ _ _ _ _ hrecover).mpr ?_
  rintro ⟨index, hmoves, -⟩
  simp [Node.movesBoundary] at hmoves

/-- Right after the snapshot, the old log is read one index too high: the
second command comes back at index three, where it never was. -/
theorem crash_before_the_splice_moves_an_entry :
    ∃ left, interruptCompaction 1 = some left ∧
      left.storage.Mirrors left.node.durable ∧
      left.recovered.entryAt 3 = some ⟨1, .command [2]⟩ ∧
      left.node.entryAt 3 = none ∧ left.node'.entryAt 3 = none ∧
      ¬ EntriesKept left.node left.node' left.recovered := by
  have hcheck : (interruptCompaction 1).any (fun left =>
      left.recovered.entryAt 3 = some ⟨1, .command [2]⟩ ∧
        left.node.entryAt 3 = none ∧ left.node'.entryAt 3 = none) = true := by
    decide +kernel
  obtain ⟨left, hleft, hentries⟩ := (Option.any_eq_true _ _).mp hcheck
  obtain ⟨hrecovered, hbefore, hafter⟩ := of_decide_eq_true hentries
  refine ⟨left, hleft, (interruptCompaction_spec hleft).1, hrecovered,
    hbefore, hafter, fun hkept => ?_⟩
  rcases hkept 3 _ hrecovered with h | h
  · rw [hbefore] at h
    cases h
  · rw [hafter] at h
    cases h

end Kurogane.Runtime
