import Kurogane.Raft.Effects

/-!
Every transition announces its durable changes: recording the effects of a
batch takes the durable state before the transition to the one after it, and
the effects to persist come before the messages to send.
-/

namespace Kurogane.Raft

namespace Node

variable {node node' : Node}

/-! ### Messages -/

theorem replicateTo_send {peer : NodeId} {effect : Effect}
    (h : node.replicateTo peer = some effect) :
    ∃ message, effect = .send peer message := by
  unfold replicateTo at h
  obtain ⟨nextIndex, -, h⟩ := Option.bind_eq_some_iff.mp h
  split at h
  · exact ⟨_, (Option.some.inj h).symm⟩
  · obtain ⟨entries, -, h⟩ := Option.bind_eq_some_iff.mp h
    exact ⟨_, (Option.some.inj h).symm⟩

/-- Every message of a broadcast is what some peer is owed. -/
theorem mem_broadcastReplication {effects : List Effect}
    (h : node.broadcastReplication = some effects) {effect : Effect}
    (heffect : effect ∈ effects) :
    ∃ peer ∈ node.replicationTargets, node.replicateTo peer = some effect := by
  unfold broadcastReplication at h
  simp only [← Std.ExtTreeSet.mem_toList (t := node.replicationTargets)]
  generalize node.replicationTargets.toList = targets at h
  induction targets generalizing effects with
  | nil =>
      cases h
      cases heffect
  | cons peer rest ih =>
      rw [List.mapM_cons] at h
      obtain ⟨first, hfirst, h⟩ := Option.bind_eq_some_iff.mp h
      obtain ⟨more, hmore, h⟩ := Option.bind_eq_some_iff.mp h
      cases h
      rcases List.mem_cons.mp heffect with rfl | hmem
      · exact ⟨peer, List.mem_cons_self, hfirst⟩
      · obtain ⟨other, hother, hsend⟩ := ih hmem hmore
        exact ⟨other, List.mem_cons_of_mem _ hother, hsend⟩

theorem broadcastReplication_sends {effects : List Effect}
    (h : node.broadcastReplication = some effects) :
    ∀ effect ∈ effects, effect.isSend = true := by
  intro effect heffect
  obtain ⟨peer, -, hpeer⟩ := mem_broadcastReplication h heffect
  obtain ⟨message, rfl⟩ := replicateTo_send hpeer
  rfl

theorem continueReplication_sends {peer : NodeId} {effects : List Effect}
    (h : node.continueReplication peer = some effects) :
    ∀ effect ∈ effects, effect.isSend = true := by
  unfold continueReplication at h
  split at h
  · obtain ⟨nextIndex, -, h⟩ := Option.bind_eq_some_iff.mp h
    split at h
    · obtain ⟨effect, heffect, h⟩ := Option.bind_eq_some_iff.mp h
      cases h
      obtain ⟨message, rfl⟩ := replicateTo_send heffect
      simp [Effect.isSend]
    · cases h
      simp
  · cases h
    simp

/-! ### Elections -/

theorem becomeLeader_writeAhead {effects : List Effect}
    (h : node.becomeLeader = some (node', effects)) :
    WriteAhead node effects node' := by
  unfold becomeLeader at h
  obtain ⟨sends, hsends, h⟩ := Option.bind_eq_some_iff.mp h
  cases h
  exact .of_durable rfl rfl (broadcastReplication_sends hsends)

theorem onLeaderTick_writeAhead {effects : List Effect}
    (h : node.onLeaderTick = some (node', effects)) :
    WriteAhead node effects node' := by
  unfold onLeaderTick at h
  dsimp only at h
  split at h
  · cases h
    exact .of_durable rfl rfl (by simp)
  · obtain ⟨sends, hsends, h⟩ := Option.bind_eq_some_iff.mp h
    cases h
    exact .of_durable rfl rfl (broadcastReplication_sends hsends)

theorem campaign_persists (node : Node) (nextTimeout : Nat) :
    Persists node [(node.campaign nextTimeout).persistHardState]
      (node.campaign nextTimeout) :=
  .hardState rfl rfl

theorem requestVotes_sends (node : Node) :
    ∀ effect ∈ node.requestVotes, effect.isSend = true := by
  intro effect heffect
  obtain ⟨peer, -, rfl⟩ := List.mem_map.mp heffect
  rfl

theorem startElection_writeAhead {nextTimeout : Nat} {effects : List Effect}
    (h : node.startElection nextTimeout = some (node', effects)) :
    WriteAhead node effects node' := by
  unfold startElection at h
  split at h
  · cases h
    exact .refl node
  · dsimp only at h
    have hcampaign := node.campaign_persists nextTimeout
    split at h
    · obtain ⟨⟨leader, sends⟩, hleader, h⟩ := Option.bind_eq_some_iff.mp h
      cases h
      exact hcampaign.then (becomeLeader_writeAhead hleader)
    · cases h
      exact hcampaign.sends (requestVotes_sends _)

theorem onTick_writeAhead {nextTimeout : Nat} {effects : List Effect}
    (h : node.onTick nextTimeout = some (node', effects)) :
    WriteAhead node effects node' := by
  unfold onTick at h
  split at h
  · exact onLeaderTick_writeAhead h
  · dsimp only at h
    split at h
    · cases h
      exact .of_durable rfl rfl (by simp)
    · exact (startElection_writeAhead h).of_volatile rfl rfl

theorem stepDown_persists (node : Node) (term : Nat) :
    Persists node [(node.stepDown term).persistHardState]
      (node.stepDown term) :=
  .hardState rfl rfl

theorem onRequestVote_writeAhead {sender : NodeId} {request : RequestVote}
    {effects : List Effect}
    (h : node.onRequestVote sender request = some (node', effects)) :
    WriteAhead node effects node' := by
  have hreply : ∀ (n : Node) (granted : Bool),
      ∀ effect ∈ [n.voteReply sender granted], effect.isSend = true := by
    simp [voteReply, Effect.isSend]
  unfold onRequestVote at h
  split at h
  · cases h
    exact .of_durable rfl rfl (hreply _ _)
  split at h
  · cases h
    exact .of_durable rfl rfl (hreply _ _)
  split at h
  · cases h
    exact .of_durable rfl rfl (hreply _ _)
  dsimp only at h
  cases h
  by_cases hdown : node.currentTerm < request.term
  · simp only [hdown, decide_true, ite_true, Bool.true_or]
    refine Persists.sends (.hardState ?_ ?_) (hreply _ _)
    · split <;> rfl
    · split <;> rfl
  · simp only [hdown, decide_false, Bool.false_or, Bool.false_eq_true,
      ite_false]
    split
    · exact Persists.sends (.hardState rfl rfl) (hreply _ _)
    · exact .of_durable rfl rfl (hreply _ _)

theorem onRequestVoteResponse_writeAhead {sender : NodeId}
    {response : RequestVoteResponse} {effects : List Effect}
    (h : node.onRequestVoteResponse sender response = some (node', effects)) :
    WriteAhead node effects node' := by
  unfold onRequestVoteResponse at h
  split at h
  · cases h
    exact (node.stepDown_persists response.term).writeAhead
  split at h
  · cases h
    exact .refl node
  split at h
  · dsimp only at h
    split at h
    · exact (becomeLeader_writeAhead h).of_volatile rfl rfl
    · cases h
      exact .of_durable rfl rfl (by simp)
  · cases h
    exact .refl node

/-! ### Replication -/

theorem followLeader_persists (node : Node) (term : Nat) :
    Persists node (node.followLeader term).2 (node.followLeader term).1 := by
  unfold followLeader
  by_cases hdown : node.currentTerm < term
  · simp only [hdown, decide_true, ite_true]
    exact .hardState rfl rfl
  · simp only [hdown, decide_false, Bool.false_eq_true, ite_false]
    split
    · exact .of_durable rfl rfl
    · exact .of_durable rfl rfl

theorem termAt_le_lastLogIndex {index term : Nat}
    (h : node.termAt index = some term) : index ≤ node.lastLogIndex := by
  unfold termAt at h
  split at h
  · cases h
  split at h
  · rename_i hboundary
    rw [hboundary]
    exact Nat.le_add_right _ _
  split at h
  · cases h
  · obtain ⟨entry, hentry, -⟩ := Option.map_eq_some_iff.mp h
    unfold entryAt at hentry
    split at hentry
    · cases hentry
    · have hlt := (List.getElem?_eq_some_iff.mp hentry).1
      unfold vecIndex at hlt
      unfold lastLogIndex
      omega

theorem entryAt_range {index : Nat} {entry : LogEntry}
    (h : node.entryAt index = some entry) :
    node.snapshot.lastIncludedIndex < index ∧ index ≤ node.lastLogIndex := by
  unfold entryAt at h
  split at h
  · cases h
  · have hlt := (List.getElem?_eq_some_iff.mp h).1
    unfold vecIndex at hlt
    unfold lastLogIndex
    omega

theorem termAt_range {index term : Nat} (h : node.termAt index = some term) :
    0 < index ∧ node.snapshot.lastIncludedIndex ≤ index ∧
      index ≤ node.lastLogIndex := by
  have hhigh := termAt_le_lastLogIndex h
  unfold termAt at h
  split at h
  · cases h
  split at h
  · omega
  split at h
  · cases h
  · omega

/-- What the merge loop has written so far: nothing, or everything from some
index above the boundary on. -/
def Written (node : Node) (log : List LogEntry) : Option Nat → Prop
  | none => log = node.log
  | some fromIndex =>
      node.snapshot.lastIncludedIndex < fromIndex ∧
        fromIndex ≤ node.lastLogIndex + 1 ∧
        node.vecIndex fromIndex ≤ log.length ∧
        log.take (node.vecIndex fromIndex) =
          node.log.take (node.vecIndex fromIndex)

theorem Written.splice {log rest : List LogEntry} {changedFrom : Option Nat}
    {index : Nat} (h : node.Written log changedFrom)
    (hindex : node.snapshot.lastIncludedIndex < index)
    (hchanged : ∀ fromIndex, changedFrom = some fromIndex → fromIndex ≤ index)
    (hlength : node.vecIndex index ≤ log.length) :
    node.Written (log.take (node.vecIndex index) ++ rest)
      (some (changedFrom.getD index)) := by
  cases changedFrom with
  | none =>
      cases h
      refine ⟨hindex, ?_, ?_, ?_⟩
      · simp only [vecIndex] at hlength
        simp only [Option.getD_none, lastLogIndex]
        omega
      · rw [List.length_append, List.length_take]
        simp only [Option.getD_none]
        omega
      · rw [Option.getD_none, List.take_append_of_le_length
          (by rw [List.length_take]; omega), List.take_take, Nat.min_self]
  | some fromIndex =>
      obtain ⟨habove, hlast, hle, htake⟩ := h
      have hfrom := hchanged fromIndex rfl
      have hvec : node.vecIndex fromIndex ≤ node.vecIndex index := by
        simp only [vecIndex]
        omega
      refine ⟨habove, hlast, ?_, ?_⟩
      · rw [List.length_append, List.length_take]
        simp only [Option.getD_some]
        omega
      · rw [Option.getD_some, List.take_append_of_le_length
          (by rw [List.length_take]; omega), List.take_take,
          Nat.min_eq_left hvec]
        exact htake

/-- The merge loop changes the log alone, from the index it reports on. -/
theorem mergeEntries_written (node : Node) {entries : List LogEntry} :
    ∀ (current : Node) {changedFrom : Option Nat} {index : Nat}
      {merged : Node} {changed : Option Nat},
      current = { node with log := current.log } →
      node.Written current.log changedFrom →
      (∀ fromIndex, changedFrom = some fromIndex → fromIndex ≤ index) →
      index ≤ current.lastLogIndex + 1 →
      current.mergeEntries changedFrom index entries = (merged, changed) →
      merged = { node with log := merged.log } ∧
        node.Written merged.log changed := by
  induction entries with
  | nil =>
      intro current changedFrom index merged changed hcurrent hwritten _ _ h
      cases h
      exact ⟨hcurrent, hwritten⟩
  | cons entry rest ih =>
      intro current changedFrom index merged changed hcurrent hwritten
        hchanged hindex h
      have hboundary : current.snapshot = node.snapshot := by
        rw [hcurrent]
      have hvec : current.vecIndex index = node.vecIndex index := by
        rw [hcurrent]
        rfl
      unfold mergeEntries at h
      split at h
      · rename_i hskip
        refine ih current hcurrent hwritten (fun f hf => ?_) ?_ h
        · exact (hchanged f hf).trans (Nat.le_succ _)
        · unfold lastLogIndex
          omega
      · rename_i habove
        have hpushed : ∀ base : List LogEntry,
            base = current.log.take (node.vecIndex index) →
            node.vecIndex index ≤ current.log.length →
            ({ current with log := base ++ [entry] } : Node).mergeEntries
              (some (changedFrom.getD index)) (index + 1) rest =
                (merged, changed) →
            merged = { node with log := merged.log } ∧
              node.Written merged.log changed := by
          intro base hbase hlength hrest
          subst hbase
          refine ih { current with
            log := current.log.take (node.vecIndex index) ++ [entry] }
            (by rw [hcurrent]) (hwritten.splice (by rw [← hboundary]; omega)
              hchanged hlength) ?_ ?_ hrest
          · intro f hf
            cases hf
            cases changedFrom with
            | none => exact Nat.le_succ _
            | some f => exact (hchanged f rfl).trans (Nat.le_succ _)
          · simp only [lastLogIndex, List.length_append, List.length_take,
              List.length_singleton, hboundary]
            simp only [vecIndex] at hlength ⊢
            rw [hboundary] at habove
            omega
        have hlast : node.vecIndex index ≤ current.log.length := by
          simp only [lastLogIndex, hboundary] at hindex
          rw [hboundary] at habove
          simp only [vecIndex]
          omega
        split at h
        · rename_i existing hterm
          split at h
          · refine ih current hcurrent hwritten (fun f hf => ?_) ?_ h
            · exact (hchanged f hf).trans (Nat.le_succ _)
            · exact Nat.succ_le_succ (termAt_le_lastLogIndex hterm)
          · refine hpushed _ ?_ hlast h
            rw [← hvec, truncate]
        · rename_i hterm
          refine hpushed _ ?_ hlast h
          -- The entry above the last one is appended.
          have hnone : current.log[current.vecIndex index]? = none := by
            unfold termAt entryAt at hterm
            rw [if_neg (by omega), if_neg (by omega), if_neg (by omega),
              if_neg (by omega)] at hterm
            simpa using hterm
          refine (List.take_of_length_le ?_).symm
          rw [← hvec]
          exact List.getElem?_eq_none_iff.mp hnone

theorem vecIndex_congr {index : Nat} (h : node'.snapshot = node.snapshot) :
    node'.vecIndex index = node.vecIndex index := by
  rw [vecIndex, vecIndex, h]

@[simp] theorem followCommit_log (node : Node) (leaderCommit : Nat) :
    (node.followCommit leaderCommit).log = node.log := by
  unfold followCommit
  split <;> rfl

@[simp] theorem followCommit_snapshot (node : Node) (leaderCommit : Nat) :
    (node.followCommit leaderCommit).snapshot = node.snapshot := by
  unfold followCommit
  split <;> rfl

theorem followCommit_durable (node : Node) (leaderCommit : Nat) :
    (node.followCommit leaderCommit).durable = node.durable ∧
      (node.followCommit leaderCommit).id = node.id := by
  unfold followCommit
  split <;> exact ⟨rfl, rfl⟩

/-- A splice from `fromIndex` on records the written log. -/
theorem persists_written {fromIndex : Nat} {log : List LogEntry}
    (h : node.Written log (some fromIndex)) :
    Persists node [.persistLog fromIndex (log.drop (node.vecIndex fromIndex))]
      { node with log } := by
  obtain ⟨habove, -, -, htake⟩ := h
  refine .single ?_ rfl rfl
  have hboundary : ¬ fromIndex ≤ node.durable.boundary := Nat.not_le.mpr habove
  simp only [Durable.record, hboundary, ite_false]
  refine congrArg some ?_
  have hlog : node.log.take (node.vecIndex fromIndex) ++
      log.drop (node.vecIndex fromIndex) = log := by
    rw [← htake, List.take_append_drop]
  exact congrArg (fun l => ({ node.durable with log := l } : Durable)) hlog

theorem prevLogSatisfied_le {request : AppendEntries}
    (h : node.prevLogSatisfied request = true) :
    request.prevLogIndex ≤ node.lastLogIndex := by
  simp only [prevLogSatisfied, Bool.or_eq_true, decide_eq_true_eq] at h
  rcases h with h | h
  · unfold lastLogIndex
    omega
  · exact termAt_le_lastLogIndex h

/-- The splice sent to storage after a merge records the merged log. -/
theorem persistChanged_persists {last merged : Node} {index : Nat}
    {entries : List LogEntry} {changed : Option Nat}
    {persistLog : List Effect} (hindex : index ≤ node.lastLogIndex + 1)
    (hmerge : node.mergeEntries none index entries = (merged, changed))
    (hlog : last.log = merged.log) (hsnapshot : last.snapshot = node.snapshot)
    (hpersist : last.persistChanged changed = some persistLog) :
    Persists node persistLog merged := by
  have hnothing : node.Written node.log none := rfl
  obtain ⟨hmerged, hwritten⟩ := mergeEntries_written node node rfl hnothing
    (by simp) hindex hmerge
  cases changed with
  | none =>
      cases hpersist
      have hsame : merged.log = node.log := hwritten
      exact .of_durable (by rw [hmerged]) (by rw [hmerged, hsame])
  | some fromIndex =>
      obtain ⟨entries, hentries, hpersist⟩ := Option.bind_eq_some_iff.mp hpersist
      cases hpersist
      have hdrop : entries = merged.log.drop (node.vecIndex fromIndex) := by
        simp only [entriesFrom, Option.ite_none_right_eq_some] at hentries
        rw [← Option.some.inj hentries.2, vecIndex_congr hsnapshot, hlog]
      rw [hdrop, hmerged]
      exact persists_written hwritten

theorem onAppendEntries_writeAhead {sender : NodeId} {request : AppendEntries}
    {effects : List Effect}
    (h : node.onAppendEntries sender request = some (node', effects)) :
    WriteAhead node effects node' := by
  have hreply : ∀ (n : Node) (success : Bool) (matchIndex : Nat),
      ∀ effect ∈ [n.appendReply sender success matchIndex],
        effect.isSend = true := by
    simp [appendReply, Effect.isSend]
  unfold onAppendEntries at h
  split at h
  · cases h
    exact .of_durable rfl rfl (hreply _ _ _)
  have hfollow := node.followLeader_persists request.term
  generalize hf : node.followLeader request.term = followed at h hfollow
  obtain ⟨follower, persistTerm⟩ := followed
  dsimp only at h hfollow
  split at h
  · cases h
    exact hfollow.sends (hreply _ _ _)
  rename_i hprev
  have hprev : follower.prevLogSatisfied request = true := by simpa using hprev
  generalize hm : follower.mergeEntries none (request.prevLogIndex + 1)
    request.entries = result at h
  obtain ⟨merged, changed⟩ := result
  dsimp only at h
  obtain ⟨persistLog, hlog, h⟩ := Option.bind_eq_some_iff.mp h
  cases h
  have hvolatile := followCommit_durable
    (if changed.isSome then merged.recomputeConfig else merged)
    request.leaderCommit
  have hrecompute : (if changed.isSome then merged.recomputeConfig
      else merged).durable = merged.durable ∧
      (if changed.isSome then merged.recomputeConfig else merged).id =
        merged.id := by
    split <;> exact ⟨rfl, rfl⟩
  have hsame : (if changed.isSome then merged.recomputeConfig
      else merged).log = merged.log ∧
      (if changed.isSome then merged.recomputeConfig else merged).snapshot =
        merged.snapshot := by
    split <;> exact ⟨rfl, rfl⟩
  have hsnapshot : merged.snapshot = follower.snapshot := by
    have hnothing : follower.Written follower.log none := rfl
    rw [(mergeEntries_written follower follower rfl hnothing (by simp)
      (Nat.succ_le_succ (prevLogSatisfied_le hprev)) hm).1]
  refine (hfollow.append (Persists.then_volatile ?_
    (hvolatile.2.trans hrecompute.2)
    (hvolatile.1.trans hrecompute.1))).sends (hreply _ _ _)
  refine persistChanged_persists
    (Nat.succ_le_succ (prevLogSatisfied_le hprev)) hm ?_ ?_ hlog
  · rw [followCommit_log, hsame.1]
  · rw [followCommit_snapshot, hsame.2, hsnapshot]

/-! ### Snapshots -/

theorem install_persists (node : Node) (request : InstallSnapshot) :
    Persists node
      [.persistSnapshot request.lastIncludedIndex request.lastIncludedTerm
          request.data request.config,
        .persistLog (request.lastIncludedIndex + 1) []]
      (node.install request) := by
  refine ⟨?_, by simp [Effect.isSend], rfl⟩
  rw [Durable.recordAll_snapshot]
  rfl

theorem onInstallSnapshot_writeAhead {sender : NodeId}
    {request : InstallSnapshot} {effects : List Effect}
    (h : node.onInstallSnapshot sender request = some (node', effects)) :
    WriteAhead node effects node' := by
  have hreply : ∀ (n : Node) (index : Nat),
      ∀ effect ∈ [n.snapshotReply sender index], effect.isSend = true := by
    simp [snapshotReply, Effect.isSend]
  unfold onInstallSnapshot at h
  split at h
  · cases h
    exact .of_durable rfl rfl (hreply _ _)
  have hfollow := node.followLeader_persists request.term
  generalize node.followLeader request.term = followed at h hfollow
  obtain ⟨follower, persistTerm⟩ := followed
  dsimp only at h hfollow
  split at h
  · cases h
    exact hfollow.sends (hreply _ _)
  · cases h
    have hall := (hfollow.append (follower.install_persists request)).sends
      (hreply (follower.install request) request.lastIncludedIndex)
    simpa using hall

/-- A compaction that does something moves the boundary up to a committed
index it still knows the term of, and drops the log below. -/
theorem compact_cases {upToIndex : Nat} {snapshotData : Bytes}
    {effects : List Effect}
    (h : node.compact upToIndex snapshotData = some (.ok (node', effects))) :
    (upToIndex ≤ node.snapshot.lastIncludedIndex ∧ node' = node ∧
        effects = []) ∨
      ∃ term config log, node.snapshot.lastIncludedIndex < upToIndex ∧
        upToIndex ≤ node.commitIndex ∧ node.termAt upToIndex = some term ∧
        log = node.log.drop (upToIndex - node.snapshot.lastIncludedIndex) ∧
        config = ((latestConfigurationIn (node.log.take
          (upToIndex - node.snapshot.lastIncludedIndex))
          node.snapshot.lastIncludedIndex).map Prod.fst).getD
            node.snapshotConfig ∧
        node' = { node with
          snapshotConfig := config
          log := log
          snapshot := ⟨upToIndex, term⟩
          snapshotData := snapshotData }.recomputeConfig ∧
        effects = [.persistSnapshot upToIndex term snapshotData config,
          .persistLog (upToIndex + 1) log] := by
  unfold compact at h
  split at h
  · rename_i hbelow
    cases h
    exact Or.inl ⟨hbelow, rfl, rfl⟩
  rename_i habove
  split at h
  · cases h
  rename_i hcommitted
  obtain ⟨term, hterm, h⟩ := Option.bind_eq_some_iff.mp h
  dsimp only at h
  obtain ⟨rest, hrest, h⟩ := Option.bind_eq_some_iff.mp h
  cases h
  have hindex : node.vecIndex upToIndex + 1 =
      upToIndex - node.snapshot.lastIncludedIndex := by
    unfold vecIndex
    omega
  simp only [entriesFrom, vecIndex, recomputeConfig,
    Option.ite_none_right_eq_some, Nat.add_sub_cancel_left, Nat.sub_self,
    List.drop_zero, Option.some.injEq] at hrest
  refine Or.inr ⟨term, _, _, Nat.not_le.mp habove, Nat.not_lt.mp hcommitted,
    hterm, rfl, rfl, ?_, ?_⟩
  · rw [← hindex]
    cases latestConfigurationIn (node.log.take (node.vecIndex upToIndex + 1))
      node.snapshot.lastIncludedIndex <;> rfl
  · rw [← hrest.2, ← hindex]
    cases latestConfigurationIn (node.log.take (node.vecIndex upToIndex + 1))
      node.snapshot.lastIncludedIndex <;> rfl

theorem compact_persists {upToIndex : Nat} {snapshotData : Bytes}
    {effects : List Effect}
    (h : node.compact upToIndex snapshotData = some (.ok (node', effects))) :
    Persists node effects node' := by
  rcases compact_cases h with ⟨-, rfl, rfl⟩ |
    ⟨term, config, log, -, -, -, -, -, rfl, rfl⟩
  · exact .refl node'
  · refine ⟨?_, by simp [Effect.isSend], rfl⟩
    rw [Durable.recordAll_snapshot]
    rfl

/-! ### Commitment -/

theorem retireIfExcluded_durable (node : Node) :
    node.retireIfExcluded.durable = node.durable ∧
      node.retireIfExcluded.id = node.id := by
  unfold retireIfExcluded
  split <;> exact ⟨rfl, rfl⟩

theorem commitTo_durable (node : Node) (candidate : Nat) :
    (node.commitTo candidate).durable = node.durable ∧
      (node.commitTo candidate).id = node.id := by
  unfold commitTo
  split <;> exact ⟨rfl, rfl⟩

theorem push_persists (node : Node) (entry : LogEntry) :
    Persists node
      [.persistLog (node.push entry).recomputeConfig.lastLogIndex [entry]]
      (node.push entry).recomputeConfig := by
  have hindex : (node.push entry).recomputeConfig.lastLogIndex =
      node.durable.boundary + node.durable.log.length + 1 := by
    simp [lastLogIndex, recomputeConfig, push, durable, Durable.boundary,
      Nat.add_assoc]
  refine .single ?_ rfl rfl
  rw [hindex, Durable.record_persistLog _ _ (by omega)]
  rw [show node.durable.boundary + node.durable.log.length + 1 -
    node.durable.boundary - 1 = node.durable.log.length by omega,
    List.take_length]
  rfl

/-- What one call does: commit, and either stop or append the follow-up of a
committed joint configuration and call again. -/
theorem advanceCommitIndex_cases {effects : List Effect}
    (h : node.advanceCommitIndex = some (node', effects)) :
    ∃ candidate, node.commitCandidate = some candidate ∧
      (((node.commitTo candidate).jointCommitted = false ∧
          node' = (node.commitTo candidate).retireIfExcluded ∧ effects = []) ∨
        ((node.commitTo candidate).jointCommitted = true ∧
          ∃ last rest, ((node.commitTo candidate).push
              (node.commitTo candidate).followUp).recomputeConfig.advanceCommitIndex =
              some (last, rest) ∧
            node' = last.retireIfExcluded ∧
            effects = .persistLog ((node.commitTo candidate).push
              (node.commitTo candidate).followUp).recomputeConfig.lastLogIndex
              [(node.commitTo candidate).followUp] :: rest)) := by
  rw [advanceCommitIndex] at h
  split at h
  · cases h
  · rename_i candidate hcandidate
    refine ⟨candidate, hcandidate, ?_⟩
    split at h
    · rename_i hjoint
      dsimp only at h
      split at h
      · cases h
      · rename_i last rest hrest
        cases h
        exact Or.inr ⟨hjoint, last, rest, hrest, rfl, rfl⟩
    · rename_i hjoint
      cases h
      exact Or.inl ⟨by simpa using hjoint, rfl, rfl⟩

/-- The call after a follow-up finds a plain configuration and stops. -/
theorem advanceCommitIndex_plain {effects : List Effect}
    (hplain : node.currentConfig.oldVoters = none)
    (h : node.advanceCommitIndex = some (node', effects)) :
    ∃ candidate, node.commitCandidate = some candidate ∧
      node' = (node.commitTo candidate).retireIfExcluded ∧ effects = [] := by
  obtain ⟨candidate, hcandidate, ⟨-, hnode, heffects⟩ | ⟨hjoint, -⟩⟩ :=
    advanceCommitIndex_cases h
  · exact ⟨candidate, hcandidate, hnode, heffects⟩
  · simp [jointCommitted, hplain] at hjoint

theorem advanceCommitIndex_persists {effects : List Effect}
    (h : node.advanceCommitIndex = some (node', effects)) :
    Persists node effects node' := by
  obtain ⟨candidate, -, ⟨-, rfl, rfl⟩ | ⟨-, last, rest, hrest, rfl, rfl⟩⟩ :=
    advanceCommitIndex_cases h
  · exact (Persists.of_durable (retireIfExcluded_durable _).2
      (retireIfExcluded_durable _).1).of_volatile
      (commitTo_durable _ _).2 (commitTo_durable _ _).1
  · obtain ⟨candidate', -, rfl, rfl⟩ := advanceCommitIndex_plain
      (by rw [recomputeConfig_push_followUp]) hrest
    refine ((push_persists _ _).then_volatile ?_ ?_).of_volatile
      (commitTo_durable _ _).2 (commitTo_durable _ _).1
    · rw [(retireIfExcluded_durable _).2, (retireIfExcluded_durable _).2,
        (commitTo_durable _ _).2]
    · rw [(retireIfExcluded_durable _).1, (retireIfExcluded_durable _).1,
        (commitTo_durable _ _).1]

theorem appendOwn_persists {entry : LogEntry} {index : Nat}
    {effects : List Effect}
    (h : node.appendOwn entry = some (node', index, effects)) :
    Persists node effects node' := by
  unfold appendOwn at h
  dsimp only at h
  obtain ⟨⟨last, rest⟩, hadvance, h⟩ := Option.bind_eq_some_iff.mp h
  cases h
  exact (node.push_persists entry).cons (advanceCommitIndex_persists hadvance)

/-! ### Responses and owner requests -/

theorem onInstallSnapshotResponse_writeAhead {sender : NodeId}
    {response : InstallSnapshotResponse} {effects : List Effect}
    (h : node.onInstallSnapshotResponse sender response =
      some (node', effects)) : WriteAhead node effects node' := by
  unfold onInstallSnapshotResponse at h
  split at h
  · cases h
    exact (node.stepDown_persists response.term).writeAhead
  split at h
  · cases h
    exact .refl node
  obtain ⟨matchIndex, -, h⟩ := Option.bind_eq_some_iff.mp h
  obtain ⟨⟨next, persist⟩, hadvance, h⟩ := Option.bind_eq_some_iff.mp h
  obtain ⟨more, hmore, h⟩ := Option.bind_eq_some_iff.mp h
  cases h
  exact (((advanceCommitIndex_persists hadvance).sends
    (continueReplication_sends hmore))).of_volatile rfl rfl

theorem onAppendEntriesResponse_writeAhead {sender : NodeId}
    {response : AppendEntriesResponse} {effects : List Effect}
    (h : node.onAppendEntriesResponse sender response =
      some (node', effects)) : WriteAhead node effects node' := by
  unfold onAppendEntriesResponse at h
  split at h
  · cases h
    exact (node.stepDown_persists response.term).writeAhead
  split at h
  · cases h
    exact .refl node
  split at h
  · obtain ⟨matchIndex, -, h⟩ := Option.bind_eq_some_iff.mp h
    obtain ⟨⟨next, persist⟩, hadvance, h⟩ := Option.bind_eq_some_iff.mp h
    obtain ⟨more, hmore, h⟩ := Option.bind_eq_some_iff.mp h
    cases h
    exact ((advanceCommitIndex_persists hadvance).sends
      (continueReplication_sends hmore)).of_volatile rfl rfl
  · obtain ⟨nextIndex, -, h⟩ := Option.bind_eq_some_iff.mp h
    dsimp only at h
    obtain ⟨more, hmore, h⟩ := Option.bind_eq_some_iff.mp h
    cases h
    exact .of_durable rfl rfl (continueReplication_sends hmore)

/-- Writing a set out as a list and reading it back gives the set. -/
theorem ofList_toList (set : NodeSet) :
    Std.ExtTreeSet.ofList set.toList = set := by
  refine Std.ExtTreeSet.ext_mem (fun id => ?_)
  rw [Std.ExtTreeSet.mem_ofList, List.contains_iff_mem,
    Std.ExtTreeSet.mem_toList]

theorem learners_persists (node : Node) (learners : NodeSet) (next matched : Progress) :
    Persists node [.persistLearners learners.toList]
      { node with learners, nextIndex := next, matchIndex := matched } := by
  refine .single ?_ rfl rfl
  simp only [Durable.record, ofList_toList]
  rfl

theorem addLearner_persists (node : Node) (id : NodeId) :
    Persists node (node.addLearner id).2 (node.addLearner id).1 := by
  unfold addLearner
  split
  · exact .refl node
  · exact node.learners_persists _ _ _

theorem removeLearner_persists (node : Node) (id : NodeId) :
    Persists node (node.removeLearner id).2 (node.removeLearner id).1 := by
  unfold removeLearner
  split
  · exact .refl node
  · exact node.learners_persists _ _ _

theorem propose_persists {command : Bytes} {index : Nat}
    {effects : List Effect}
    (h : node.propose command = some (some (node', index, effects))) :
    Persists node effects node' := by
  unfold propose at h
  split at h
  · cases h
  · obtain ⟨appended, happended, h⟩ := Option.bind_eq_some_iff.mp h
    cases h
    exact appendOwn_persists happended

theorem dropPromoted_persists (node : Node) (newVoters : List NodeId) :
    Persists node (node.dropPromoted newVoters).2
      (node.dropPromoted newVoters).1 := by
  unfold dropPromoted
  dsimp only
  split
  · exact node.learners_persists _ node.nextIndex node.matchIndex
  · -- Nothing was filtered out, so the set is the one already stored.
    rename_i hsize
    refine .of_durable rfl ?_
    have hsize : (node.learners.filter
        (fun id => !newVoters.contains id)).size = node.learners.size := by
      simpa using hsize
    have hlist : (node.learners.filter
        (fun id => !newVoters.contains id)).toList = node.learners.toList := by
      rw [Std.ExtTreeSet.toList_filter]
      refine List.filter_eq_self.mpr (List.length_filter_eq_length_iff.mp ?_)
      rw [← Std.ExtTreeSet.toList_filter, Std.ExtTreeSet.length_toList,
        Std.ExtTreeSet.length_toList, hsize]
    have hset : node.learners.filter (fun id => !newVoters.contains id) =
        node.learners := by
      rw [← ofList_toList (node.learners.filter _), hlist, ofList_toList]
    simp only [durable, hset]

theorem proposeConfigChange_persists {newVoters : List NodeId} {index : Nat}
    {effects : List Effect}
    (h : node.proposeConfigChange newVoters =
      some (some (node', index, effects))) : Persists node effects node' := by
  unfold proposeConfigChange at h
  split at h
  · cases h
  have hdrop := node.dropPromoted_persists newVoters
  generalize node.dropPromoted newVoters = dropped at h hdrop
  obtain ⟨remaining, persist⟩ := dropped
  dsimp only at h hdrop
  obtain ⟨⟨last, index, rest⟩, happended, h⟩ := Option.bind_eq_some_iff.mp h
  cases h
  exact hdrop.append (appendOwn_persists happended)

/-- Every handled event is a write-ahead batch. -/
theorem step_writeAhead {event : Event} {effects : List Effect}
    (h : node.step event = some (node', effects)) :
    WriteAhead node effects node' := by
  cases event with
  | tick nextTimeout => exact onTick_writeAhead h
  | step sender message =>
      cases message with
      | requestVote request =>
          simp only [step] at h
          split at h
          · cases h
            exact .refl node
          split at h
          · cases h
            exact .refl node
          · exact onRequestVote_writeAhead h
      | requestVoteResponse response =>
          simp only [step] at h
          split at h
          · cases h
            exact .refl node
          · exact onRequestVoteResponse_writeAhead h
      | appendEntries request =>
          simp only [step] at h
          split at h
          · cases h
            exact .refl node
          · exact onAppendEntries_writeAhead h
      | appendEntriesResponse response =>
          simp only [step] at h
          split at h
          · cases h
            exact .refl node
          · exact onAppendEntriesResponse_writeAhead h
      | installSnapshot request =>
          simp only [step] at h
          split at h
          · cases h
            exact .refl node
          · exact onInstallSnapshot_writeAhead h
      | installSnapshotResponse response =>
          simp only [step] at h
          split at h
          · cases h
            exact .refl node
          · exact onInstallSnapshotResponse_writeAhead h

theorem perform_writeAhead {operation : Operation} {effects : List Effect}
    (h : node.perform operation = some (node', effects)) :
    WriteAhead node effects node' := by
  cases operation with
  | tick nextTimeout =>
      have hstep : node.step (.tick nextTimeout) = some (node', effects) := h
      exact step_writeAhead hstep
  | receive sender message =>
      have hstep : node.step (.step sender message) =
        some (node', effects) := h
      exact step_writeAhead hstep
  | propose command =>
      obtain ⟨answer, hanswer, h⟩ := Option.bind_eq_some_iff.mp h
      rcases answer with _ | ⟨last, index, rest⟩
      · cases h
        exact .refl node
      · cases h
        exact (propose_persists hanswer).writeAhead
  | proposeConfigChange newVoters =>
      obtain ⟨answer, hanswer, h⟩ := Option.bind_eq_some_iff.mp h
      rcases answer with _ | ⟨last, index, rest⟩
      · cases h
        exact .refl node
      · cases h
        exact (proposeConfigChange_persists hanswer).writeAhead
  | addLearner id =>
      obtain rfl := congrArg Prod.fst (Option.some.inj h)
      obtain rfl := congrArg Prod.snd (Option.some.inj h)
      exact (node.addLearner_persists id).writeAhead
  | removeLearner id =>
      obtain rfl := congrArg Prod.fst (Option.some.inj h)
      obtain rfl := congrArg Prod.snd (Option.some.inj h)
      exact (node.removeLearner_persists id).writeAhead
  | compact upToIndex snapshotData =>
      obtain ⟨answer, hanswer, h⟩ := Option.bind_eq_some_iff.mp h
      rcases answer with _ | ⟨last, rest⟩
      · cases h
        exact .refl node
      · cases h
        exact (compact_persists hanswer).writeAhead

end Node

end Kurogane.Raft
