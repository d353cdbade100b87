import Kurogane.Raft.LogSources
import Kurogane.Runtime.CrashAtomicity
import Kurogane.Runtime.JoiningNode

/-!
The learners of a node and the voters of the configuration it works by. Only a
leader stores learners; the one that promotes a learner drops it before it stores
the entry that does. What else a storage keeps after a crash, the node held
before or after the request.
-/

namespace Kurogane.Raft

/-- None of `learners` votes in `config`. -/
def ClusterConfig.LeavesOut (config : ClusterConfig) (learners : NodeSet) : Prop :=
  ∀ id ∈ learners, config.isVoter id = false

instance (config : ClusterConfig) (learners : NodeSet) :
    Decidable (config.LeavesOut learners) :=
  decidable_of_iff (∀ id ∈ learners.toList, config.isVoter id = false)
    ⟨fun h id hid => h id (Std.ExtTreeSet.mem_toList.mpr hid),
      fun h id hid => h id (Std.ExtTreeSet.mem_toList.mp hid)⟩

/-- The effect leaves the snapshot and the learners as they are stored. -/
def Effect.keepsBase : Effect → Bool
  | .persistSnapshot _ _ _ _ | .persistLearners _ => false
  | _ => true

def KeepBase (effects : List Effect) : Prop :=
  ∀ effect ∈ effects, effect.keepsBase = true

theorem KeepBase.append {first second : List Effect} (hfirst : KeepBase first)
    (hsecond : KeepBase second) : KeepBase (first ++ second) :=
  List.forall_mem_append.mpr ⟨hfirst, hsecond⟩

/-- Such a batch stores no learners. -/
theorem KeepBase.lists {effects : List Effect} (hbase : KeepBase effects)
    {learners : List NodeId} {P : Prop} (hmem : .persistLearners learners ∈ effects) : P := by
  cases hbase _ hmem

theorem keepBase_of_sends {effects : List Effect}
    (h : ∀ effect ∈ effects, effect.isSend = true) : KeepBase effects := by
  intro effect hmem
  have hsend := h effect hmem
  cases effect <;> first | rfl | cases hsend

namespace Node

variable {node node' : Node} {effects : List Effect}

/-- No learner of the node votes in the configuration it works by. -/
def Apart (node : Node) : Prop := node.currentConfig.LeavesOut node.learners

instance (node : Node) : Decidable node.Apart :=
  inferInstanceAs (Decidable (node.currentConfig.LeavesOut node.learners))

/-- The configuration in force after what the node knows to be committed. -/
def committedConfig (node : Node) : ClusterConfig :=
  ((latestConfigurationIn
    (node.log.take (node.commitIndex - node.snapshot.lastIncludedIndex))
    node.snapshot.lastIncludedIndex).map Prod.fst).getD node.snapshotConfig

/-! ### Batches that leave snapshot and learners alone -/

theorem keepBase_persistHardState (other : Node) (due : Bool) :
    KeepBase (if due then [other.persistHardState] else []) := by
  cases due <;> simp [KeepBase, persistHardState, Effect.keepsBase]

theorem keepBase_send (receiver : NodeId) (message : Message) :
    KeepBase [.send receiver message] := by
  simp [KeepBase, Effect.keepsBase]

theorem onTick_keepBase {nextTimeout : Nat}
    (h : node.onTick nextTimeout = some (node', effects)) : KeepBase effects := by
  unfold onTick at h
  split at h
  · unfold onLeaderTick at h
    dsimp only at h
    split at h
    · cases h
      simp [KeepBase]
    · obtain ⟨sends, hsends, h⟩ := Option.bind_eq_some_iff.mp h
      cases h
      exact keepBase_of_sends (broadcastReplication_sends hsends)
  dsimp only at h
  split at h
  · cases h
    simp [KeepBase]
  unfold startElection at h
  split at h
  · cases h
    simp [KeepBase]
  dsimp only at h
  split at h
  · obtain ⟨⟨leader, sends⟩, hleader, h⟩ := Option.bind_eq_some_iff.mp h
    obtain ⟨_, hsends, hleader⟩ := Option.bind_eq_some_iff.mp hleader
    cases hleader
    cases h
    exact (keepBase_persistHardState _ true).append
      (keepBase_of_sends (broadcastReplication_sends hsends))
  · cases h
    exact (keepBase_persistHardState _ true).append
      (keepBase_of_sends (requestVotes_sends _))

theorem onRequestVote_keepBase {sender : NodeId} {request : RequestVote}
    (h : node.onRequestVote sender request = some (node', effects)) :
    KeepBase effects := by
  unfold onRequestVote at h
  split at h
  · cases h
    exact keepBase_send _ _
  split at h
  · cases h
    exact keepBase_send _ _
  split at h
  · cases h
    exact keepBase_send _ _
  · cases h
    exact (keepBase_persistHardState _ _).append (keepBase_send _ _)

theorem onRequestVoteResponse_keepBase {sender : NodeId}
    {response : RequestVoteResponse}
    (h : node.onRequestVoteResponse sender response = some (node', effects)) :
    KeepBase effects := by
  unfold onRequestVoteResponse at h
  split at h
  · cases h
    exact keepBase_persistHardState _ true
  split at h
  · cases h
    simp [KeepBase]
  split at h
  · dsimp only at h
    split at h
    · obtain ⟨_, hsends, h⟩ := Option.bind_eq_some_iff.mp h
      cases h
      exact keepBase_of_sends (broadcastReplication_sends hsends)
    · cases h
      simp [KeepBase]
  · cases h
    simp [KeepBase]

theorem onAppendEntries_keepBase {sender : NodeId} {request : AppendEntries}
    (h : node.onAppendEntries sender request = some (node', effects)) :
    KeepBase effects := by
  unfold onAppendEntries at h
  split at h
  · cases h
    exact keepBase_send _ _
  have hfollow : KeepBase (node.followLeader request.term).2 :=
    keepBase_persistHardState _ _
  generalize node.followLeader request.term = followed at *
  obtain ⟨follower, persistTerm⟩ := followed
  dsimp only at h hfollow
  split at h
  · cases h
    exact hfollow.append (keepBase_send _ _)
  · obtain ⟨persistLog, hpersist, h⟩ := Option.bind_eq_some_iff.mp h
    cases h
    apply (hfollow.append _).append (keepBase_send _ _)
    generalize (follower.mergeEntries none (request.prevLogIndex + 1)
      request.entries).2 = changed at hpersist
    cases changed with
    | none =>
        cases hpersist
        simp [KeepBase]
    | some fromIndex =>
        obtain ⟨entries, -, hpersist⟩ := Option.bind_eq_some_iff.mp hpersist
        cases hpersist
        simp [KeepBase, Effect.keepsBase]

theorem advanceCommitIndex_keepBase
    (h : node.advanceCommitIndex = some (node', effects)) : KeepBase effects := by
  obtain ⟨candidate, -, ⟨-, -, rfl⟩ | ⟨-, last, rest, hrest, -, rfl⟩⟩ :=
    advanceCommitIndex_cases h
  · simp [KeepBase]
  · obtain ⟨candidate', -, -, rfl⟩ := advanceCommitIndex_plain
      (by rw [recomputeConfig_push_followUp]) hrest
    simp [KeepBase, Effect.keepsBase]

theorem onAppendEntriesResponse_keepBase {sender : NodeId}
    {response : AppendEntriesResponse}
    (h : node.onAppendEntriesResponse sender response = some (node', effects)) :
    KeepBase effects := by
  unfold onAppendEntriesResponse at h
  split at h
  · cases h
    exact keepBase_persistHardState _ true
  split at h
  · cases h
    simp [KeepBase]
  split at h
  · obtain ⟨matchIndex, -, h⟩ := Option.bind_eq_some_iff.mp h
    obtain ⟨⟨last, first⟩, hadvance, h⟩ := Option.bind_eq_some_iff.mp h
    obtain ⟨more, hmore, h⟩ := Option.bind_eq_some_iff.mp h
    cases h
    exact (advanceCommitIndex_keepBase hadvance).append
      (keepBase_of_sends (continueReplication_sends hmore))
  · obtain ⟨nextIndex, -, h⟩ := Option.bind_eq_some_iff.mp h
    obtain ⟨more, hmore, h⟩ := Option.bind_eq_some_iff.mp h
    cases h
    exact keepBase_of_sends (continueReplication_sends hmore)

theorem onInstallSnapshotResponse_keepBase {sender : NodeId}
    {response : InstallSnapshotResponse}
    (h : node.onInstallSnapshotResponse sender response = some (node', effects)) :
    KeepBase effects := by
  unfold onInstallSnapshotResponse at h
  split at h
  · cases h
    exact keepBase_persistHardState _ true
  split at h
  · cases h
    simp [KeepBase]
  · obtain ⟨matchIndex, -, h⟩ := Option.bind_eq_some_iff.mp h
    obtain ⟨⟨last, first⟩, hadvance, h⟩ := Option.bind_eq_some_iff.mp h
    obtain ⟨more, hmore, h⟩ := Option.bind_eq_some_iff.mp h
    cases h
    exact (advanceCommitIndex_keepBase hadvance).append
      (keepBase_of_sends (continueReplication_sends hmore))

/-! ### Who lists learners -/

theorem appendOwn_keepBase {entry : LogEntry} {index : Nat}
    (h : node.appendOwn entry = some (node', index, effects)) : KeepBase effects := by
  obtain ⟨⟨last, rest⟩, hadvance, h⟩ := Option.bind_eq_some_iff.mp h
  cases h
  exact List.forall_mem_cons.mpr ⟨rfl, advanceCommitIndex_keepBase hadvance⟩

theorem onInstallSnapshot_lists {sender : NodeId} {request : InstallSnapshot}
    {learners : List NodeId}
    (h : node.onInstallSnapshot sender request = some (node', effects)) :
    .persistLearners learners ∉ effects := by
  intro hmem
  unfold Node.onInstallSnapshot at h
  split at h
  · cases h
    simp [snapshotReply] at hmem
  have hfollow : KeepBase (node.followLeader request.term).2 :=
    keepBase_persistHardState _ _
  generalize node.followLeader request.term = followed at *
  obtain ⟨follower, persistTerm⟩ := followed
  dsimp only at h hfollow
  split at h
  · cases h
    rcases List.mem_append.mp hmem with hearly | hlate
    · exact hfollow.lists hearly
    · simp [snapshotReply] at hlate
  · cases h
    rcases List.mem_append.mp hmem with hearly | hlate
    · exact hfollow.lists hearly
    · simp [snapshotReply] at hlate

theorem receive_lists {sender : NodeId} {message : Message} {learners : List NodeId}
    (h : node.step (.step sender message) = some (node', effects)) :
    .persistLearners learners ∉ effects := by
  intro hmem
  have hignored : some (node, []) = some (node', effects) → False := by
    intro heq
    cases heq
    cases hmem
  cases message with
  | requestVote request =>
      simp only [step] at h
      split at h
      · exact hignored h
      split at h
      · exact hignored h
      · exact (onRequestVote_keepBase h).lists hmem
  | requestVoteResponse response =>
      simp only [step] at h
      split at h
      · exact hignored h
      · exact (onRequestVoteResponse_keepBase h).lists hmem
  | appendEntries request =>
      simp only [step] at h
      split at h
      · exact hignored h
      · exact (onAppendEntries_keepBase h).lists hmem
  | appendEntriesResponse response =>
      simp only [step] at h
      split at h
      · exact hignored h
      · exact (onAppendEntriesResponse_keepBase h).lists hmem
  | installSnapshot request =>
      simp only [step] at h
      split at h
      · exact hignored h
      · exact onInstallSnapshot_lists h hmem
  | installSnapshotResponse response =>
      simp only [step] at h
      split at h
      · exact hignored h
      · exact (onInstallSnapshotResponse_keepBase h).lists hmem

theorem mem_of_ofList {learners : NodeSet} {id : NodeId} {listed : List NodeId}
    (heq : listed = learners.toList) (hmem : id ∈ listed) : id ∈ learners :=
  Std.ExtTreeSet.mem_toList.mp (heq ▸ hmem)

/-- Only a leader stores learners, those it has and the one it is asked to add. -/
theorem perform_lists {operation : Operation} {learners : List NodeId}
    (h : node.perform operation = some (node', effects))
    (hmem : .persistLearners learners ∈ effects) :
    node.role = .leader ∧
      ∀ id ∈ learners, id ∈ node.learners ∨ operation = .addLearner id := by
  cases operation with
  | tick nextTimeout =>
      have htick : node.onTick nextTimeout = some (node', effects) := h
      exact (onTick_keepBase htick).lists hmem
  | receive sender message => exact absurd hmem (receive_lists h)
  | propose command =>
      obtain ⟨answer, hanswer, h⟩ := Option.bind_eq_some_iff.mp h
      unfold propose at hanswer
      split at hanswer
      · cases hanswer
        cases h
        cases hmem
      · obtain ⟨appended, happended, hanswer⟩ := Option.bind_eq_some_iff.mp hanswer
        cases hanswer
        cases h
        exact (appendOwn_keepBase happended).lists hmem
  | proposeConfigChange newVoters =>
      obtain ⟨answer, hanswer, h⟩ := Option.bind_eq_some_iff.mp h
      unfold Node.proposeConfigChange at hanswer
      split at hanswer
      · cases hanswer
        cases h
        cases hmem
      · rename_i hserves
        simp only [not_or, not_not] at hserves
        refine ⟨hserves.1, fun id hid => Or.inl ?_⟩
        dsimp only at hanswer
        obtain ⟨⟨last, index, rest⟩, happended, hanswer⟩ :=
          Option.bind_eq_some_iff.mp hanswer
        cases hanswer
        cases h
        rcases List.mem_append.mp hmem with hdropped | hlater
        · have hkept : learners =
              (node.learners.filter (fun id => !newVoters.contains id)).toList := by
            unfold Node.dropPromoted persistLearners at hdropped
            dsimp only at hdropped
            split at hdropped
            · rw [List.mem_singleton] at hdropped
              cases hdropped
              rfl
            · cases hdropped
          exact (Std.ExtTreeSet.mem_filter.mp (mem_of_ofList hkept hid)).1
        · exact (appendOwn_keepBase happended).lists hlater
  | addLearner other =>
      obtain rfl := congrArg Prod.snd (Option.some.inj h)
      unfold Node.addLearner at hmem
      split at hmem
      · cases hmem
      · rename_i hserves
        simp only [not_or, not_not] at hserves
        refine ⟨hserves.1, fun id hid => ?_⟩
        rw [List.mem_singleton] at hmem
        cases hmem
        rcases Std.ExtTreeSet.mem_insert.mp (mem_of_ofList rfl hid) with heq | hold
        · exact Or.inr (congrArg _ (Std.LawfulEqCmp.eq_of_compare heq))
        · exact Or.inl hold
  | removeLearner other =>
      obtain rfl := congrArg Prod.snd (Option.some.inj h)
      unfold Node.removeLearner at hmem
      split at hmem
      · cases hmem
      · rename_i hserves
        simp only [not_or, not_not] at hserves
        refine ⟨hserves.1, fun id hid => Or.inl ?_⟩
        rw [List.mem_singleton] at hmem
        cases hmem
        exact Std.ExtTreeSet.mem_of_mem_erase (mem_of_ofList rfl hid)
  | compact upToIndex snapshotData =>
      obtain ⟨answer, hanswer, h⟩ := Option.bind_eq_some_iff.mp h
      rcases answer with _ | ⟨last, rest⟩
      · cases h
        cases hmem
      · cases h
        rcases compact_cases hanswer with ⟨-, -, rfl⟩ |
          ⟨term, config, log, -, -, -, -, -, -, rfl⟩
        · cases hmem
        · simp at hmem

/-- A leader that promotes some of its learners stores the others first. -/
theorem proposeConfigChange_stores_first {newVoters : List NodeId} {id : NodeId}
    (hrole : node.role = .leader)
    (h : node.perform (.proposeConfigChange newVoters) = some (node', effects))
    (hid : id ∈ newVoters) (hlearner : id ∈ node.learners) :
    ∃ learners rest, effects = .persistLearners learners :: rest ∧ id ∉ learners ∧
      KeepBase rest := by
  obtain ⟨answer, hanswer, h⟩ := Option.bind_eq_some_iff.mp h
  unfold Node.proposeConfigChange at hanswer
  rw [if_neg (by simp [hrole, List.ne_nil_of_mem hid])] at hanswer
  dsimp only at hanswer
  obtain ⟨⟨last, index, rest⟩, happended, hanswer⟩ := Option.bind_eq_some_iff.mp hanswer
  cases hanswer
  cases h
  have hout : id ∉ node.learners.filter (fun id => !newVoters.contains id) := by
    intro hmem
    have hnew := (Std.ExtTreeSet.mem_filter.mp hmem).2
    simp [hid] at hnew
  have hshrinks : (node.learners.filter (fun id => !newVoters.contains id)).size ≠
      node.learners.size := by
    intro hsize
    have hkept := Std.ExtTreeSet.size_filter_eq_size_iff.mp hsize id hlearner
    rw [Std.ExtTreeSet.get_eq] at hkept
    simp [hid] at hkept
  refine ⟨(node.learners.filter (fun id => !newVoters.contains id)).toList, rest, ?_, ?_,
    appendOwn_keepBase happended⟩
  · unfold Node.dropPromoted
    dsimp only
    rw [if_pos hshrinks]
    rfl
  · exact fun hmem => hout (Std.ExtTreeSet.mem_toList.mp hmem)

/-- A crash between the effects of a batch that leaves the snapshot apart from
its splice is no crash that tears the log. -/
theorem not_torn_of_last {operation : Operation} {written : Nat}
    (h : node.perform operation = some (node', effects))
    (hlast : ∀ index term data config, (effects.take written).getLast? ≠
      some (.persistSnapshot index term data config)) :
    ¬ node.Torn operation written := by
  rintro ⟨index, hmoves, -⟩
  cases operation with
  | compact upToIndex snapshotData =>
      simp only [movesBoundary, Option.ite_none_right_eq_some, Option.some.injEq,
        Prod.mk.injEq] at hmoves
      obtain ⟨⟨hlow, hhigh⟩, -, rfl⟩ := hmoves
      obtain ⟨answer, hanswer, h⟩ := Option.bind_eq_some_iff.mp h
      rcases answer with _ | ⟨last, rest⟩
      · unfold Node.compact at hanswer
        rw [if_neg (Nat.not_le.mpr hlow), if_neg (Nat.not_lt.mpr hhigh)] at hanswer
        obtain ⟨term, -, hanswer⟩ := Option.bind_eq_some_iff.mp hanswer
        obtain ⟨entries, -, hanswer⟩ := Option.bind_eq_some_iff.mp hanswer
        cases hanswer
      · cases h
        rcases compact_cases hanswer with ⟨hbelow, -⟩ |
          ⟨term, config, log, -, -, -, -, -, -, rfl⟩
        · omega
        · exact hlast _ _ _ _ rfl
  | receive sender message =>
      cases message with
      | installSnapshot request =>
          simp only [movesBoundary, Option.ite_none_right_eq_some, Option.some.injEq,
            Prod.mk.injEq] at hmoves
          obtain ⟨⟨hsender, hterm, hnew⟩, -, hwritten⟩ := hmoves
          have hstep : node.onInstallSnapshot sender request = some (node', effects) := by
            have hstep : node.step (.step sender (.installSnapshot request)) = _ := h
            simpa only [step, hsender, ne_eq, not_true_eq_false, if_false] using hstep
          have hknows : (node.followLeader request.term).1.alreadyCovered request = false := by
            obtain ⟨hlog, hsnapshot, -⟩ := node.followLeader_log request.term
            rw [← hnew]
            unfold alreadyCovered
            rw [termAt_congr hlog hsnapshot]
          have hcount : written = (node.followLeader request.term).2.length + 1 := by
            rw [← hwritten]
            unfold followLeader
            dsimp only
            by_cases hlater : node.currentTerm < request.term <;> simp [hlater]
          unfold Node.onInstallSnapshot at hstep
          rw [if_neg (Nat.not_lt.mpr hterm)] at hstep
          dsimp only at hstep
          rw [hknows] at hstep
          cases hstep
          refine hlast request.lastIncludedIndex request.lastIncludedTerm request.data
            request.config ?_
          rw [hcount, List.take_append, List.take_of_length_le (Nat.le_succ _),
            Nat.add_sub_cancel_left]
          simp
      | _ => cases hmoves
  | _ => cases hmoves

/-- The boundary moves to the snapshot that is received, or to the configuration
of the part of the log that a compaction drops. -/
theorem perform_base {operation : Operation}
    (h : node.perform operation = some (node', effects)) :
    (node'.snapshot = node.snapshot ∧ node'.snapshotConfig = node.snapshotConfig) ∨
      (∃ sender message, operation = .receive sender message ∧
        message.Rests node'.snapshot.lastIncludedIndex node'.snapshotConfig) ∨
      ∃ upToIndex snapshotData, operation = .compact upToIndex snapshotData ∧
        node.snapshot.lastIncludedIndex < upToIndex ∧ upToIndex ≤ node.commitIndex ∧
        node'.snapshot.lastIncludedIndex = upToIndex ∧
        node'.snapshotConfig = ((latestConfigurationIn (node.log.take
          (upToIndex - node.snapshot.lastIncludedIndex))
          node.snapshot.lastIncludedIndex).map Prod.fst).getD node.snapshotConfig := by
  rcases perform_boundary h with hsame | hmoves
  · exact Or.inl hsame
  cases hmoves with
  | @install request hterm hboundary hconfig =>
      exact Or.inr (Or.inl ⟨_, _, rfl, hboundary.symm, hconfig.symm⟩)
  | @compact upToIndex snapshotData hlow hhigh hboundary =>
      refine Or.inr (Or.inr ⟨upToIndex, snapshotData, rfl, hlow, hhigh, hboundary, ?_⟩)
      obtain ⟨answer, hanswer, h⟩ := Option.bind_eq_some_iff.mp h
      rcases answer with _ | ⟨last, rest⟩
      · cases h
        omega
      · cases h
        rcases compact_cases hanswer with ⟨-, rfl, -⟩ |
          ⟨term, config, log, -, -, -, -, rfl, rfl, -⟩
        · omega
        · rfl

end Node

end Kurogane.Raft

namespace Kurogane.Runtime

open Kurogane.Raft

namespace Storage

variable {storage storage' : Storage} {effects : List Effect} {index : Nat}

/-- The storage has `entry` at `index`. -/
def Shows (storage : Storage) (index : Nat) (entry : LogEntry) : Prop :=
  storage.snapshot.lastIncludedIndex < index ∧
    storage.log[index - storage.snapshot.lastIncludedIndex - 1]? = some entry

/-- The storage has a snapshot that ends at `index`. -/
def Rests (storage : Storage) (index : Nat) (config : ClusterConfig) : Prop :=
  0 < index ∧ storage.snapshot.lastIncludedIndex = index ∧ storage.snapshotConfig = config

theorem shows_iff {durable : Durable} {entry : LogEntry}
    (hlog : storage.log = durable.log)
    (hboundary : storage.snapshot.lastIncludedIndex = durable.boundary) :
    storage.Shows index entry ↔ durable.entryAt index = some entry := by
  unfold Shows Durable.entryAt
  rw [hlog, hboundary]
  by_cases hindex : index ≤ durable.boundary
  · simp [hindex]
  · simp [hindex, Nat.not_le.mp hindex]

/-- A batch leaves the snapshot there was, or one that it stores. -/
theorem rests_applyAll : ∀ {effects : List Effect} {storage storage' : Storage}
    {config : ClusterConfig}, storage.applyAll effects = some storage' →
      storage'.Rests index config →
      storage.Rests index config ∨ ∃ effect ∈ effects, effect.Rests index config
  | [], storage, storage', config, happly, hrests => by
      cases happly
      exact Or.inl hrests
  | effect :: rest, storage, storage', config, happly, hrests => by
      obtain ⟨next, hnext, happly⟩ := Option.bind_eq_some_iff.mp happly
      rcases rests_applyAll happly hrests with hbefore | ⟨other, hmem, hother⟩
      · cases effect with
        | persistSnapshot lastIncludedIndex term data found =>
            cases hnext
            exact Or.inr ⟨_, List.mem_cons_self, hbefore.2⟩
        | persistLog fromIndex entries =>
            simp only [Storage.apply, Option.ite_none_left_eq_some] at hnext
            cases hnext.2
            exact Or.inl hbefore
        | _ =>
            cases hnext
            exact Or.inl hbefore
      · exact Or.inr ⟨other, List.mem_cons_of_mem _ hmem, hother⟩

/-- Learners are stored by an effect that lists them. -/
theorem learners_applyAll : ∀ {effects : List Effect} {storage storage' : Storage},
    storage.applyAll effects = some storage' →
      storage'.learners = storage.learners ∨
        .persistLearners storage'.learners ∈ effects
  | [], storage, storage', happly => by
      cases happly
      exact Or.inl rfl
  | effect :: rest, storage, storage', happly => by
      obtain ⟨next, hnext, happly⟩ := Option.bind_eq_some_iff.mp happly
      rcases learners_applyAll happly with hsame | hmem
      · cases effect with
        | persistLearners learners =>
            cases hnext
            refine Or.inr ?_
            rw [hsame]
            exact List.mem_cons_self
        | persistLog fromIndex entries =>
            simp only [Storage.apply, Option.ite_none_left_eq_some] at hnext
            cases hnext.2
            exact Or.inl hsame
        | _ =>
            cases hnext
            exact Or.inl hsame
      · exact Or.inr (List.mem_cons_of_mem _ hmem)

/-- The storage lists the learners of a node as long as it executes the batches
of that node. -/
theorem lists_applyAll : ∀ {effects : List Effect} {storage storage' : Storage}
    {durable durable' : Durable},
      Std.ExtTreeSet.ofList storage.learners = durable.learners →
      storage.applyAll effects = some storage' →
      durable.recordAll effects = some durable' →
      Std.ExtTreeSet.ofList storage'.learners = durable'.learners
  | [], storage, storage', durable, durable', h, happly, hrecord => by
      cases happly
      cases hrecord
      exact h
  | effect :: rest, storage, storage', durable, durable', h, happly, hrecord => by
      obtain ⟨next, hnext, happly⟩ := Option.bind_eq_some_iff.mp happly
      obtain ⟨later, hlater, hrecord⟩ := Option.bind_eq_some_iff.mp hrecord
      refine lists_applyAll ?_ happly hrecord
      cases effect with
      | persistLog fromIndex entries =>
          simp only [Storage.apply, Option.ite_none_left_eq_some] at hnext
          simp only [Durable.record, Option.ite_none_left_eq_some] at hlater
          cases hnext.2
          cases hlater.2
          exact h
      | persistLearners learners =>
          cases hnext
          cases hlater
          rfl
      | _ =>
          cases hnext
          cases hlater
          exact h

theorem mem_learners_iff {node : Node} {id : NodeId}
    (h : Std.ExtTreeSet.ofList storage.learners = node.learners) :
    id ∈ node.learners ↔ id ∈ storage.learners := by
  rw [← h, Std.ExtTreeSet.mem_ofList, List.contains_iff_mem]

/-- Serving a part of a request lists no learner but those there were and the
one that is asked for. -/
theorem served_lists {node node' : Node} {operation : Operation}
    (hlists : Std.ExtTreeSet.ofList storage.learners = node.learners)
    (hperform : node.perform operation = some (node', effects)) {written : Nat}
    (happly : storage.applyAll (effects.take written) = some storage') {id : NodeId}
    (hid : id ∈ storage'.learners) :
    id ∈ storage.learners ∨ operation = .addLearner id := by
  rcases learners_applyAll happly with hsame | hmem
  · exact Or.inl (hsame ▸ hid)
  · exact ((Node.perform_lists hperform (List.mem_of_mem_take hmem)).2 id hid).imp_left
      (mem_learners_iff hlists).mp

/-- Whom a storage lists for the first time a leader was asked to add, that has no
vote for it. -/
theorem served_adds {node node' : Node} {operation : Operation}
    (hlists : Std.ExtTreeSet.ofList storage.learners = node.learners)
    (hperform : node.perform operation = some (node', effects)) {written : Nat}
    (happly : storage.applyAll (effects.take written) = some storage') {id : NodeId}
    (hid : id ∈ storage'.learners) (hnew : id ∉ storage.learners) :
    operation = .addLearner id ∧ node.role = .leader ∧
      node.currentConfig.isVoter id = false := by
  obtain rfl := (served_lists hlists hperform happly hid).resolve_left hnew
  have hmem : .persistLearners storage'.learners ∈ effects := by
    rcases learners_applyAll happly with hsame | hmem
    · exact absurd (hsame ▸ hid) hnew
    · exact List.mem_of_mem_take hmem
  refine ⟨rfl, (Node.perform_lists hperform hmem).1, ?_⟩
  obtain rfl := congrArg Prod.snd (Option.some.inj hperform)
  unfold Node.addLearner at hmem
  split at hmem
  · cases hmem
  · rename_i hserves
    simp only [not_or, Bool.not_eq_true] at hserves
    exact hserves.2.2

/-- A leader that has begun to promote a learner does not list it any more. -/
theorem served_drops {node node' : Node} {newVoters : List NodeId} {id : NodeId}
    (hlists : Std.ExtTreeSet.ofList storage.learners = node.learners)
    (hrole : node.role = .leader)
    (hperform : node.perform (.proposeConfigChange newVoters) = some (node', effects))
    {written : Nat} (hwritten : effects ≠ [] → 0 < written)
    (happly : storage.applyAll (effects.take written) = some storage')
    (hid : id ∈ newVoters) : id ∉ storage'.learners := by
  intro hlisted
  rcases served_lists hlists hperform happly hlisted with hold | hadds
  · obtain ⟨learners, rest, rfl, hout, hrest⟩ := Node.proposeConfigChange_stores_first hrole
      hperform hid ((mem_learners_iff hlists).mpr hold)
    obtain ⟨written, rfl⟩ :=
      Nat.exists_eq_succ_of_ne_zero (hwritten (List.cons_ne_nil _ _)).ne'
    have happly : (storage.apply (.persistLearners learners) >>= fun next =>
        next.applyAll (rest.take written)) = some storage' := happly
    obtain ⟨next, hnext, happly⟩ := Option.bind_eq_some_iff.mp happly
    cases hnext
    rcases learners_applyAll happly with hsame | hmem
    · rw [hsame] at hlisted
      exact hout hlisted
    · exact hrest.lists (List.mem_of_mem_take hmem)
  · cases hadds

end Storage

end Kurogane.Runtime
