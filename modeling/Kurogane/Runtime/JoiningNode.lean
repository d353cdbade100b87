import Kurogane.Runtime.Process

/-!
A process started to join a running cluster. `Node::new_learner` starts from an
empty configuration, which no election starts from. After a restart `recover`
wraps the list of peers as the bootstrap configuration whenever there is no
snapshot, and that list names the process itself.
-/

namespace Kurogane.Raft

/-- A configuration entry that names `id` a voter, old or new. -/
def LogEntry.names (id : NodeId) (entry : LogEntry) : Bool :=
  match entry.payload with
  | .configuration config => config.isVoter id
  | .command _ => false

/-- The message brings a configuration that names `id`, in an entry or with a
snapshot. -/
def Message.Names (id : NodeId) : Message → Prop
  | .appendEntries request => ∃ entry ∈ request.entries, entry.names id = true
  | .installSnapshot request => request.config.isVoter id = true
  | _ => False

/-- The effect stores a configuration that names `id`. -/
def Effect.Names (id : NodeId) : Effect → Prop
  | .persistLog _ entries => ∃ entry ∈ entries, entry.names id = true
  | .persistSnapshot _ _ _ config => config.isVoter id = true
  | _ => False

namespace Node

variable {node node' : Node} {effects : List Effect}

/-- No snapshot and no configuration in `log`, so the bootstrap configuration
is in force, and it names the node. -/
def FallsBack (node : Node) (log : List LogEntry) : Prop :=
  node.snapshot.lastIncludedIndex = 0 ∧
    node.snapshotConfig.isVoter node.id = true ∧
    latestConfigurationIn log 0 = none

instance (node : Node) (log : List LogEntry) : Decidable (node.FallsBack log) :=
  inferInstanceAs (Decidable (_ ∧ _ ∧ _))

/-- No election starts from a bootstrap configuration the node fell back to,
and no snapshot is taken of it. -/
def StandsOnLog (node : Node) : Operation → Prop
  | .tick _ => node.role ≠ .leader →
      node.electionTimeout ≤ node.electionElapsed + 1 → ¬ node.FallsBack node.log
  | .compact upToIndex _ => node.snapshot.lastIncludedIndex < upToIndex →
      upToIndex ≤ node.commitIndex → ¬ node.FallsBack (node.log.take upToIndex)
  | _ => True

instance (node : Node) : DecidablePred node.StandsOnLog := fun operation =>
  match operation with
  | .tick _ => inferInstanceAs (Decidable (_ → _))
  | .compact _ _ => inferInstanceAs (Decidable (_ → _))
  | .receive _ _ | .propose _ | .proposeConfigChange _ | .addLearner _
  | .removeLearner _ => inferInstanceAs (Decidable True)

/-- The term moves only to the one of a message received. -/
def TermFollows (node : Node) (operation : Operation) (node' : Node) : Prop :=
  node'.currentTerm = node.currentTerm ∨
    ∃ sender message, operation = .receive sender message ∧
      node'.currentTerm = message.term

theorem followLeader_role {term : Nat} (hrole : node.role = .follower) :
    (node.followLeader term).1.role = .follower := by
  unfold followLeader
  by_cases hlater : node.currentTerm < term
  · simp only [hlater, decide_true, ite_true]
    rfl
  · simp [hlater, hrole]

theorem onAppendEntries_follower {sender : NodeId} {request : AppendEntries}
    (hrole : node.role = .follower)
    (h : node.onAppendEntries sender request = some (node', effects)) :
    node'.role = .follower := by
  unfold onAppendEntries at h
  split at h
  · cases h
    exact hrole
  dsimp only at h
  have hfollow : (node.followLeader request.term).1.role = .follower :=
    followLeader_role hrole
  split at h
  · cases h
    exact hfollow
  · obtain ⟨persistLog, -, h⟩ := Option.bind_eq_some_iff.mp h
    cases h
    have hmerged := mergeEntries_role request.entries
      (node.followLeader request.term).1 none (request.prevLogIndex + 1)
    rw [hfollow] at hmerged
    generalize (node.followLeader request.term).1.mergeEntries none
      (request.prevLogIndex + 1) request.entries = result at *
    unfold followCommit
    split <;> split <;> exact hmerged

theorem onInstallSnapshot_follower {sender : NodeId} {request : InstallSnapshot}
    (hrole : node.role = .follower)
    (h : node.onInstallSnapshot sender request = some (node', effects)) :
    node'.role = .follower ∧ (node'.currentTerm = node.currentTerm ∨
      node'.currentTerm = request.term) := by
  unfold onInstallSnapshot at h
  split at h
  · cases h
    exact ⟨hrole, Or.inl rfl⟩
  rename_i hcurrent
  have hterm := node.followLeader_term (Nat.le_of_not_lt hcurrent)
  have hfollow : (node.followLeader request.term).1.role = .follower :=
    followLeader_role hrole
  dsimp only at h
  split at h
  · cases h
    exact ⟨hfollow, Or.inr hterm⟩
  · cases h
    exact ⟨hfollow, Or.inr hterm⟩

theorem onRequestVote_follower {sender : NodeId} {request : RequestVote}
    (hrole : node.role = .follower)
    (h : node.onRequestVote sender request = some (node', effects)) :
    node'.role = .follower ∧ (node'.currentTerm = node.currentTerm ∨
      node'.currentTerm = request.term) := by
  unfold onRequestVote at h
  split at h
  · cases h
    exact ⟨hrole, Or.inl rfl⟩
  split at h
  · cases h
    exact ⟨hrole, Or.inl rfl⟩
  split at h
  · cases h
    exact ⟨hrole, Or.inl rfl⟩
  cases h
  by_cases hlater : node.currentTerm < request.term
  · simp only [hlater, decide_true, ite_true]
    split <;> exact ⟨rfl, Or.inr rfl⟩
  · simp only [hlater, decide_false, Bool.false_eq_true, ite_false]
    split <;> exact ⟨hrole, Or.inl rfl⟩

theorem receive_follower {sender : NodeId} {message : Message}
    (hrole : node.role = .follower)
    (h : node.step (.step sender message) = some (node', effects)) :
    node'.role = .follower ∧ (node'.currentTerm = node.currentTerm ∨
      node'.currentTerm = message.term) := by
  have hignored : some (node, []) = some (node', effects) →
      node'.role = .follower ∧ (node'.currentTerm = node.currentTerm ∨
        node'.currentTerm = message.term) := by
    intro heq
    cases heq
    exact ⟨hrole, Or.inl rfl⟩
  cases message with
  | requestVote request =>
      simp only [step] at h
      split at h
      · exact hignored h
      split at h
      · exact hignored h
      · exact onRequestVote_follower hrole h
  | requestVoteResponse response =>
      simp only [step] at h
      split at h
      · exact hignored h
      unfold onRequestVoteResponse at h
      split at h
      · cases h
        exact ⟨rfl, Or.inr rfl⟩
      · rw [if_pos (Or.inr (by simp [hrole]))] at h
        exact hignored h
  | appendEntries request =>
      simp only [step] at h
      split at h
      · exact hignored h
      refine ⟨onAppendEntries_follower hrole h, ?_⟩
      rcases onAppendEntries_cases h with ⟨-, rfl⟩ | ⟨-, hterm, -⟩
      · exact Or.inl rfl
      · exact Or.inr hterm
  | appendEntriesResponse response =>
      simp only [step] at h
      split at h
      · exact hignored h
      unfold onAppendEntriesResponse at h
      split at h
      · cases h
        exact ⟨rfl, Or.inr rfl⟩
      · rw [if_pos (Or.inr (by simp [hrole]))] at h
        exact hignored h
  | installSnapshot request =>
      simp only [step] at h
      split at h
      · exact hignored h
      · exact onInstallSnapshot_follower hrole h
  | installSnapshotResponse response =>
      simp only [step] at h
      split at h
      · exact hignored h
      unfold onInstallSnapshotResponse at h
      split at h
      · cases h
        exact ⟨rfl, Or.inr rfl⟩
      · rw [if_pos (Or.inr (by simp [hrole]))] at h
        exact hignored h

/-- A follower that is no voter when its timer fires stays one. -/
theorem perform_follower {operation : Operation} (hrole : node.role = .follower)
    (hvoter : ∀ nextTimeout, operation = .tick nextTimeout →
      node.electionTimeout ≤ node.electionElapsed + 1 →
      node.currentConfig.isVoter node.id = false)
    (h : node.perform operation = some (node', effects)) :
    node'.role = .follower ∧ node.TermFollows operation node' := by
  have hserves : ∀ {P : Prop}, (node.role ≠ .leader ∨ P) := by
    intro P
    exact Or.inl (by simp [hrole])
  cases operation with
  | tick nextTimeout =>
      have htick : node.onTick nextTimeout = some (node', effects) := h
      unfold onTick at htick
      rw [if_neg (by simp [hrole])] at htick
      dsimp only at htick
      split at htick
      · cases htick
        exact ⟨hrole, Or.inl rfl⟩
      · rename_i hfires
        unfold startElection at htick
        rw [hvoter nextTimeout rfl (Nat.not_lt.mp hfires)] at htick
        cases htick
        exact ⟨hrole, Or.inl rfl⟩
  | receive sender message =>
      obtain ⟨hfollower, hterm⟩ := receive_follower hrole h
      exact ⟨hfollower, hterm.imp_right (fun heq => ⟨sender, message, rfl, heq⟩)⟩
  | propose command =>
      simp only [perform, propose, if_pos (show node.role ≠ .leader by simp [hrole])] at h
      cases h
      exact ⟨hrole, Or.inl rfl⟩
  | proposeConfigChange newVoters =>
      simp only [perform, proposeConfigChange, if_pos hserves] at h
      cases h
      exact ⟨hrole, Or.inl rfl⟩
  | addLearner id =>
      simp only [perform, addLearner, if_pos hserves] at h
      cases h
      exact ⟨hrole, Or.inl rfl⟩
  | removeLearner id =>
      simp only [perform, removeLearner, if_pos hserves] at h
      cases h
      exact ⟨hrole, Or.inl rfl⟩
  | compact upToIndex snapshotData =>
      obtain ⟨answer, hanswer, h⟩ := Option.bind_eq_some_iff.mp h
      rcases answer with _ | ⟨last, rest⟩
      · cases h
        exact ⟨hrole, Or.inl rfl⟩
      · cases h
        rcases compact_cases hanswer with ⟨-, rfl, -⟩ |
          ⟨term, config, log, -, -, -, -, -, rfl, -⟩
        · exact ⟨hrole, Or.inl rfl⟩
        · exact ⟨hrole, Or.inl rfl⟩

/-! ### Where configurations come from -/

theorem latestConfigurationIn_names {id : NodeId} {log : List LogEntry}
    {boundary index : Nat} {config : ClusterConfig}
    (h : latestConfigurationIn log boundary = some (config, index))
    (hconfig : config.isVoter id = true) :
    ∃ entry ∈ log, entry.names id = true := by
  obtain ⟨term, hmem⟩ := latestConfigurationIn_mem h
  exact ⟨_, hmem, hconfig⟩

theorem onTick_unnamed {id : NodeId} {nextTimeout : Nat}
    (hrole : node.role = .follower)
    (h : node.onTick nextTimeout = some (node', effects)) :
    ∀ effect ∈ effects, ¬ effect.Names id := by
  unfold onTick at h
  rw [if_neg (by simp [hrole])] at h
  dsimp only at h
  split at h
  · cases h
    simp
  unfold startElection at h
  split at h
  · cases h
    simp
  dsimp only at h
  split at h
  · obtain ⟨⟨leader, sends⟩, hleader, h⟩ := Option.bind_eq_some_iff.mp h
    cases h
    obtain ⟨messages, hmessages, hleader⟩ := Option.bind_eq_some_iff.mp hleader
    cases hleader
    refine List.forall_mem_cons.mpr ⟨fun hnames => hnames, fun effect hmem => ?_⟩
    obtain ⟨peer, -, hpeer⟩ := mem_broadcastReplication hmessages hmem
    obtain ⟨message, rfl⟩ := replicateTo_send hpeer
    exact fun hnames => hnames
  · cases h
    refine List.forall_mem_cons.mpr ⟨fun hnames => hnames, fun effect hmem => ?_⟩
    obtain ⟨peer, -, rfl⟩ := List.mem_map.mp hmem
    exact fun hnames => hnames

theorem onRequestVote_unnamed {id sender : NodeId} {request : RequestVote}
    (h : node.onRequestVote sender request = some (node', effects)) :
    ∀ effect ∈ effects, ¬ effect.Names id := by
  unfold onRequestVote at h
  split at h
  · cases h
    simp [voteReply, Effect.Names]
  split at h
  · cases h
    simp [voteReply, Effect.Names]
  split at h
  · cases h
    simp [voteReply, Effect.Names]
  cases h
  refine List.forall_mem_append.mpr ⟨?_, by simp [voteReply, Effect.Names]⟩
  split <;> simp [persistHardState, Effect.Names]

theorem followLeader_unnamed {id : NodeId} {term : Nat} :
    ∀ effect ∈ (node.followLeader term).2, ¬ effect.Names id := by
  unfold followLeader
  dsimp only
  split <;> simp [persistHardState, Effect.Names]

theorem persistChanged_names {id : NodeId} {changed : Option Nat}
    (h : node.persistChanged changed = some effects) {effect : Effect}
    (hmem : effect ∈ effects) (hnames : effect.Names id) :
    ∃ entry ∈ node.log, entry.names id = true := by
  cases changed with
  | none =>
      cases h
      cases hmem
  | some fromIndex =>
      obtain ⟨entries, hentries, h⟩ := Option.bind_eq_some_iff.mp h
      cases h
      rw [List.mem_singleton.mp hmem] at hnames
      obtain ⟨entry, hentry, hnamed⟩ := hnames
      simp only [entriesFrom, Option.ite_none_right_eq_some] at hentries
      rw [← Option.some.inj hentries.2] at hentry
      exact ⟨entry, List.mem_of_mem_drop hentry, hnamed⟩

theorem onAppendEntries_names {id sender : NodeId} {request : AppendEntries}
    (h : node.onAppendEntries sender request = some (node', effects))
    {effect : Effect} (hmem : effect ∈ effects) (hnames : effect.Names id) :
    (∃ entry ∈ node.log, entry.names id = true) ∨
      ∃ entry ∈ request.entries, entry.names id = true := by
  unfold onAppendEntries at h
  split at h
  · cases h
    simp_all [rejectAppendEntries, appendReply, Effect.Names]
  dsimp only at h
  have hlog : (node.followLeader request.term).1.log = node.log := by
    simpa using (node.followLeader_appends request.term).log
  split at h
  · cases h
    rcases List.mem_append.mp hmem with hmem | hmem
    · exact (followLeader_unnamed effect hmem hnames).elim
    · simp_all [rejectAppendEntries, appendReply, Effect.Names]
  · obtain ⟨persistLog, hpersist, h⟩ := Option.bind_eq_some_iff.mp h
    cases h
    rw [List.append_assoc] at hmem
    rcases List.mem_append.mp hmem with hmem | hmem
    · exact (followLeader_unnamed effect hmem hnames).elim
    rcases List.mem_append.mp hmem with hmem | hmem
    · obtain ⟨entry, hentry, hnamed⟩ := persistChanged_names hpersist hmem hnames
      rw [followCommit_log] at hentry
      have hmerged : entry ∈ ((node.followLeader request.term).1.mergeEntries none
          (request.prevLogIndex + 1) request.entries).1.log := by
        split at hentry <;> exact hentry
      rcases mem_mergeEntries hmerged with hold | hnew
      · exact Or.inl ⟨entry, hlog ▸ hold, hnamed⟩
      · exact Or.inr ⟨entry, hnew, hnamed⟩
    · simp_all [appendReply, Effect.Names]

theorem onInstallSnapshot_names {id sender : NodeId} {request : InstallSnapshot}
    (h : node.onInstallSnapshot sender request = some (node', effects))
    {effect : Effect} (hmem : effect ∈ effects) (hnames : effect.Names id) :
    request.config.isVoter id = true := by
  unfold onInstallSnapshot at h
  split at h
  · cases h
    simp_all [snapshotReply, Effect.Names]
  dsimp only at h
  split at h
  · cases h
    rcases List.mem_append.mp hmem with hmem | hmem
    · exact (followLeader_unnamed effect hmem hnames).elim
    · simp_all [snapshotReply, Effect.Names]
  · cases h
    rcases List.mem_append.mp hmem with hmem | hmem
    · exact (followLeader_unnamed effect hmem hnames).elim
    rcases List.mem_cons.mp hmem with rfl | hmem
    · exact hnames
    rcases List.mem_cons.mp hmem with rfl | hmem
    · obtain ⟨entry, hentry, -⟩ := hnames
      cases hentry
    · rw [List.mem_singleton.mp hmem] at hnames
      exact hnames.elim

theorem receive_names {id sender : NodeId} {message : Message}
    (hrole : node.role = .follower)
    (h : node.step (.step sender message) = some (node', effects))
    {effect : Effect} (hmem : effect ∈ effects) (hnames : effect.Names id) :
    (∃ entry ∈ node.log, entry.names id = true) ∨ message.Names id := by
  have hignored : some (node, []) = some (node', effects) → False := by
    intro heq
    cases heq
    cases hmem
  have hstepDown : ∀ term, some (node.stepDown term,
      [(node.stepDown term).persistHardState]) = some (node', effects) → False := by
    intro term heq
    cases heq
    rw [List.mem_singleton.mp hmem] at hnames
    exact hnames
  cases message with
  | requestVote request =>
      simp only [step] at h
      split at h
      · exact (hignored h).elim
      split at h
      · exact (hignored h).elim
      · exact (onRequestVote_unnamed h effect hmem hnames).elim
  | requestVoteResponse response =>
      simp only [step] at h
      split at h
      · exact (hignored h).elim
      unfold onRequestVoteResponse at h
      split at h
      · exact (hstepDown _ h).elim
      · rw [if_pos (Or.inr (by simp [hrole]))] at h
        exact (hignored h).elim
  | appendEntries request =>
      simp only [step] at h
      split at h
      · exact (hignored h).elim
      · exact onAppendEntries_names h hmem hnames
  | appendEntriesResponse response =>
      simp only [step] at h
      split at h
      · exact (hignored h).elim
      unfold onAppendEntriesResponse at h
      split at h
      · exact (hstepDown _ h).elim
      · rw [if_pos (Or.inr (by simp [hrole]))] at h
        exact (hignored h).elim
  | installSnapshot request =>
      simp only [step] at h
      split at h
      · exact (hignored h).elim
      · exact Or.inr (onInstallSnapshot_names h hmem hnames)
  | installSnapshotResponse response =>
      simp only [step] at h
      split at h
      · exact (hignored h).elim
      unfold onInstallSnapshotResponse at h
      split at h
      · exact (hstepDown _ h).elim
      · rw [if_pos (Or.inr (by simp [hrole]))] at h
        exact (hignored h).elim

theorem compact_names {id : NodeId} {upToIndex : Nat} {snapshotData : Bytes}
    (h : node.compact upToIndex snapshotData = some (.ok (node', effects)))
    {effect : Effect} (hmem : effect ∈ effects) (hnames : effect.Names id) :
    (∃ entry ∈ node.log, entry.names id = true) ∨
      node.snapshot.lastIncludedIndex < upToIndex ∧
        upToIndex ≤ node.commitIndex ∧ node.snapshotConfig.isVoter id = true ∧
        latestConfigurationIn
          (node.log.take (upToIndex - node.snapshot.lastIncludedIndex))
          node.snapshot.lastIncludedIndex = none := by
  rcases compact_cases h with ⟨-, -, rfl⟩ |
    ⟨term, config, log, habove, hcommitted, -, rfl, hconfig, -, rfl⟩
  · cases hmem
  rcases List.mem_cons.mp hmem with rfl | hmem
  · have hvoter : config.isVoter id = true := hnames
    cases hlatest : latestConfigurationIn
        (node.log.take (upToIndex - node.snapshot.lastIncludedIndex))
        node.snapshot.lastIncludedIndex with
    | none =>
        rw [hlatest] at hconfig
        have hsame : config = node.snapshotConfig := hconfig
        exact Or.inr ⟨habove, hcommitted, hsame ▸ hvoter, rfl⟩
    | some found =>
        obtain ⟨found, index⟩ := found
        rw [hlatest] at hconfig
        have hsame : config = found := hconfig
        obtain ⟨entry, hentry, hnamed⟩ :=
          latestConfigurationIn_names hlatest (hsame ▸ hvoter)
        exact Or.inl ⟨entry, List.mem_of_mem_take hentry, hnamed⟩
  · rw [List.mem_singleton.mp hmem] at hnames
    obtain ⟨entry, hentry, hnamed⟩ := hnames
    exact Or.inl ⟨entry, List.mem_of_mem_drop hentry, hnamed⟩

/-- A follower stores a configuration naming `id` if it held one already, is
sent one, or compacts on top of one. -/
theorem perform_names {id : NodeId} {operation : Operation}
    (hrole : node.role = .follower)
    (h : node.perform operation = some (node', effects)) {effect : Effect}
    (hmem : effect ∈ effects) (hnames : effect.Names id) :
    (∃ entry ∈ node.log, entry.names id = true) ∨
      (∃ sender message, operation = .receive sender message ∧
        message.Names id) ∨
      ∃ upToIndex snapshotData, operation = .compact upToIndex snapshotData ∧
        node.snapshot.lastIncludedIndex < upToIndex ∧
        upToIndex ≤ node.commitIndex ∧ node.snapshotConfig.isVoter id = true ∧
        latestConfigurationIn
          (node.log.take (upToIndex - node.snapshot.lastIncludedIndex))
          node.snapshot.lastIncludedIndex = none := by
  have hserves : ∀ {P : Prop}, (node.role ≠ .leader ∨ P) := by
    intro P
    exact Or.inl (by simp [hrole])
  cases operation with
  | tick nextTimeout => exact (onTick_unnamed hrole h effect hmem hnames).elim
  | receive sender message =>
      rcases receive_names hrole h hmem hnames with hlog | hmessage
      · exact Or.inl hlog
      · exact Or.inr (Or.inl ⟨sender, message, rfl, hmessage⟩)
  | propose command =>
      simp only [perform, propose, if_pos (show node.role ≠ .leader by simp [hrole])] at h
      cases h
      cases hmem
  | proposeConfigChange newVoters =>
      simp only [perform, proposeConfigChange, if_pos hserves] at h
      cases h
      cases hmem
  | addLearner id =>
      simp only [perform, addLearner, if_pos hserves] at h
      cases h
      cases hmem
  | removeLearner id =>
      simp only [perform, removeLearner, if_pos hserves] at h
      cases h
      cases hmem
  | compact upToIndex snapshotData =>
      obtain ⟨answer, hanswer, h⟩ := Option.bind_eq_some_iff.mp h
      rcases answer with _ | ⟨last, rest⟩
      · cases h
        cases hmem
      · cases h
        rcases compact_names hanswer hmem hnames with hlog | hbelow
        · exact Or.inl hlog
        · exact Or.inr (Or.inr ⟨upToIndex, snapshotData, rfl, hbelow⟩)

end Node

end Kurogane.Raft

namespace Kurogane.Runtime

open Kurogane.Raft

variable {node node' : Node} {effects : List Effect} {storage storage' : Storage}
  {id : NodeId}

/-- A configuration that names `id` is stored, in the log or with the
snapshot. -/
def Storage.names (storage : Storage) (id : NodeId) : Bool :=
  storage.log.any (LogEntry.names id) || storage.snapshotConfig.isVoter id

theorem Storage.names_iff : storage.names id = true ↔
    (∃ entry ∈ storage.log, entry.names id = true) ∨
      storage.snapshotConfig.isVoter id = true := by
  simp [Storage.names]

/-- What is stored names `id` only if it did before or was just written. -/
theorem Storage.names_applyAll :
    ∀ {storage storage' : Storage}, storage.applyAll effects = some storage' →
      storage'.names id = true →
      storage.names id = true ∨ ∃ effect ∈ effects, effect.Names id := by
  induction effects with
  | nil =>
      intro storage storage' happly hnames
      cases happly
      exact Or.inl hnames
  | cons effect rest ih =>
      intro storage storage' happly hnames
      obtain ⟨middle, hmiddle, hrest⟩ := Option.bind_eq_some_iff.mp happly
      rcases ih hrest hnames with hnames | ⟨other, hother, hnames⟩
      · cases effect with
        | persistLog fromIndex entries =>
            simp only [Storage.apply, Option.ite_none_left_eq_some] at hmiddle
            cases hmiddle.2
            rcases Storage.names_iff.mp hnames with ⟨entry, hentry, hnamed⟩ | hconfig
            · rcases List.mem_append.mp hentry with hentry | hentry
              · exact Or.inl (Storage.names_iff.mpr
                  (Or.inl ⟨entry, List.mem_of_mem_take hentry, hnamed⟩))
              · exact Or.inr ⟨_, List.mem_cons_self, entry, hentry, hnamed⟩
            · exact Or.inl (Storage.names_iff.mpr (Or.inr hconfig))
        | persistSnapshot index term data config =>
            cases hmiddle
            rcases Storage.names_iff.mp hnames with hlog | hconfig
            · exact Or.inl (Storage.names_iff.mpr (Or.inl hlog))
            · exact Or.inr ⟨_, List.mem_cons_self, hconfig⟩
        | persistHardState term votedFor =>
            cases hmiddle
            exact Or.inl hnames
        | persistLearners learners =>
            cases hmiddle
            exact Or.inl hnames
        | send receiver message =>
            cases hmiddle
            exact Or.inl hnames
      · exact Or.inr ⟨other, List.mem_cons_of_mem _ hother, hnames⟩

/-- The storage holds the log of a node, and the configuration of its snapshot
once there is one. -/
structure Storage.Holds (storage : Storage) (durable : Durable) : Prop where
  log : storage.log = durable.log
  boundary : storage.snapshot.lastIncludedIndex = durable.boundary
  config : 0 < durable.boundary → storage.snapshotConfig = durable.snapshot.config

theorem Storage.Holds.applyAll :
    ∀ {storage storage' : Storage} {durable durable' : Durable},
      storage.Holds durable → storage.applyAll effects = some storage' →
      durable.recordAll effects = some durable' → storage'.Holds durable' := by
  induction effects with
  | nil =>
      intro storage storage' durable durable' h happly hrecord
      cases happly
      cases hrecord
      exact h
  | cons effect rest ih =>
      intro storage storage' durable durable' h happly hrecord
      obtain ⟨next, hnext, happly⟩ := Option.bind_eq_some_iff.mp happly
      obtain ⟨later, hlater, hrecord⟩ := Option.bind_eq_some_iff.mp hrecord
      refine ih ?_ happly hrecord
      cases effect with
      | persistLog fromIndex entries =>
          simp only [Storage.apply, Option.ite_none_left_eq_some] at hnext
          simp only [Durable.record, Option.ite_none_left_eq_some] at hlater
          cases hnext.2
          cases hlater.2
          refine ⟨?_, h.boundary, h.config⟩
          rw [h.log, h.boundary]
      | persistSnapshot index term data config =>
          cases hnext
          cases hlater
          exact ⟨h.log, rfl, fun _ => rfl⟩
      | persistHardState term votedFor =>
          cases hnext
          cases hlater
          exact ⟨h.log, h.boundary, h.config⟩
      | persistLearners learners =>
          cases hnext
          cases hlater
          exact ⟨h.log, h.boundary, h.config⟩
      | send receiver message =>
          cases hnext
          cases hlater
          exact h

namespace Process

/-- A joining process: every start asks to join, and no election and no
snapshot of it relies on the bootstrap configuration. -/
def Joins (process : Process) : ProcessAction → Prop
  | .perform operation | .interrupt operation _ =>
      ∀ node ∈ process.node, node.StandsOnLog operation
  | .crash => True
  | .restart environment => environment.joinAsLearner = true

instance (process : Process) : DecidablePred process.Joins := fun action =>
  match action with
  | .perform _ => inferInstanceAs (Decidable (∀ _ ∈ _, _))
  | .interrupt _ _ => inferInstanceAs (Decidable (∀ _ ∈ _, _))
  | .crash => inferInstanceAs (Decidable True)
  | .restart _ => inferInstanceAs (Decidable (_ = _))

/-- It is still outside: nothing it has stored names it. -/
def Outside (id : NodeId) (process : Process) (action : ProcessAction) : Prop :=
  process.storage.names id = false ∧ process.Joins action

instance (id : NodeId) (process : Process) :
    DecidablePred (Outside id process) :=
  fun _ => inferInstanceAs (Decidable (_ ∧ _))

/-- What a node outside the cluster is. -/
structure Waits (id : NodeId) (storage : Storage) (node : Node) : Prop where
  id : node.id = id
  role : node.role = .follower
  current : node.ConfigCurrent
  holds : storage.Holds node.durable

theorem Waits.unnamed (h : Waits id storage node)
    (hoff : storage.names id = false) :
    ¬ (∃ entry ∈ node.log, entry.names id = true) ∧
      (0 < node.snapshot.lastIncludedIndex →
        node.snapshotConfig.isVoter id = false) := by
  have hstored : ¬ storage.names id = true := by simp [hoff]
  rw [Storage.names_iff, not_or] at hstored
  refine ⟨?_, fun hpos => ?_⟩
  · have hlog : storage.log = node.log := h.holds.log
    exact hlog ▸ hstored.1
  · have hconfig : storage.snapshotConfig = node.snapshotConfig :=
      h.holds.config hpos
    exact hconfig ▸ Bool.eq_false_iff.mpr hstored.2

theorem Waits.not_voter (h : Waits id storage node)
    (hoff : storage.names id = false) (hstands : ¬ node.FallsBack node.log) :
    node.currentConfig.isVoter node.id = false := by
  obtain ⟨hlog, hsnapshot⟩ := h.unnamed hoff
  have hcurrent : node.currentConfig =
      ((latestConfigurationIn node.log node.snapshot.lastIncludedIndex).getD
        (node.snapshotConfig, node.snapshot.lastIncludedIndex)).1 :=
    congrArg Prod.fst h.current
  rw [hcurrent, h.id]
  apply Bool.eq_false_iff.mpr
  intro hvoter
  cases hlatest : latestConfigurationIn node.log
      node.snapshot.lastIncludedIndex with
  | some found =>
      obtain ⟨config, index⟩ := found
      rw [hlatest] at hvoter
      exact hlog (Node.latestConfigurationIn_names hlatest hvoter)
  | none =>
      rw [hlatest] at hvoter
      have hvoter : node.snapshotConfig.isVoter id = true := hvoter
      rcases Nat.eq_zero_or_pos node.snapshot.lastIncludedIndex with hzero | hpos
      · rw [hzero] at hlatest
        exact hstands ⟨hzero, h.id ▸ hvoter, hlatest⟩
      · rw [hsnapshot hpos] at hvoter
        cases hvoter

theorem Waits.follows (h : Waits id storage node)
    (hoff : storage.names id = false) {operation : Operation}
    (hstands : node.StandsOnLog operation)
    (hperform : node.perform operation = some (node', effects)) :
    node'.role = .follower ∧ node.TermFollows operation node' := by
  refine Node.perform_follower h.role ?_ hperform
  rintro nextTimeout rfl hfires
  exact h.not_voter hoff (hstands (by simp [h.role]) hfires)

theorem Waits.perform (h : Waits id storage node)
    (hoff : storage.names id = false) {operation : Operation}
    (hstands : node.StandsOnLog operation)
    (hperform : node.perform operation = some (node', effects))
    (happly : storage.applyAll effects = some storage') :
    Waits id storage' node' := by
  have hall := Node.perform_writeAhead hperform
  exact ⟨hall.id.trans h.id, (h.follows hoff hstands hperform).1,
    h.current.perform hperform, h.holds.applyAll happly hall.recorded⟩

/-- Only a message that brings such a configuration makes the storage name the
process. -/
theorem Waits.written (h : Waits id storage node)
    (hoff : storage.names id = false) {operation : Operation}
    (hstands : node.StandsOnLog operation)
    (hperform : node.perform operation = some (node', effects)) {written : Nat}
    (happly : storage.applyAll (effects.take written) = some storage')
    (hnamed : storage'.names id = true) :
    ∃ sender message, operation = .receive sender message ∧ message.Names id := by
  obtain ⟨hlog, hsnapshot⟩ := h.unnamed hoff
  rcases Storage.names_applyAll happly hnamed with hbefore | ⟨effect, hmem, hnames⟩
  · rw [hoff] at hbefore
    cases hbefore
  rcases Node.perform_names h.role hperform (List.mem_of_mem_take hmem) hnames with
    hold | hbrought | ⟨upToIndex, snapshotData, rfl, habove, hcommitted, hvoter, hnone⟩
  · exact (hlog hold).elim
  · exact hbrought
  · rcases Nat.eq_zero_or_pos node.snapshot.lastIncludedIndex with hzero | hpos
    · rw [hzero] at hnone
      exact (hstands habove hcommitted ⟨hzero, h.id ▸ hvoter, hnone⟩).elim
    · rw [hsnapshot hpos] at hvoter
      cases hvoter

theorem newLearner_waits {electionTimeout heartbeatInterval : Nat}
    (hfresh : storage.isFresh = true)
    (h : Node.newLearner id electionTimeout heartbeatInterval = .ok node) :
    Waits id storage node := by
  simp only [Storage.isFresh, Bool.and_eq_true, decide_eq_true_eq,
    List.isEmpty_iff] at hfresh
  unfold Node.newLearner at h
  split at h
  · cases h
  split at h
  · cases h
  split at h
  · cases h
  cases h
  refine ⟨rfl, rfl, rfl, hfresh.1.2, hfresh.2, fun hpos => ?_⟩
  exact (Nat.lt_irrefl 0 hpos).elim

theorem recover_waits {peers : List NodeId}
    {electionTimeout heartbeatInterval : Nat}
    (h : Node.recover id peers electionTimeout heartbeatInterval
      storage.hardState storage.log
      ⟨storage.snapshot, storage.snapshotData, storage.snapshotConfig⟩
      storage.learners = .ok node) : Waits id storage node := by
  obtain ⟨-, hid, hrole, -, -, hdurable, hcurrent⟩ := Node.recover_ok h
  refine ⟨hid, hrole, hcurrent, ?_⟩
  rw [hdurable]
  exact ⟨rfl, rfl, fun hpos => (if_pos hpos).symm⟩

/-- A running process outside the cluster waits. -/
theorem Run.waits {process : Process}
    (hrun : Run (Outside id) id (stopped storage) process) :
    ∀ node, process.node = some node → Waits id process.storage node := by
  refine hrun.invariant (fun process => ∀ node, process.node = some node →
    Waits id process.storage node) ?_ nofun
  intro process action process' h hok hstep
  obtain ⟨hoff, hjoins⟩ := hok
  cases action with
  | perform operation =>
      obtain ⟨node, node', effects, storage, hnode, hperform, happly, rfl⟩ :=
        step_perform hstep
      intro last hlast
      cases hlast
      exact (h node hnode).perform hoff (hjoins node hnode) hperform happly
  | interrupt operation written =>
      obtain ⟨_, _, _, _, -, -, -, rfl⟩ := step_interrupt hstep
      exact nofun
  | crash =>
      cases hstep
      exact nofun
  | restart environment =>
      obtain ⟨node, hstart, rfl⟩ := step_restart hstep
      intro last hlast
      cases hlast
      unfold startUp at hstart
      split at hstart
      · rename_i hfresh
        rw [Bool.and_eq_true] at hfresh
        exact newLearner_waits hfresh.2 hstart
      · exact recover_waits hstart

/-- As long as nothing it has stored names it, a joining process follows: it
neither campaigns nor raises its term but to the one of a message; and only a
message that brings a configuration naming it changes that. -/
theorem joiner_waits_for_admission {process : Process}
    (hrun : Run (Outside id) id (stopped .fresh) process) :
    (∀ node, process.node = some node → node.role = .follower) ∧
    ∀ action, Outside id process action →
      (∀ node operation node' effects, process.node = some node →
        action = .perform operation →
        node.perform operation = some (node', effects) →
        node'.role = .follower ∧ node.TermFollows operation node') ∧
      ∀ process', process.step id action = some process' →
        process'.storage.names id = true →
        ∃ sender message written, message.Names id ∧
          (action = .perform (.receive sender message) ∨
            action = .interrupt (.receive sender message) written) := by
  have hwaits := hrun.waits
  refine ⟨fun node hnode => (hwaits node hnode).role, ?_⟩
  rintro action ⟨hoff, hjoins⟩
  refine ⟨?_, ?_⟩
  · rintro node operation node' effects hnode rfl hperform
    exact (hwaits node hnode).follows hoff (hjoins node hnode) hperform
  · intro process' hstep hnamed
    cases action with
    | perform operation =>
        obtain ⟨node, node', effects, storage, hnode, hperform, happly, rfl⟩ :=
          step_perform hstep
        rw [← List.take_length (l := effects)] at happly
        obtain ⟨sender, message, rfl, hmessage⟩ := (hwaits node hnode).written
          hoff (hjoins node hnode) hperform happly hnamed
        exact ⟨sender, message, 0, hmessage, Or.inl rfl⟩
    | interrupt operation written =>
        obtain ⟨node, node', effects, storage, hnode, hperform, happly, rfl⟩ :=
          step_interrupt hstep
        obtain ⟨sender, message, rfl, hmessage⟩ := (hwaits node hnode).written
          hoff (hjoins node hnode) hperform happly hnamed
        exact ⟨sender, message, written, hmessage, Or.inr rfl⟩
    | crash =>
        cases hstep
        rw [hoff] at hnamed
        cases hnamed
    | restart environment =>
        obtain ⟨node, -, rfl⟩ := step_restart hstep
        rw [hoff] at hnamed
        cases hnamed

/-- The fourth server joins three others, receives `entries` from their leader,
crashes, starts again and ticks. -/
def joinsAndRestarts (entries : List LogEntry) : List ProcessAction :=
  let start := .restart ⟨[⟨1⟩, ⟨2⟩, ⟨3⟩, ⟨4⟩], 1, 1, true⟩
  [start, .perform (.receive ⟨1⟩ (.appendEntries ⟨1, ⟨1⟩, 0, 0, entries, 0⟩)),
    .crash, start, .perform (.tick 1)]

theorem joiner_with_a_configuration_waits :
    ∃ process node, Run (Outside ⟨4⟩) ⟨4⟩ (stopped .fresh) process ∧
      process.node = some node ∧
      node.currentConfig = ⟨[⟨1⟩, ⟨2⟩, ⟨3⟩], none⟩ ∧ node.role = .follower := by
  obtain ⟨process, hrun, hconfig⟩ := Run.of_check (Outside ⟨4⟩) ⟨4⟩ .fresh
    (joinsAndRestarts [⟨1, .configuration ⟨[⟨1⟩, ⟨2⟩, ⟨3⟩], none⟩⟩])
    (fun process => process.node.map Node.currentConfig =
      some ⟨[⟨1⟩, ⟨2⟩, ⟨3⟩], none⟩) (by decide +kernel)
  obtain ⟨node, hnode, hconfig⟩ := Option.map_eq_some_iff.mp hconfig
  exact ⟨process, node, hrun, hnode, hconfig,
    (joiner_waits_for_admission hrun).1 node hnode⟩

/-- Whatever starts the process asks to join. -/
def asksToJoin : ProcessAction → Bool
  | .restart environment => environment.joinAsLearner
  | _ => true

/-- A heartbeat is enough for the storage not to be fresh. The restart then
takes the list of peers for the configuration, and the node campaigns. -/
theorem joiner_after_a_heartbeat_campaigns :
    ∃ process node,
      Run (fun process action => process.storage.names ⟨4⟩ = false ∧
        asksToJoin action = true) ⟨4⟩ (stopped .fresh) process ∧
      process.node = some node ∧ process.storage.names ⟨4⟩ = false ∧
      node.role = .candidate ∧ node.currentTerm = 2 := by
  obtain ⟨process, hrun, hnamed, hcandidate⟩ := Run.of_check
    (fun process action => process.storage.names ⟨4⟩ = false ∧
      asksToJoin action = true) ⟨4⟩ .fresh (joinsAndRestarts [])
    (fun process => process.storage.names ⟨4⟩ = false ∧
      process.node.map (fun node => (node.role, node.currentTerm)) =
        some (.candidate, 2)) (by decide +kernel)
  obtain ⟨node, hnode, hcandidate⟩ := Option.map_eq_some_iff.mp hcandidate
  obtain ⟨hrole, hterm⟩ := Prod.mk.inj hcandidate
  exact ⟨process, node, hrun, hnode, hnamed, hrole, hterm⟩

end Process

end Kurogane.Runtime
