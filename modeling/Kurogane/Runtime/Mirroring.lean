import Kurogane.Raft.Configurations
import Kurogane.Runtime.Disk
import Kurogane.Runtime.WordProcess

/-!
Runs of one node over its disk. After every request the storage holds what the
node does, whatever the requests were, and a request of a peer is answered only
once everything the answer rests on has been written.
-/

namespace Kurogane.Raft

def Message.OnWire : Message → Prop
  | .appendEntries request => ∀ entry ∈ request.entries, entry.OnWire
  | .installSnapshot request => request.config.OnWire
  | _ => True

/-- What a peer sends comes from the wire. -/
def Operation.OnWire : Operation → Prop
  | .receive _ message => message.OnWire
  | _ => True

theorem NoneJoint.onWire {added : List LogEntry} (h : NoneJoint added) :
    ∀ entry ∈ added, entry.OnWire := by
  intro entry hmem config hconfig
  rw [ClusterConfig.OnWire, h entry hmem config hconfig]
  nofun

namespace Node

/-- All configurations `node` stores are ones the wire can carry. -/
structure OnWire (node : Node) : Prop where
  log : ∀ entry ∈ node.log, entry.OnWire
  snapshotConfig : node.snapshotConfig.OnWire

variable {node node' : Node} {effects : List Effect}

theorem onWire_iff : node.OnWire ↔ node.Configs ClusterConfig.OnWire :=
  ⟨fun h => ⟨h.log, h.snapshotConfig⟩, fun h => ⟨h.log, h.snapshotConfig⟩⟩

theorem OnWire.appends {added : List LogEntry} (h : node.OnWire)
    (hadded : Appends node added node') (hwire : ∀ entry ∈ added, entry.OnWire) :
    node'.OnWire :=
  onWire_iff.mpr ((onWire_iff.mp h).appends hadded hwire)

theorem majorityIndex_ne_nil {voters : List NodeId} {index : Nat}
    (h : node.majorityIndex voters = some index) : voters ≠ [] := by
  rintro rfl
  cases h

/-- With no old voters to count, advancing the commit index panics. -/
theorem advanceCommitIndex_onWire
    (h : node.advanceCommitIndex = some (node', effects)) :
    node.currentConfig.OnWire := by
  obtain ⟨candidate, hcandidate, -⟩ := advanceCommitIndex_cases h
  obtain ⟨newCandidate, -, hcandidate⟩ := Option.bind_eq_some_iff.mp hcandidate
  intro hold
  rw [hold] at hcandidate
  obtain ⟨oldCandidate, hindex, -⟩ := Option.bind_eq_some_iff.mp hcandidate
  exact majorityIndex_ne_nil hindex rfl

/-- A leader without voters cannot open a change of membership. -/
theorem jointEntry_onWire {newVoters : List NodeId} {index : Nat}
    (h : node.proposeConfigChange newVoters =
      some (some (node', index, effects))) :
    (node.jointEntry newVoters).OnWire := by
  unfold proposeConfigChange at h
  split at h
  · cases h
  have hentry : (node.dropPromoted newVoters).1.jointEntry newVoters =
      node.jointEntry newVoters := rfl
  generalize node.dropPromoted newVoters = dropped at *
  obtain ⟨remaining, persist⟩ := dropped
  obtain ⟨⟨last, index', rest⟩, happended, -⟩ := Option.bind_eq_some_iff.mp h
  obtain ⟨⟨next, first⟩, hadvance, -⟩ :=
    Option.bind_eq_some_iff.mp happended
  have hwire := advanceCommitIndex_onWire hadvance
  intro config hconfig
  rw [← hentry] at hconfig
  rw [currentConfig_push remaining hconfig] at hwire
  exact hwire

theorem OnWire.receive (h : node.OnWire) {sender : NodeId} {message : Message}
    (hwire : message.OnWire)
    (hstep : node.step (.step sender message) = some (node', effects)) :
    node'.OnWire := by
  have hsame : Appends node [] node' → node'.OnWire :=
    fun hadded => h.appends hadded (by simp)
  have hignored : some (node, []) = some (node', effects) → node'.OnWire := by
    intro heq
    cases heq
    exact h
  have hplain : (∃ added, Appends node added node' ∧ NoneJoint added) →
      node'.OnWire := by
    rintro ⟨added, hadded, hnone⟩
    exact h.appends hadded (NoneJoint.onWire hnone)
  cases message with
  | requestVote request =>
      simp only [step] at hstep
      split at hstep
      · exact hignored hstep
      split at hstep
      · exact hignored hstep
      · exact hsame (onRequestVote_appends hstep)
  | requestVoteResponse response =>
      simp only [step] at hstep
      split at hstep
      · exact hignored hstep
      · exact hsame (onRequestVoteResponse_appends hstep)
  | appendEntries request =>
      simp only [step] at hstep
      split at hstep
      · exact hignored hstep
      · exact onWire_iff.mpr ((onWire_iff.mp h).onAppendEntries hwire hstep)
  | appendEntriesResponse response =>
      simp only [step] at hstep
      split at hstep
      · exact hignored hstep
      · exact hplain (onAppendEntriesResponse_appends hstep)
  | installSnapshot request =>
      simp only [step] at hstep
      split at hstep
      · exact hignored hstep
      · rcases onInstallSnapshot_cases hstep with hadded | ⟨hempty, hconfig, -⟩
        · exact hsame hadded
        · refine ⟨by simp [hempty], ?_⟩
          rw [hconfig]
          exact hwire
  | installSnapshotResponse response =>
      simp only [step] at hstep
      split at hstep
      · exact hignored hstep
      · exact hplain (onInstallSnapshotResponse_appends hstep)

/-- A node that starts with configurations the wire can carry never stores
any other. -/
theorem OnWire.perform (h : node.OnWire) {operation : Operation}
    (hwire : operation.OnWire)
    (hperform : node.perform operation = some (node', effects)) :
    node'.OnWire := by
  cases operation with
  | tick nextTimeout =>
      have htick : node.onTick nextTimeout = some (node', effects) := hperform
      exact h.appends (onTick_appends htick) (by simp)
  | receive sender message => exact h.receive hwire hperform
  | propose command =>
      obtain ⟨answer, hanswer, hperform⟩ := Option.bind_eq_some_iff.mp hperform
      rcases answer with _ | ⟨last, index, rest⟩
      · cases hperform
        exact h
      · cases hperform
        obtain ⟨-, more, hadded, hnone⟩ := propose_appends hanswer
        exact h.appends hadded (List.forall_mem_cons.mpr
          ⟨nofun, NoneJoint.onWire hnone⟩)
  | proposeConfigChange newVoters =>
      obtain ⟨answer, hanswer, hperform⟩ := Option.bind_eq_some_iff.mp hperform
      rcases answer with _ | ⟨last, index, rest⟩
      · cases hperform
        exact h
      · cases hperform
        obtain ⟨-, -, -, more, hadded, hnone⟩ :=
          proposeConfigChange_appends hanswer
        exact h.appends hadded (List.forall_mem_cons.mpr
          ⟨jointEntry_onWire hanswer, NoneJoint.onWire hnone⟩)
  | addLearner id =>
      obtain rfl := congrArg Prod.fst (Option.some.inj hperform)
      unfold addLearner
      split <;> exact ⟨h.log, h.snapshotConfig⟩
  | removeLearner id =>
      obtain rfl := congrArg Prod.fst (Option.some.inj hperform)
      unfold removeLearner
      split <;> exact ⟨h.log, h.snapshotConfig⟩
  | compact upToIndex snapshotData =>
      obtain ⟨answer, hanswer, hperform⟩ := Option.bind_eq_some_iff.mp hperform
      rcases answer with _ | ⟨last, rest⟩
      · cases hperform
        exact h
      · cases hperform
        exact onWire_iff.mpr ((onWire_iff.mp h).compact hanswer)

end Node

/-- The requests a node answers by one message to the one who asked. -/
def Message.isRequest : Message → Bool
  | .requestVote _ | .appendEntries _ | .installSnapshot _ => true
  | _ => false

/-- Nothing at all, or writes and then the only message, sent to `sender`. -/
def Answers (sender : NodeId) (effects : List Effect) : Prop :=
  effects = [] ∨ ∃ persists reply,
    effects = persists ++ [.send sender reply] ∧
      ∀ effect ∈ persists, effect.isSend = false

namespace Node

variable {node node' : Node} {effects : List Effect} {sender : NodeId}

theorem Answers.reply {persists : List Effect} {reply : Message}
    (hpersists : ∀ effect ∈ persists, effect.isSend = false) :
    Answers sender (persists ++ [.send sender reply]) :=
  Or.inr ⟨persists, reply, rfl, hpersists⟩

theorem Answers.single (reply : Message) :
    Answers sender [.send sender reply] :=
  Or.inr ⟨[], reply, rfl, by simp⟩

theorem onRequestVote_answers {request : RequestVote}
    (h : node.onRequestVote sender request = some (node', effects)) :
    Answers sender effects := by
  unfold onRequestVote at h
  split at h
  · cases h
    exact Answers.single _
  split at h
  · cases h
    exact Answers.single _
  split at h
  · cases h
    exact Answers.single _
  dsimp only at h
  cases h
  refine Answers.reply ?_
  split <;> simp [persistHardState, Effect.isSend]

theorem followLeader_writes (node : Node) (term : Nat) :
    ∀ effect ∈ (node.followLeader term).2, effect.isSend = false := by
  unfold followLeader
  dsimp only
  split <;> simp [persistHardState, Effect.isSend]

theorem persistChanged_writes {changed : Option Nat}
    (h : node.persistChanged changed = some effects) :
    ∀ effect ∈ effects, effect.isSend = false := by
  cases changed with
  | none =>
      cases h
      simp
  | some fromIndex =>
      obtain ⟨entries, -, h⟩ := Option.bind_eq_some_iff.mp h
      cases h
      simp [Effect.isSend]

theorem onAppendEntries_answers {request : AppendEntries}
    (h : node.onAppendEntries sender request = some (node', effects)) :
    Answers sender effects := by
  unfold onAppendEntries at h
  split at h
  · cases h
    exact Answers.single _
  have hfollow := node.followLeader_writes request.term
  generalize node.followLeader request.term = followed at *
  obtain ⟨follower, persistTerm⟩ := followed
  dsimp only at h hfollow
  split at h
  · cases h
    exact Answers.reply hfollow
  obtain ⟨persistLog, hpersist, h⟩ := Option.bind_eq_some_iff.mp h
  cases h
  exact Answers.reply (List.forall_mem_append.mpr
    ⟨hfollow, persistChanged_writes hpersist⟩)

theorem onInstallSnapshot_answers {request : InstallSnapshot}
    (h : node.onInstallSnapshot sender request = some (node', effects)) :
    Answers sender effects := by
  unfold onInstallSnapshot at h
  split at h
  · cases h
    exact Answers.single _
  have hfollow := node.followLeader_writes request.term
  generalize node.followLeader request.term = followed at *
  obtain ⟨follower, persistTerm⟩ := followed
  dsimp only at h hfollow
  split at h
  · cases h
    exact Answers.reply hfollow
  · cases h
    rw [show persistTerm ++ [.persistSnapshot request.lastIncludedIndex
        request.lastIncludedTerm request.data request.config,
        .persistLog (request.lastIncludedIndex + 1) [],
        (follower.install request).snapshotReply sender
          request.lastIncludedIndex] =
      (persistTerm ++ [.persistSnapshot request.lastIncludedIndex
        request.lastIncludedTerm request.data request.config,
        .persistLog (request.lastIncludedIndex + 1) []]) ++
      [(follower.install request).snapshotReply sender
          request.lastIncludedIndex] by simp]
    exact Answers.reply (List.forall_mem_append.mpr
      ⟨hfollow, by simp [Effect.isSend]⟩)

/-- A request is answered to the one who sent it, after everything the answer
rests on. -/
theorem request_answers {message : Message} (hrequest : message.isRequest = true)
    (h : node.step (.step sender message) = some (node', effects)) :
    Answers sender effects := by
  have hignored : some (node, []) = some (node', effects) →
      Answers sender effects := by
    intro heq
    cases heq
    exact Or.inl rfl
  cases message with
  | requestVote request =>
      simp only [step] at h
      split at h
      · exact hignored h
      split at h
      · exact hignored h
      · exact onRequestVote_answers h
  | appendEntries request =>
      simp only [step] at h
      split at h
      · exact hignored h
      · exact onAppendEntries_answers h
  | installSnapshot request =>
      simp only [step] at h
      split at h
      · exact hignored h
      · exact onInstallSnapshot_answers h
  | requestVoteResponse response => cases hrequest
  | appendEntriesResponse response => cases hrequest
  | installSnapshotResponse response => cases hrequest

end Node

end Kurogane.Raft

namespace Kurogane.Runtime

open Kurogane.Raft

namespace Storage

/-- The stored membership is the one of `durable`, or an earlier one the wire
can carry. -/
def ConfigOnWire (storage : Storage) (durable : Durable) : Prop :=
  storage.snapshotConfig = durable.snapshot.config ∨
    storage.snapshotConfig.OnWire

theorem ConfigOnWire.apply {storage storage' : Storage}
    {durable durable' : Durable} (h : storage.ConfigOnWire durable)
    {effect : Effect} (happly : storage.apply effect = some storage')
    (hrecord : durable.record effect = some durable') :
    storage'.ConfigOnWire durable' := by
  cases effect with
  | send receiver message =>
      cases happly
      cases hrecord
      exact h
  | persistHardState term votedFor =>
      cases happly
      cases hrecord
      exact h
  | persistLog fromIndex entries =>
      simp only [Storage.apply, Option.ite_none_left_eq_some] at happly
      simp only [Durable.record, Option.ite_none_left_eq_some] at hrecord
      obtain ⟨-, happly⟩ := happly
      obtain ⟨-, hrecord⟩ := hrecord
      cases happly
      cases hrecord
      exact h
  | persistSnapshot index term data config =>
      cases happly
      cases hrecord
      exact Or.inl rfl
  | persistLearners learners =>
      cases happly
      cases hrecord
      exact h

theorem ConfigOnWire.applyAll {effects : List Effect} :
    ∀ {storage storage' : Storage} {durable durable' : Durable},
      storage.ConfigOnWire durable →
      storage.applyAll effects = some storage' →
      durable.recordAll effects = some durable' →
      storage'.ConfigOnWire durable' := by
  induction effects with
  | nil =>
      intro storage storage' durable durable' h happly hrecord
      cases happly
      cases hrecord
      exact h
  | cons effect rest ih =>
      intro storage storage' durable durable' h happly hrecord
      obtain ⟨next, hnext, happly⟩ := Option.bind_eq_some_iff.mp happly
      obtain ⟨later, hlater, hrecord⟩ := Option.bind_eq_some_iff.mp hrecord
      exact ih (h.apply hnext hlater) happly hrecord

/-- A node rebuilt from a storage holds what the storage does. -/
theorem mirrors_of_recover {storage : Storage} {id : NodeId}
    {peers : List NodeId} {electionTimeout heartbeatInterval : Nat} {node : Node}
    (hrecover : Node.recover id peers electionTimeout heartbeatInterval
      storage.hardState storage.log
      ⟨storage.snapshot, storage.snapshotData, storage.snapshotConfig⟩
      storage.learners = .ok node) : storage.Mirrors node.durable := by
  obtain ⟨-, -, -, -, -, hdurable, -⟩ := Node.recover_ok hrecover
  rw [hdurable]
  exact ⟨rfl, rfl, rfl, rfl, fun hpos => (if_pos hpos).symm, rfl⟩

theorem Mirrors.performAll {operations : List Operation} :
    ∀ {storage : Storage} {node node' : Node} {batches : List (List Effect)},
      storage.Mirrors node.durable →
      node.performAll operations = some (node', batches) →
      ∃ storage', storage.applyAll batches.flatten = some storage' ∧
        storage'.Mirrors node'.durable := by
  induction operations with
  | nil =>
      intro storage node node' batches h hall
      cases hall
      exact ⟨storage, rfl, h⟩
  | cons operation rest ih =>
      intro storage node node' batches h hall
      obtain ⟨next, batch, batches', hperform, hlater, rfl⟩ :=
        Node.performAll_cons hall
      obtain ⟨middle, hmiddle, h⟩ :=
        h.applyAll (Node.perform_writeAhead hperform).recorded
      obtain ⟨last, hlast, h⟩ := ih h hlater
      refine ⟨last, ?_, h⟩
      rw [List.flatten_cons, Storage.applyAll, List.foldlM_append]
      exact Option.bind_eq_some_iff.mpr ⟨middle, hmiddle, hlast⟩

theorem node_onWire_of_recover {storage : Storage} (hwire : storage.OnWire)
    {id : NodeId} {peers : List NodeId}
    {electionTimeout heartbeatInterval : Nat} {node : Node}
    (hrecover : Node.recover id peers electionTimeout heartbeatInterval
      storage.hardState storage.log
      ⟨storage.snapshot, storage.snapshotData, storage.snapshotConfig⟩
      storage.learners = .ok node) : node.OnWire := by
  obtain ⟨-, -, -, -, -, hdurable, -⟩ := Node.recover_ok hrecover
  have hlog : node.log = storage.log :=
    congrArg (fun d : Durable => d.log) hdurable
  have hconfig : node.snapshotConfig =
      if storage.snapshot.lastIncludedIndex > 0 then storage.snapshotConfig
      else ⟨peers, none⟩ :=
    congrArg (fun d : Durable => d.snapshot.config) hdurable
  refine ⟨hlog ▸ hwire.log, ?_⟩
  rw [hconfig]
  split
  · exact hwire.snapshotConfig
  · nofun

end Storage

/-- A node over its disk: the storage holds what the node does, and the file
is up to date. -/
structure Follows (codec : Codec) (disk : Disk) (node : Node) : Prop where
  mirrors : disk.storage.Mirrors node.durable
  synced : codec.Synced disk
  wire : node.OnWire
  config : disk.storage.ConfigOnWire node.durable

namespace Follows

variable {codec : Codec} {disk : Disk} {node node' : Node}

theorem onWire (h : Follows codec disk node) : disk.storage.OnWire := by
  refine ⟨?_, ?_⟩
  · rw [h.mirrors.log]
    exact h.wire.log
  · rcases h.config with hsame | hwire
    · rw [hsame]
      exact h.wire.snapshotConfig
    · exact hwire

theorem perform (h : Follows codec disk node) {operation : Operation}
    (hwire : operation.OnWire) {batch : List Effect}
    (hperform : node.perform operation = some (node', batch)) :
    ∃ disk', codec.applyAll disk batch = some disk' ∧
      Follows codec disk' node' := by
  have hrecorded := (Node.perform_writeAhead hperform).recorded
  obtain ⟨storage, happly, hmirrors⟩ := h.mirrors.applyAll hrecorded
  obtain ⟨disk', hdisk, rfl, hsynced⟩ :=
    Codec.applyAll_storage h.synced happly
  exact ⟨disk', hdisk, hmirrors, hsynced, h.wire.perform hwire hperform,
    h.config.applyAll happly hrecorded⟩

theorem performAll {operations : List Operation} :
    ∀ {disk : Disk} {node : Node} {batches : List (List Effect)},
      Follows codec disk node → (∀ operation ∈ operations, operation.OnWire) →
      node.performAll operations = some (node', batches) →
      ∃ disk', codec.applyAll disk batches.flatten = some disk' ∧
        Follows codec disk' node' := by
  induction operations with
  | nil =>
      intro disk node batches h _ hall
      cases hall
      exact ⟨disk, rfl, h⟩
  | cons operation rest ih =>
      intro disk node batches h hwire hall
      obtain ⟨hfirst, hrest⟩ := List.forall_mem_cons.mp hwire
      obtain ⟨next, batch, batches', hperform, hlater, rfl⟩ :=
        Node.performAll_cons hall
      obtain ⟨disk₁, hdisk₁, h₁⟩ := h.perform hfirst hperform
      obtain ⟨disk₂, hdisk₂, h₂⟩ := ih h₁ hrest hlater
      exact ⟨disk₂, Codec.applyAll_append hdisk₁ hdisk₂, h₂⟩

end Follows

/-! ### Machine words -/

namespace Codec

/-- Records one effect. A message is not persistence and is not flushed. -/
def applyWith (codec : Codec) (arith : Words.Arithmetic) (disk : Disk)
    (effect : Effect) : Option Disk := do
  let storage ← disk.storage.applyWith arith effect
  if effect.isSend then some disk else some (codec.flush storage)

def applyAllWith (codec : Codec) (arith : Words.Arithmetic) (disk : Disk)
    (effects : List Effect) : Option Disk :=
  effects.foldlM (codec.applyWith arith) disk

/-- What a debug build records without a panic is recorded by every build. -/
theorem applyAllWith_of_applyAll {codec : Codec} (build : Build) {disk disk' : Disk}
    {effects : List Effect} (h : codec.applyAll disk effects = some disk') :
    codec.applyAllWith build.arithmetic disk effects = some disk' := by
  have hbelow : Build.debug.arithmetic.Below build.arithmetic := by
    cases build with
    | debug => exact ⟨fun _ _ => .refl _, fun _ _ => .refl _⟩
    | release => exact Words.Arithmetic.checked_below_wrapping _
  have hone : ∀ (disk : Disk) (effect : Effect),
      Words.Narrows (codec.apply disk effect)
        (codec.applyWith build.arithmetic disk effect) := by
    intro disk effect
    refine .bind ?_ fun _ => .refl _
    rw [← Storage.applyWith_debug]
    exact Storage.applyWith_narrows hbelow disk.storage effect
  induction effects generalizing disk with
  | nil => exact h
  | cons effect rest ih =>
      obtain ⟨next, hnext, hrest⟩ := Option.bind_eq_some_iff.mp h
      exact Option.bind_eq_some_iff.mpr ⟨next, hone disk effect next hnext, ih hrest⟩

end Codec

/-- From a storage file, or from none, on: whatever a node is asked to do, the
storage it writes holds what the node does and reads back from the file; no
splice underflows, not even with overflow checks; all writes of a batch precede its
messages; and a request of a peer is answered last, to that peer alone. A debug build
never goes on after an overflow; of a release build it takes that nothing overflows. -/
theorem write_ahead_mirroring {codec : Codec} (hcodec : codec.Inverts)
    {file : Option Bytes} {disk : Disk} (hopen : codec.openFile file = .ok disk)
    {build : Build} {id : NodeId} {peers : List NodeId}
    {electionTimeout heartbeatInterval : Nat} {node node' : Node}
    (hrecover : Node.recoverWith build.arithmetic id peers electionTimeout
      heartbeatInterval disk.storage.hardState disk.storage.log
      ⟨disk.storage.snapshot, disk.storage.snapshotData,
        disk.storage.snapshotConfig⟩ disk.storage.learners = some (.ok node))
    {operations : List Operation}
    (hwire : ∀ operation ∈ operations, operation.OnWire)
    {batches : List (List Effect)}
    (hperform : node.performAllWith build.arithmetic operations = some (node', batches))
    (hrange : build = .release →
      (Node.recoverWith Build.debug.arithmetic id peers electionTimeout
        heartbeatInterval disk.storage.hardState disk.storage.log
        ⟨disk.storage.snapshot, disk.storage.snapshotData,
          disk.storage.snapshotConfig⟩ disk.storage.learners).isSome = true ∧
      (node.performAllWith Build.debug.arithmetic operations).isSome = true) :
    (∃ disk', (∀ build' : Build,
        codec.applyAllWith build'.arithmetic disk batches.flatten = some disk') ∧
      disk'.storage.Mirrors node'.durable ∧
      codec.openFile disk'.file = .ok disk') ∧
    List.Forall₂ (fun operation batch =>
      batch.Pairwise (fun first second : Effect =>
        first.isSend = true → second.isSend = true) ∧
      ∀ sender message, operation = .receive sender message →
        message.isRequest = true → Answers sender batch)
      operations batches := by
  have hrecover := Node.recoverWith_of_inRange (fun h => (hrange h).1) hrecover
  have hperform := Node.performAllWith_of_inRange (fun h => (hrange h).2) hperform
  obtain ⟨hstorage, hsynced⟩ := Codec.openFile_onWire hopen
  have hfollows : Follows codec disk node :=
    ⟨Storage.mirrors_of_recover hrecover, hsynced,
      Storage.node_onWire_of_recover hstorage hrecover,
      Or.inr hstorage.snapshotConfig⟩
  refine ⟨?_, ?_⟩
  · obtain ⟨disk', happly, h⟩ := hfollows.performAll hwire hperform
    exact ⟨disk', fun build' => Codec.applyAllWith_of_applyAll build' happly, h.mirrors,
      h.synced.reopens hcodec h.onWire⟩
  · refine Node.performAll_forall (fun _ _ operation batch hstep => ?_) hperform
    refine ⟨(Node.perform_writeAhead hstep).ordered, ?_⟩
    rintro sender message rfl hrequest
    exact Node.request_answers hrequest hstep

/-- Requests to a single voter: it elects itself, commits a command, admits a
learner, turns its vote request down and compacts. -/
def singleVoterRequests : List Operation :=
  [.tick 2, .tick 2, .propose [7], .addLearner ⟨2⟩,
    .receive ⟨2⟩ (.requestVote ⟨5, ⟨2⟩, 0, 0⟩), .compact 1 [9], .propose [8]]

theorem write_ahead_mirroring_single_voter :
    ∃ node node' batches disk',
      Node.recoverWith Build.release.arithmetic ⟨1⟩ [⟨1⟩] 2 1 .default [] .default [] =
        some (.ok node) ∧
      node.performAllWith Build.release.arithmetic singleVoterRequests =
        some (node', batches) ∧
      protobuf.applyAllWith Build.debug.arithmetic ⟨.fresh, none⟩ batches.flatten =
        some disk' ∧
      disk'.storage.Mirrors node'.durable ∧
      protobuf.openFile disk'.file = .ok disk' ∧
      node'.snapshot = ⟨1, 1⟩ ∧ node'.log = [⟨1, .command [8]⟩] ∧
      Answers ⟨2⟩ (batches.getD 4 []) ∧ batches.getD 4 [] ≠ [] := by
  have hcheck : ((Node.recoverWith Build.release.arithmetic ⟨1⟩ [⟨1⟩] 2 1 .default []
      .default []).bind (fun recovered => recovered.toOption.bind (fun node =>
        (node.performAllWith Build.release.arithmetic singleVoterRequests).map
          (fun result => (recovered, node, result))))).any
      (fun found => decide (
        (found.2.1.performAllWith Build.debug.arithmetic singleVoterRequests).isSome =
          true ∧ found.2.2.1.snapshot = ⟨1, 1⟩ ∧
        found.2.2.1.log = [⟨1, .command [8]⟩] ∧ found.2.2.2.length = 7 ∧
        found.2.2.2.getD 4 [] ≠ [])) = true := by
    decide +kernel
  obtain ⟨⟨recovered, node, node', batches⟩, hfound, hdebug, hsnapshot, hlog, hlength,
    hanswered⟩ := exists_of_any hcheck
  simp only [Option.bind_eq_some_iff, Option.map_eq_some_iff, Prod.mk.injEq] at hfound
  obtain ⟨_, hrecover, _, hnew, _, hperform, rfl, rfl, rfl⟩ := hfound
  rw [ok_of_toOption hnew] at hrecover
  have hlength : batches.length = 7 := hlength
  have hwire : ∀ operation ∈ singleVoterRequests,
      operation.OnWire := by
    simp [singleVoterRequests, Operation.OnWire, Message.OnWire]
  have hopen : protobuf.openFile none = .ok ⟨.fresh, none⟩ := rfl
  obtain ⟨⟨disk', happly, hmirrors, hreopens⟩, hbatches⟩ :=
    write_ahead_mirroring protobuf_inverts hopen hrecover hwire hperform
      (fun _ => ⟨by decide +kernel, hdebug⟩)
  refine ⟨_, node', batches, disk', hrecover, hperform, happly .debug,
    hmirrors, hreopens, hsnapshot, hlog, ?_, hanswered⟩
  have hfour := (List.forall₂_iff_get.mp hbatches).2 4 (by decide)
    (by omega)
  have hanswer := hfour.2 ⟨2⟩ _ rfl rfl
  have hlt : 4 < batches.length := by omega
  simpa [List.getElem?_eq_getElem hlt] using hanswer

/-- A snapshot that ends at the largest index. -/
def lastSnapshot : InstallSnapshot where
  term := 1
  leaderId := ⟨2⟩
  lastIncludedIndex := 2 ^ 64 - 1
  lastIncludedTerm := 1
  data := [7]
  config := ⟨[⟨1⟩, ⟨2⟩], none⟩

/-- The index after it wraps to zero in a release build, and the position of the splice
that goes there underflows. -/
theorem wrapped_splice_underflows : ∃ node node' batches,
    Node.recoverWith Build.release.arithmetic ⟨1⟩ [⟨1⟩, ⟨2⟩] 2 1 .default [] .default [] =
      some (.ok node) ∧
    node.performAllWith Build.release.arithmetic
      [.receive ⟨2⟩ (.installSnapshot lastSnapshot)] = some (node', batches) ∧
    .persistLog 0 [] ∈ batches.flatten ∧
    protobuf.applyAllWith Build.debug.arithmetic ⟨.fresh, none⟩ batches.flatten =
      none := by
  have hcheck : ((Node.recoverWith Build.release.arithmetic ⟨1⟩ [⟨1⟩, ⟨2⟩] 2 1 .default []
      .default []).bind (fun recovered => recovered.toOption.bind (fun node =>
        (node.performAllWith Build.release.arithmetic
          [.receive ⟨2⟩ (.installSnapshot lastSnapshot)]).map
          (fun result => (recovered, node, result))))).any
      (fun found => decide (.persistLog 0 [] ∈ found.2.2.2.flatten ∧
        protobuf.applyAllWith Build.debug.arithmetic ⟨.fresh, none⟩
          found.2.2.2.flatten = none)) = true := by
    decide +kernel
  obtain ⟨⟨recovered, node, node', batches⟩, hfound, hsplice, hunderflows⟩ :=
    exists_of_any hcheck
  simp only [Option.bind_eq_some_iff, Option.map_eq_some_iff, Prod.mk.injEq] at hfound
  obtain ⟨_, hrecover, _, hnew, _, hperform, rfl, rfl, rfl⟩ := hfound
  rw [ok_of_toOption hnew] at hrecover
  exact ⟨_, node', batches, hrecover, hperform, hsplice, hunderflows⟩

end Kurogane.Runtime
