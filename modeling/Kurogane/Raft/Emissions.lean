import Kurogane.Raft.Appends

/-!
Where the messages of a batch go and which snapshot a batch is about. A node
writes to itself only to answer itself, and the snapshot it sends or stores is
the one it holds once the request has been served.
-/

namespace Kurogane.Raft

/-- The member that is waiting for an answer. -/
def Operation.asked : Operation → Option NodeId
  | .receive sender _ => some sender
  | _ => none

/-- What a node may emit that has come to `node` by a request of `asked`, when
a snapshot it stores meets `stores`. -/
def Effect.Emittable (node : Node) (asked : Option NodeId)
    (stores : Nat → ClusterConfig → Prop) : Effect → Prop
  | .send receiver message =>
      (receiver = node.id → asked = some receiver) ∧
        ∀ request, message = .installSnapshot request →
          request.lastIncludedIndex = node.snapshot.lastIncludedIndex
  | .persistSnapshot index _ _ config => stores index config
  | _ => True

theorem Effect.Emittable.congr {effect : Effect} {node node' : Node}
    {asked : Option NodeId} {stores : Nat → ClusterConfig → Prop}
    (h : effect.Emittable node asked stores)
    (hid : node'.id = node.id) (hsnapshot : node'.snapshot = node.snapshot) :
    effect.Emittable node' asked stores := by
  unfold Emittable
  rw [hid, hsnapshot]
  exact h

namespace Node

variable {node node' : Node} {effects : List Effect} {asked : Option NodeId}
  {stores : Nat → ClusterConfig → Prop}

/-- What a request stores is the snapshot it moves the boundary to. -/
def Stores (node node' : Node) (operation : Operation) (index : Nat)
    (config : ClusterConfig) : Prop :=
  MovesBoundary node node' operation ∧
    index = node'.snapshot.lastIncludedIndex ∧ config = node'.snapshotConfig

/-! ### Messages -/

theorem replicateTo_emittable {peer : NodeId} {effect : Effect}
    (hpeer : peer = node.id → asked = some peer)
    (h : node.replicateTo peer = some effect) : effect.Emittable node asked stores := by
  unfold replicateTo at h
  obtain ⟨nextIndex, -, h⟩ := Option.bind_eq_some_iff.mp h
  split at h
  · cases h
    refine ⟨hpeer, fun request heq => ?_⟩
    cases heq
    rfl
  · obtain ⟨entries, -, h⟩ := Option.bind_eq_some_iff.mp h
    cases h
    exact ⟨hpeer, nofun⟩

theorem mem_replicationTargets {peer : NodeId} :
    peer ∈ node.replicationTargets ↔
      (node.currentConfig.isVoter peer = true ∨ peer ∈ node.learners) ∧
        peer ≠ node.id := by
  simp [replicationTargets, ClusterConfig.isVoter, or_and_right, or_assoc]

theorem broadcastReplication_emittable
    (h : node.broadcastReplication = some effects) :
    ∀ effect ∈ effects, effect.Emittable node asked stores := by
  intro effect hmem
  obtain ⟨peer, hpeer, hsend⟩ := mem_broadcastReplication h hmem
  have hne := (mem_replicationTargets.mp hpeer).2
  exact replicateTo_emittable (fun heq => absurd heq hne) hsend

theorem continueReplication_emittable {peer : NodeId}
    (h : node.continueReplication peer = some effects) :
    ∀ effect ∈ effects, effect.Emittable node (some peer) stores := by
  unfold continueReplication at h
  split at h
  · obtain ⟨nextIndex, -, h⟩ := Option.bind_eq_some_iff.mp h
    split at h
    · obtain ⟨effect, heffect, h⟩ := Option.bind_eq_some_iff.mp h
      cases h
      exact List.forall_mem_singleton.mpr
        (replicateTo_emittable (fun _ => rfl) heffect)
    · cases h
      simp
  · cases h
    simp

theorem requestVotes_emittable (node : Node) :
    ∀ effect ∈ node.requestVotes, effect.Emittable node asked stores := by
  intro effect hmem
  obtain ⟨peer, hpeer, rfl⟩ := List.mem_map.mp hmem
  have hne : peer ≠ node.id := by simpa using (List.mem_filter.mp hpeer).2
  exact ⟨fun heq => absurd heq hne, nofun⟩

theorem advanceCommitIndex_emittable (owner : Node)
    (h : node.advanceCommitIndex = some (node', effects)) :
    ∀ effect ∈ effects, effect.Emittable owner asked stores := by
  obtain ⟨candidate, -, ⟨-, -, rfl⟩ | ⟨-, last, rest, hrest, -, rfl⟩⟩ :=
    advanceCommitIndex_cases h
  · simp
  · obtain ⟨_, -, -, rfl⟩ := advanceCommitIndex_plain
      (by rw [recomputeConfig_push_followUp]) hrest
    simp [Effect.Emittable]

theorem appendOwn_emittable (owner : Node) {entry : LogEntry} {index : Nat}
    (h : node.appendOwn entry = some (node', index, effects)) :
    ∀ effect ∈ effects, effect.Emittable owner asked stores := by
  obtain ⟨⟨last, rest⟩, hadvance, h⟩ := Option.bind_eq_some_iff.mp h
  cases h
  exact List.forall_mem_cons.mpr
    ⟨trivial, advanceCommitIndex_emittable owner hadvance⟩

/-! ### Elections -/

theorem becomeLeader_emittable (h : node.becomeLeader = some (node', effects)) :
    ∀ effect ∈ effects, effect.Emittable node asked stores := by
  obtain ⟨sends, hsends, h⟩ := Option.bind_eq_some_iff.mp h
  cases h
  have hall := @broadcastReplication_emittable _ _ asked stores hsends
  exact hall

theorem onTick_emittable {nextTimeout : Nat}
    (h : node.onTick nextTimeout = some (node', effects)) :
    ∀ effect ∈ effects, effect.Emittable node asked stores := by
  unfold onTick at h
  split at h
  · unfold onLeaderTick at h
    dsimp only at h
    split at h
    · cases h
      simp
    · obtain ⟨sends, hsends, h⟩ := Option.bind_eq_some_iff.mp h
      cases h
      have hall := @broadcastReplication_emittable _ _ asked stores hsends
      exact hall
  · dsimp only at h
    split at h
    · cases h
      simp
    unfold startElection at h
    split at h
    · cases h
      simp
    dsimp only at h
    split at h
    · obtain ⟨⟨leader, sends⟩, hleader, h⟩ := Option.bind_eq_some_iff.mp h
      cases h
      have hall := @becomeLeader_emittable _ _ _ asked stores hleader
      exact List.forall_mem_cons.mpr ⟨trivial, hall⟩
    · cases h
      refine List.forall_mem_cons.mpr ⟨trivial, ?_⟩
      have hall := @requestVotes_emittable asked stores
      exact hall _

theorem voteReply_emittable (owner : Node) {sender : NodeId} {granted : Bool} :
    (node.voteReply sender granted).Emittable owner (some sender) stores :=
  ⟨fun _ => rfl, nofun⟩

theorem persistHardState_emittable (owner node : Node) (persists : Bool) :
    ∀ effect ∈ if persists then [node.persistHardState] else [],
      effect.Emittable owner asked stores := by
  cases persists with
  | true => exact List.forall_mem_singleton.mpr trivial
  | false => simp

theorem onRequestVote_emittable (owner : Node) {sender : NodeId}
    {request : RequestVote}
    (h : node.onRequestVote sender request = some (node', effects)) :
    ∀ effect ∈ effects, effect.Emittable owner (some sender) stores := by
  unfold onRequestVote at h
  split at h
  · cases h
    exact List.forall_mem_singleton.mpr (voteReply_emittable owner)
  split at h
  · cases h
    exact List.forall_mem_singleton.mpr (voteReply_emittable owner)
  split at h
  · cases h
    exact List.forall_mem_singleton.mpr (voteReply_emittable owner)
  rw [← (Prod.mk.inj (Option.some.inj h)).2]
  exact List.forall_mem_append.mpr ⟨persistHardState_emittable owner _ _,
    List.forall_mem_singleton.mpr (voteReply_emittable owner)⟩

theorem onRequestVoteResponse_emittable {sender : NodeId}
    {response : RequestVoteResponse}
    (h : node.onRequestVoteResponse sender response = some (node', effects)) :
    ∀ effect ∈ effects, effect.Emittable node asked stores := by
  unfold onRequestVoteResponse at h
  split at h
  · cases h
    exact List.forall_mem_singleton.mpr trivial
  split at h
  · cases h
    simp
  split at h
  · dsimp only at h
    split at h
    · have hall := @becomeLeader_emittable _ _ _ asked stores h
      exact hall
    · cases h
      simp
  · cases h
    simp

/-! ### Replication -/

theorem followLeader_emittable (owner : Node) {term : Nat} :
    ∀ effect ∈ (node.followLeader term).2, effect.Emittable owner asked stores :=
  persistHardState_emittable owner _ _

theorem persistChanged_emittable (owner : Node) {changed : Option Nat}
    (h : node.persistChanged changed = some effects) :
    ∀ effect ∈ effects, effect.Emittable owner asked stores := by
  cases changed with
  | none =>
      cases h
      simp
  | some fromIndex =>
      obtain ⟨entries, -, h⟩ := Option.bind_eq_some_iff.mp h
      cases h
      exact List.forall_mem_singleton.mpr trivial

theorem onAppendEntries_emittable (owner : Node) {sender : NodeId}
    {request : AppendEntries}
    (h : node.onAppendEntries sender request = some (node', effects)) :
    ∀ effect ∈ effects, effect.Emittable owner (some sender) stores := by
  have hreply : ∀ (replier : Node) success matchIndex,
      (replier.appendReply sender success matchIndex).Emittable owner (some sender) stores :=
    fun _ _ _ => ⟨fun _ => rfl, nofun⟩
  unfold onAppendEntries at h
  split at h
  · cases h
    exact List.forall_mem_singleton.mpr (hreply _ _ _)
  dsimp only at h
  split at h
  · cases h
    exact List.forall_mem_append.mpr ⟨followLeader_emittable owner,
      List.forall_mem_singleton.mpr (hreply _ _ _)⟩
  · obtain ⟨persistLog, hlog, h⟩ := Option.bind_eq_some_iff.mp h
    cases h
    exact List.forall_mem_append.mpr ⟨List.forall_mem_append.mpr
      ⟨followLeader_emittable owner, persistChanged_emittable owner hlog⟩,
      List.forall_mem_singleton.mpr (hreply _ _ _)⟩

theorem onInstallSnapshot_emittable {sender : NodeId} {request : InstallSnapshot}
    (hsender : request.leaderId = sender)
    (h : node.onInstallSnapshot sender request = some (node', effects)) :
    ∀ effect ∈ effects, effect.Emittable node' (some sender)
      (Stores node node' (.receive sender (.installSnapshot request))) := by
  have hreply : ∀ (replier : Node) index stores,
      (replier.snapshotReply sender index).Emittable node' (some sender) stores :=
    fun _ _ _ => ⟨fun _ => rfl, nofun⟩
  subst hsender
  unfold onInstallSnapshot at h
  split at h
  · cases h
    exact List.forall_mem_singleton.mpr (hreply _ _ _)
  rename_i hcurrent
  dsimp only at h
  split at h
  · cases h
    exact List.forall_mem_append.mpr ⟨followLeader_emittable _,
      List.forall_mem_singleton.mpr (hreply _ _ _)⟩
  · cases h
    exact List.forall_mem_append.mpr ⟨followLeader_emittable _,
      List.forall_mem_cons.mpr
        ⟨⟨.install (Nat.not_lt.mp hcurrent) rfl rfl, rfl, rfl⟩,
          List.forall_mem_cons.mpr
            ⟨trivial, List.forall_mem_singleton.mpr (hreply _ _ _)⟩⟩⟩

theorem advance_then_continue_emittable {next : Node} {persist more : List Effect}
    {peer : NodeId} (hadvance : node.advanceCommitIndex = some (next, persist))
    (hmore : next.continueReplication peer = some more) :
    ∀ effect ∈ persist ++ more, effect.Emittable next (some peer) stores :=
  List.forall_mem_append.mpr ⟨advanceCommitIndex_emittable next hadvance,
    continueReplication_emittable hmore⟩

theorem onAppendEntriesResponse_emittable {sender : NodeId}
    {response : AppendEntriesResponse}
    (h : node.onAppendEntriesResponse sender response = some (node', effects)) :
    ∀ effect ∈ effects, effect.Emittable node' (some sender) stores := by
  unfold onAppendEntriesResponse at h
  split at h
  · cases h
    exact List.forall_mem_singleton.mpr trivial
  split at h
  · cases h
    simp
  split at h
  · obtain ⟨matchIndex, -, h⟩ := Option.bind_eq_some_iff.mp h
    obtain ⟨⟨next, persist⟩, hadvance, h⟩ := Option.bind_eq_some_iff.mp h
    obtain ⟨more, hmore, h⟩ := Option.bind_eq_some_iff.mp h
    cases h
    exact advance_then_continue_emittable hadvance hmore
  · obtain ⟨nextIndex, -, h⟩ := Option.bind_eq_some_iff.mp h
    dsimp only at h
    obtain ⟨more, hmore, h⟩ := Option.bind_eq_some_iff.mp h
    cases h
    exact continueReplication_emittable hmore

theorem onInstallSnapshotResponse_emittable {sender : NodeId}
    {response : InstallSnapshotResponse}
    (h : node.onInstallSnapshotResponse sender response = some (node', effects)) :
    ∀ effect ∈ effects, effect.Emittable node' (some sender) stores := by
  unfold onInstallSnapshotResponse at h
  split at h
  · cases h
    exact List.forall_mem_singleton.mpr trivial
  split at h
  · cases h
    simp
  obtain ⟨matchIndex, -, h⟩ := Option.bind_eq_some_iff.mp h
  obtain ⟨⟨next, persist⟩, hadvance, h⟩ := Option.bind_eq_some_iff.mp h
  obtain ⟨more, hmore, h⟩ := Option.bind_eq_some_iff.mp h
  cases h
  exact advance_then_continue_emittable hadvance hmore

/-! ### All requests -/

theorem receive_emittable {sender : NodeId} {message : Message}
    (h : node.step (.step sender message) = some (node', effects)) :
    ∀ effect ∈ effects, effect.Emittable node' (some sender)
      (Stores node node' (.receive sender message)) := by
  have hignored : some (node, []) = some (node', effects) →
      ∀ effect ∈ effects, effect.Emittable node' (some sender)
        (Stores node node' (.receive sender message)) := by
    intro heq
    cases heq
    simp
  cases message with
  | requestVote request =>
      simp only [step] at h
      split at h
      · exact hignored h
      split at h
      · exact hignored h
      · exact onRequestVote_emittable node' h
  | requestVoteResponse response =>
      simp only [step] at h
      split at h
      · exact hignored h
      · have hid := (onRequestVoteResponse_writeAhead h).id
        have hsame := onRequestVoteResponse_appends h
        exact fun effect hmem =>
          (onRequestVoteResponse_emittable h effect hmem).congr hid hsame.snapshot
  | appendEntries request =>
      simp only [step] at h
      split at h
      · exact hignored h
      · exact onAppendEntries_emittable node' h
  | appendEntriesResponse response =>
      simp only [step] at h
      split at h
      · exact hignored h
      · exact onAppendEntriesResponse_emittable h
  | installSnapshot request =>
      simp only [step] at h
      split at h
      · exact hignored h
      · rename_i hsender
        exact onInstallSnapshot_emittable (by simpa using hsender) h
  | installSnapshotResponse response =>
      simp only [step] at h
      split at h
      · exact hignored h
      · exact onInstallSnapshotResponse_emittable h

/-- Every effect of a batch is emittable by the node it leads to. -/
theorem perform_emittable {operation : Operation}
    (h : node.perform operation = some (node', effects)) :
    ∀ effect ∈ effects,
      effect.Emittable node' operation.asked (Stores node node' operation) := by
  have hid := (perform_writeAhead h).id
  cases operation with
  | tick nextTimeout =>
      have htick : node.onTick nextTimeout = some (node', effects) := h
      have hsame := onTick_appends htick
      exact fun effect hmem =>
        (onTick_emittable htick effect hmem).congr hid hsame.snapshot
  | receive sender message => exact receive_emittable h
  | propose command =>
      obtain ⟨answer, hanswer, h⟩ := Option.bind_eq_some_iff.mp h
      unfold propose at hanswer
      split at hanswer
      · cases hanswer
        cases h
        simp
      · obtain ⟨⟨last, index, rest⟩, happended, hanswer⟩ :=
          Option.bind_eq_some_iff.mp hanswer
        cases hanswer
        cases h
        exact appendOwn_emittable node' happended
  | proposeConfigChange newVoters =>
      obtain ⟨answer, hanswer, h⟩ := Option.bind_eq_some_iff.mp h
      unfold proposeConfigChange at hanswer
      split at hanswer
      · cases hanswer
        cases h
        simp
      · obtain ⟨⟨last, index, rest⟩, happended, hanswer⟩ :=
          Option.bind_eq_some_iff.mp hanswer
        cases hanswer
        cases h
        refine List.forall_mem_append.mpr ⟨?_, appendOwn_emittable node' happended⟩
        dsimp only
        split <;> simp [Effect.Emittable, persistLearners]
  | addLearner id =>
      obtain rfl := congrArg Prod.snd (Option.some.inj h)
      unfold addLearner
      split <;> simp [Effect.Emittable, persistLearners]
  | removeLearner id =>
      obtain rfl := congrArg Prod.snd (Option.some.inj h)
      unfold removeLearner
      split <;> simp [Effect.Emittable, persistLearners]
  | compact upToIndex snapshotData =>
      obtain ⟨answer, hanswer, h⟩ := Option.bind_eq_some_iff.mp h
      rcases answer with _ | ⟨last, rest⟩
      · cases h
        simp
      · cases h
        rcases compact_cases hanswer with ⟨-, -, rfl⟩ |
          ⟨term, config, log, habove, hcommitted, -, -, -, rfl, rfl⟩
        · simp
        · exact List.forall_mem_cons.mpr ⟨⟨.compact habove hcommitted rfl, rfl, rfl⟩,
            List.forall_mem_singleton.mpr trivial⟩

end Node

end Kurogane.Raft
