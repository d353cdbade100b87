import Kurogane.Raft.Emissions
import Kurogane.Runtime.Mirroring

/-!
Who speaks in the messages of a node and what they carry. Its requests name it as their
sender, and its answer to a request is of the kind the request asks for; all that it sends
and stores is fit for the wire, with snapshots like those it has been given.
-/

namespace Kurogane.Raft

/-- The member a request says it comes from. -/
def Message.claimant : Message → Option NodeId
  | .requestVote request => some request.candidateId
  | .appendEntries request => some request.leaderId
  | .installSnapshot request => some request.leaderId
  | .requestVoteResponse _ | .appendEntriesResponse _ | .installSnapshotResponse _ => none

/-- `reply` is of the kind that `request` asks for. -/
def Message.RepliesTo : Message → Message → Prop
  | .requestVoteResponse _, .requestVote _ => True
  | .appendEntriesResponse _, .appendEntries _ => True
  | .installSnapshotResponse _, .installSnapshot _ => True
  | _, _ => False

theorem Message.isRequest_of_claimant {message : Message} {id : NodeId}
    (h : message.claimant = some id) : message.isRequest = true := by
  cases message <;> first | rfl | cases h

/-- What a node carries for its state machine. -/
inductive Cargo where
  | command (bytes : Bytes)
  | snapshot (index : Nat) (data : Bytes)

section Fit

variable (P : Cargo → Prop)

/-- A configuration that the wire can carry, or a command that meets `P`. -/
def LogEntry.Fit (entry : LogEntry) : Prop :=
  entry.OnWire ∧ ∀ bytes, entry.payload = .command bytes → P (.command bytes)

def Message.Fit : Message → Prop
  | .appendEntries request => ∀ entry ∈ request.entries, entry.Fit P
  | .installSnapshot request =>
      request.config.OnWire ∧ P (.snapshot request.lastIncludedIndex request.data)
  | _ => True

def Operation.Fit : Operation → Prop
  | .receive _ message => message.Fit P
  | .propose command => P (.command command)
  | .compact upToIndex snapshotData => P (.snapshot upToIndex snapshotData)
  | _ => True

def Effect.Fit : Effect → Prop
  | .send _ message => message.Fit P
  | .persistLog _ entries => ∀ entry ∈ entries, entry.Fit P
  | .persistSnapshot index _ data config => config.OnWire ∧ P (.snapshot index data)
  | .persistHardState _ _ | .persistLearners _ => True

structure Durable.Fit (durable : Durable) : Prop where
  log : ∀ entry ∈ durable.log, entry.Fit P
  config : durable.snapshot.config.OnWire
  snapshot : P (.snapshot durable.snapshot.metadata.lastIncludedIndex durable.snapshot.data)

abbrev Node.Fit (node : Node) : Prop := node.durable.Fit P

/-- A message among the effects is a request in the name of `id`. -/
def Effect.Signed (id : NodeId) (effect : Effect) : Prop :=
  effect.Fit P ∧ ∀ receiver message, effect = .send receiver message →
    message.claimant = some id

/-- A message among the effects answers `request` of `sender`. -/
def Effect.AnswerTo (sender : NodeId) (request : Message) (effect : Effect) : Prop :=
  effect.Fit P ∧ (∀ receiver message, effect = .send receiver message →
    receiver = sender ∧ message.RepliesTo request) ∧
    ∀ learners, effect ≠ .persistLearners learners

end Fit

variable {P : Cargo → Prop}

theorem Message.Fit.onWire {message : Message} (h : message.Fit P) : message.OnWire := by
  cases message with
  | appendEntries request => exact fun entry hmem => (h entry hmem).1
  | installSnapshot request => exact h.1
  | _ => trivial

/-- Nothing is asked of what a node is handed by its owner. -/
theorem Operation.fit_own {operation : Operation}
    (hown : ∀ sender message, operation ≠ .receive sender message) :
    operation.Fit (fun _ => True) := by
  cases operation with
  | receive sender message => exact absurd rfl (hown sender message)
  | _ => trivial

theorem Durable.Fit.record {durable durable' : Durable} {effect : Effect}
    (h : durable.Fit P) (heffect : effect.Fit P)
    (hrecord : durable.record effect = some durable') : durable'.Fit P := by
  cases effect with
  | send receiver message | persistHardState term votedFor | persistLearners learners =>
      cases hrecord
      exact ⟨h.log, h.config, h.snapshot⟩
  | persistLog fromIndex entries =>
      simp only [Durable.record, Option.ite_none_left_eq_some] at hrecord
      obtain ⟨-, hrecord⟩ := hrecord
      cases hrecord
      exact ⟨List.forall_mem_append.mpr
        ⟨fun entry hmem => h.log entry (List.mem_of_mem_take hmem), heffect⟩,
        h.config, h.snapshot⟩
  | persistSnapshot index term data config =>
      cases hrecord
      exact ⟨h.log, heffect.1, heffect.2⟩

theorem Durable.Fit.recordAll {effects : List Effect} :
    ∀ {durable durable' : Durable}, durable.Fit P → (∀ effect ∈ effects, effect.Fit P) →
      durable.recordAll effects = some durable' → durable'.Fit P := by
  induction effects with
  | nil =>
      intro durable durable' h _ hrecord
      cases hrecord
      exact h
  | cons effect rest ih =>
      intro durable durable' h heffects hrecord
      obtain ⟨hfirst, hrest⟩ := List.forall_mem_cons.mp heffects
      obtain ⟨middle, hmiddle, hrecord⟩ := Option.bind_eq_some_iff.mp hrecord
      exact ih (h.record hfirst hmiddle) hrest hrecord

namespace Node

variable {node node' : Node} {effects : List Effect}

theorem Fit.onWire (hfit : node.Fit P) : node.OnWire :=
  ⟨fun entry hmem => (hfit.log entry hmem).1, hfit.config⟩

/-- What a batch leads to is as fit as what it records. -/
theorem fit_of_recorded (hfit : node.Fit P)
    (hrecorded : node.durable.recordAll effects = some node'.durable)
    (heffects : ∀ effect ∈ effects, effect.Fit P) : node'.Fit P :=
  hfit.recordAll heffects hrecorded

/-! ### Requests of its own -/

theorem replicateTo_signed (hfit : node.Fit P) {peer : NodeId} {effect : Effect}
    (h : node.replicateTo peer = some effect) : effect.Signed P node.id := by
  obtain ⟨nextIndex, -, h⟩ := Option.bind_eq_some_iff.mp h
  split at h
  · cases h
    refine ⟨⟨hfit.config, hfit.snapshot⟩, fun receiver message heq => ?_⟩
    cases heq
    rfl
  · obtain ⟨entries, hentries, h⟩ := Option.bind_eq_some_iff.mp h
    cases h
    refine ⟨fun entry hmem => hfit.log entry ?_, fun receiver message heq => ?_⟩
    · unfold entriesFrom at hentries
      split at hentries
      · cases hentries
        exact List.mem_of_mem_drop hmem
      · cases hentries
    · cases heq
      rfl

theorem broadcastReplication_signed (hfit : node.Fit P)
    (h : node.broadcastReplication = some effects) :
    ∀ effect ∈ effects, effect.Signed P node.id := by
  intro effect hmem
  obtain ⟨peer, -, hsend⟩ := mem_broadcastReplication h hmem
  exact replicateTo_signed hfit hsend

theorem continueReplication_signed (hfit : node.Fit P) {peer : NodeId}
    (h : node.continueReplication peer = some effects) :
    ∀ effect ∈ effects, effect.Signed P node.id := by
  unfold continueReplication at h
  split at h
  · obtain ⟨nextIndex, -, h⟩ := Option.bind_eq_some_iff.mp h
    split at h
    · obtain ⟨effect, heffect, h⟩ := Option.bind_eq_some_iff.mp h
      cases h
      exact List.forall_mem_singleton.mpr (replicateTo_signed hfit heffect)
    · cases h
      exact List.forall_mem_nil _
  · cases h
    exact List.forall_mem_nil _

theorem requestVotes_signed (node : Node) :
    ∀ effect ∈ node.requestVotes, effect.Signed P node.id := by
  intro effect hmem
  obtain ⟨peer, -, rfl⟩ := List.mem_map.mp hmem
  refine ⟨trivial, fun receiver message heq => ?_⟩
  cases heq
  rfl

theorem becomeLeader_signed (hfit : node.Fit P)
    (h : node.becomeLeader = some (node', effects)) :
    ∀ effect ∈ effects, effect.Signed P node.id := by
  obtain ⟨sends, hsends, h⟩ := Option.bind_eq_some_iff.mp h
  cases h
  have hall := @broadcastReplication_signed P _ _ (by exact hfit) hsends
  exact hall

theorem onTick_signed (hfit : node.Fit P) {nextTimeout : Nat}
    (h : node.onTick nextTimeout = some (node', effects)) :
    ∀ effect ∈ effects, effect.Signed P node.id := by
  unfold onTick at h
  split at h
  · unfold onLeaderTick at h
    dsimp only at h
    split at h
    · cases h
      exact List.forall_mem_nil _
    · obtain ⟨sends, hsends, h⟩ := Option.bind_eq_some_iff.mp h
      cases h
      have hall := @broadcastReplication_signed P _ _ (by exact hfit) hsends
      exact hall
  · dsimp only at h
    split at h
    · cases h
      exact List.forall_mem_nil _
    unfold startElection at h
    split at h
    · cases h
      exact List.forall_mem_nil _
    dsimp only at h
    split at h
    · obtain ⟨⟨leader, sends⟩, hleader, h⟩ := Option.bind_eq_some_iff.mp h
      cases h
      have hall := @becomeLeader_signed P _ _ _ (by exact ⟨hfit.log, hfit.config, hfit.snapshot⟩)
        hleader
      exact List.forall_mem_cons.mpr ⟨⟨trivial, nofun⟩, hall⟩
    · cases h
      refine List.forall_mem_cons.mpr ⟨⟨trivial, nofun⟩, ?_⟩
      have hall := requestVotes_signed (P := P) (campaign { node with
        electionElapsed := node.electionElapsed + 1
        leaderContactElapsed := node.leaderContactElapsed + 1 } nextTimeout)
      exact hall

theorem followUp_fit (node : Node) : node.followUp.Fit P := by
  refine ⟨fun config hconfig => ?_, nofun⟩
  cases hconfig
  nofun

theorem advanceCommitIndex_signed {id : NodeId}
    (h : node.advanceCommitIndex = some (node', effects)) :
    ∀ effect ∈ effects, effect.Signed P id := by
  obtain ⟨candidate, -, ⟨-, -, rfl⟩ | ⟨-, last, rest, hrest, -, rfl⟩⟩ :=
    advanceCommitIndex_cases h
  · exact List.forall_mem_nil _
  · obtain ⟨_, -, -, rfl⟩ := advanceCommitIndex_plain
      (by rw [recomputeConfig_push_followUp]) hrest
    exact List.forall_mem_singleton.mpr
      ⟨List.forall_mem_singleton.mpr (followUp_fit _), nofun⟩

theorem appendOwn_signed {id : NodeId} {entry : LogEntry} {index : Nat}
    (hentry : entry.Fit P) (h : node.appendOwn entry = some (node', index, effects)) :
    ∀ effect ∈ effects, effect.Signed P id := by
  obtain ⟨⟨last, rest⟩, hadvance, h⟩ := Option.bind_eq_some_iff.mp h
  cases h
  exact List.forall_mem_cons.mpr
    ⟨⟨List.forall_mem_singleton.mpr hentry, nofun⟩, advanceCommitIndex_signed hadvance⟩

/-- The last round of a response. -/
theorem advance_then_continue_signed {next : Node} {persist more : List Effect}
    {peer : NodeId} (hfit : node.Fit P)
    (hadvance : node.advanceCommitIndex = some (next, persist))
    (hmore : next.continueReplication peer = some more) :
    ∀ effect ∈ persist ++ more, effect.Signed P node.id := by
  have hpersists := advanceCommitIndex_persists hadvance
  have hsigned : ∀ effect ∈ persist, effect.Signed P node.id :=
    advanceCommitIndex_signed hadvance
  have hnext : next.Fit P := fit_of_recorded hfit hpersists.recorded
    (fun effect hmem => (hsigned effect hmem).1)
  refine List.forall_mem_append.mpr ⟨hsigned, ?_⟩
  rw [← hpersists.id]
  exact continueReplication_signed hnext hmore

/-! ### Responses it receives -/

theorem onRequestVoteResponse_signed (hfit : node.Fit P) {sender : NodeId}
    {response : RequestVoteResponse}
    (h : node.onRequestVoteResponse sender response = some (node', effects)) :
    ∀ effect ∈ effects, effect.Signed P node.id := by
  unfold onRequestVoteResponse at h
  split at h
  · cases h
    exact List.forall_mem_singleton.mpr ⟨trivial, nofun⟩
  split at h
  · cases h
    exact List.forall_mem_nil _
  split at h
  · dsimp only at h
    split at h
    · have hall := @becomeLeader_signed P _ _ _ (by exact hfit) h
      exact hall
    · cases h
      exact List.forall_mem_nil _
  · cases h
    exact List.forall_mem_nil _

theorem onAppendEntriesResponse_signed (hfit : node.Fit P) {sender : NodeId}
    {response : AppendEntriesResponse}
    (h : node.onAppendEntriesResponse sender response = some (node', effects)) :
    ∀ effect ∈ effects, effect.Signed P node.id := by
  unfold onAppendEntriesResponse at h
  split at h
  · cases h
    exact List.forall_mem_singleton.mpr ⟨trivial, nofun⟩
  split at h
  · cases h
    exact List.forall_mem_nil _
  split at h
  · obtain ⟨matchIndex, -, h⟩ := Option.bind_eq_some_iff.mp h
    obtain ⟨⟨next, persist⟩, hadvance, h⟩ := Option.bind_eq_some_iff.mp h
    obtain ⟨more, hmore, h⟩ := Option.bind_eq_some_iff.mp h
    cases h
    have hall := @advance_then_continue_signed P _ _ _ _ _ (by exact hfit) hadvance hmore
    exact hall
  · obtain ⟨nextIndex, -, h⟩ := Option.bind_eq_some_iff.mp h
    dsimp only at h
    obtain ⟨more, hmore, h⟩ := Option.bind_eq_some_iff.mp h
    cases h
    have hall := @continueReplication_signed P _ _ (by exact hfit) _ hmore
    exact hall

theorem onInstallSnapshotResponse_signed (hfit : node.Fit P) {sender : NodeId}
    {response : InstallSnapshotResponse}
    (h : node.onInstallSnapshotResponse sender response = some (node', effects)) :
    ∀ effect ∈ effects, effect.Signed P node.id := by
  unfold onInstallSnapshotResponse at h
  split at h
  · cases h
    exact List.forall_mem_singleton.mpr ⟨trivial, nofun⟩
  split at h
  · cases h
    exact List.forall_mem_nil _
  obtain ⟨matchIndex, -, h⟩ := Option.bind_eq_some_iff.mp h
  obtain ⟨⟨next, persist⟩, hadvance, h⟩ := Option.bind_eq_some_iff.mp h
  obtain ⟨more, hmore, h⟩ := Option.bind_eq_some_iff.mp h
  cases h
  have hall := @advance_then_continue_signed P _ _ _ _ _ (by exact hfit) hadvance hmore
  exact hall

theorem receive_response_signed (hfit : node.Fit P) {sender : NodeId} {message : Message}
    (hresponse : message.isRequest = false)
    (h : node.step (.step sender message) = some (node', effects)) :
    ∀ effect ∈ effects, effect.Signed P node.id := by
  have hignored : some (node, []) = some (node', effects) →
      ∀ effect ∈ effects, effect.Signed P node.id := by
    intro heq
    cases heq
    exact List.forall_mem_nil _
  cases message with
  | requestVote request => cases hresponse
  | appendEntries request => cases hresponse
  | installSnapshot request => cases hresponse
  | requestVoteResponse response =>
      simp only [step] at h
      split at h
      · exact hignored h
      · exact onRequestVoteResponse_signed hfit h
  | appendEntriesResponse response =>
      simp only [step] at h
      split at h
      · exact hignored h
      · exact onAppendEntriesResponse_signed hfit h
  | installSnapshotResponse response =>
      simp only [step] at h
      split at h
      · exact hignored h
      · exact onInstallSnapshotResponse_signed hfit h

/-- Unless a peer asks for something, a node sends requests only, in its own name. -/
theorem perform_signed (hfit : node.Fit P) {operation : Operation}
    (hoperation : operation.Fit P)
    (hown : ∀ sender message, operation = .receive sender message →
      message.isRequest = false)
    (h : node.perform operation = some (node', effects)) :
    ∀ effect ∈ effects, effect.Signed P node.id := by
  cases operation with
  | tick nextTimeout =>
      have htick : node.onTick nextTimeout = some (node', effects) := h
      exact onTick_signed hfit htick
  | receive sender message =>
      exact receive_response_signed hfit (hown sender message rfl) h
  | propose command =>
      obtain ⟨answer, hanswer, h⟩ := Option.bind_eq_some_iff.mp h
      unfold propose at hanswer
      split at hanswer
      · cases hanswer
        cases h
        exact List.forall_mem_nil _
      · obtain ⟨⟨last, index, rest⟩, happended, hanswer⟩ :=
          Option.bind_eq_some_iff.mp hanswer
        cases hanswer
        cases h
        have hentry : LogEntry.Fit P ⟨node.currentTerm, .command command⟩ :=
          ⟨by rintro config ⟨⟩, by rintro bytes ⟨⟩; exact hoperation⟩
        exact appendOwn_signed hentry happended
  | proposeConfigChange newVoters =>
      obtain ⟨answer, hanswer, h⟩ := Option.bind_eq_some_iff.mp h
      rcases answer with _ | ⟨last, index, rest⟩
      · cases h
        exact List.forall_mem_nil _
      · cases h
        have hentry : (node.jointEntry newVoters).Fit P :=
          ⟨jointEntry_onWire hanswer, by rintro bytes ⟨⟩⟩
        unfold proposeConfigChange at hanswer
        split at hanswer
        · cases hanswer
        · obtain ⟨⟨last, index, rest⟩, happended, hanswer⟩ :=
            Option.bind_eq_some_iff.mp hanswer
          cases hanswer
          refine List.forall_mem_append.mpr ⟨?_, appendOwn_signed hentry happended⟩
          dsimp only
          split <;> simp [Effect.Signed, Effect.Fit, persistLearners]
  | addLearner id =>
      obtain rfl := congrArg Prod.snd (Option.some.inj h)
      unfold addLearner
      split <;> simp [Effect.Signed, Effect.Fit, persistLearners]
  | removeLearner id =>
      obtain rfl := congrArg Prod.snd (Option.some.inj h)
      unfold removeLearner
      split <;> simp [Effect.Signed, Effect.Fit, persistLearners]
  | compact upToIndex snapshotData =>
      obtain ⟨answer, hanswer, h⟩ := Option.bind_eq_some_iff.mp h
      rcases answer with _ | ⟨last, rest⟩
      · cases h
        exact List.forall_mem_nil _
      · cases h
        have hwire := onWire_iff.mpr ((onWire_iff.mp (Fit.onWire hfit)).compact hanswer)
        rcases compact_cases hanswer with ⟨-, -, rfl⟩ |
          ⟨term, config, log, -, -, -, hlog, -, rfl, rfl⟩
        · exact List.forall_mem_nil _
        · refine List.forall_mem_cons.mpr
            ⟨⟨⟨hwire.snapshotConfig, hoperation⟩, by rintro receiver message ⟨⟩⟩,
              List.forall_mem_singleton.mpr
                ⟨fun entry hmem => hfit.log entry ?_, by rintro receiver message ⟨⟩⟩⟩
          rw [hlog] at hmem
          exact List.mem_of_mem_drop hmem

/-! ### Answers to requests -/

theorem persistHardState_answerTo {sender : NodeId} {request : Message} (node : Node)
    (persists : Bool) : ∀ effect ∈ if persists then [node.persistHardState] else [],
      effect.AnswerTo P sender request := by
  cases persists with
  | true => exact List.forall_mem_singleton.mpr ⟨trivial, nofun, nofun⟩
  | false => exact List.forall_mem_nil _

/-- The only message of an answer. -/
theorem reply_answerTo {sender : NodeId} {request reply : Message} (hfit : reply.Fit P)
    (hreplies : reply.RepliesTo request) :
    (Effect.send sender reply).AnswerTo P sender request := by
  refine ⟨hfit, fun receiver message heq => ?_, nofun⟩
  cases heq
  exact ⟨rfl, hreplies⟩

theorem onRequestVote_answerTo {sender : NodeId} {request : RequestVote}
    (h : node.onRequestVote sender request = some (node', effects)) :
    ∀ effect ∈ effects, effect.AnswerTo P sender (.requestVote request) := by
  have hreply : ∀ (replier : Node) granted,
      (replier.voteReply sender granted).AnswerTo P sender (.requestVote request) :=
    fun _ _ => reply_answerTo trivial trivial
  unfold onRequestVote at h
  split at h
  · cases h
    exact List.forall_mem_singleton.mpr (hreply _ _)
  split at h
  · cases h
    exact List.forall_mem_singleton.mpr (hreply _ _)
  split at h
  · cases h
    exact List.forall_mem_singleton.mpr (hreply _ _)
  rw [← (Prod.mk.inj (Option.some.inj h)).2]
  exact List.forall_mem_append.mpr ⟨persistHardState_answerTo _ _,
    List.forall_mem_singleton.mpr (hreply _ _)⟩

theorem persistChanged_answerTo {sender : NodeId} {request : Message} {changed : Option Nat}
    (hlog : ∀ entry ∈ node.log, entry.Fit P)
    (h : node.persistChanged changed = some effects) :
    ∀ effect ∈ effects, effect.AnswerTo P sender request := by
  cases changed with
  | none =>
      cases h
      exact List.forall_mem_nil _
  | some fromIndex =>
      obtain ⟨entries, hentries, h⟩ := Option.bind_eq_some_iff.mp h
      cases h
      refine List.forall_mem_singleton.mpr ⟨fun entry hmem => hlog entry ?_, nofun, nofun⟩
      unfold entriesFrom at hentries
      split at hentries
      · cases hentries
        exact List.mem_of_mem_drop hmem
      · cases hentries

/-- The log holds what it held and what it was sent. -/
theorem onAppendEntries_fit (hfit : node.Fit P) {sender : NodeId} {request : AppendEntries}
    (hrequest : ∀ entry ∈ request.entries, entry.Fit P)
    (h : node.onAppendEntries sender request = some (node', effects)) :
    ∀ entry ∈ node'.log, entry.Fit P := by
  rcases onAppendEntries_cases h with ⟨-, rfl⟩ | ⟨-, -, -, -, -, hlog⟩
  · exact hfit.log
  have hfollow : ∀ entry ∈ (node.followLeader request.term).1.log, entry.Fit P := by
    rw [(node.followLeader_appends request.term).log, List.append_nil]
    exact hfit.log
  intro entry hmem
  rcases hlog with hlog | ⟨-, hlog⟩
  · rw [hlog] at hmem
    exact hfollow entry hmem
  · rw [hlog] at hmem
    rcases mem_mergeEntries hmem with hmem | hmem
    · exact hfollow entry hmem
    · exact hrequest entry hmem

theorem onAppendEntries_answerTo (hfit : node.Fit P) {sender : NodeId}
    {request : AppendEntries} (hrequest : ∀ entry ∈ request.entries, entry.Fit P)
    (h : node.onAppendEntries sender request = some (node', effects)) :
    ∀ effect ∈ effects, effect.AnswerTo P sender (.appendEntries request) := by
  have hreply : ∀ (replier : Node) success matchIndex,
      (replier.appendReply sender success matchIndex).AnswerTo P sender
        (.appendEntries request) := fun _ _ _ => reply_answerTo trivial trivial
  have hentries := onAppendEntries_fit hfit hrequest h
  unfold onAppendEntries at h
  split at h
  · cases h
    exact List.forall_mem_singleton.mpr (hreply _ _ _)
  dsimp only at h
  split at h
  · cases h
    exact List.forall_mem_append.mpr ⟨persistHardState_answerTo _ _,
      List.forall_mem_singleton.mpr (hreply _ _ _)⟩
  · obtain ⟨persistLog, hlog, h⟩ := Option.bind_eq_some_iff.mp h
    cases h
    exact List.forall_mem_append.mpr ⟨List.forall_mem_append.mpr
      ⟨persistHardState_answerTo _ _, persistChanged_answerTo hentries hlog⟩,
      List.forall_mem_singleton.mpr (hreply _ _ _)⟩

theorem onInstallSnapshot_answerTo {sender : NodeId} {request : InstallSnapshot}
    (hrequest : (Message.installSnapshot request).Fit P)
    (h : node.onInstallSnapshot sender request = some (node', effects)) :
    ∀ effect ∈ effects, effect.AnswerTo P sender (.installSnapshot request) := by
  have hreply : ∀ (replier : Node) index,
      (replier.snapshotReply sender index).AnswerTo P sender (.installSnapshot request) :=
    fun _ _ => reply_answerTo trivial trivial
  unfold onInstallSnapshot at h
  split at h
  · cases h
    exact List.forall_mem_singleton.mpr (hreply _ _)
  dsimp only at h
  split at h
  · cases h
    exact List.forall_mem_append.mpr ⟨persistHardState_answerTo _ _,
      List.forall_mem_singleton.mpr (hreply _ _)⟩
  · cases h
    exact List.forall_mem_append.mpr ⟨persistHardState_answerTo _ _,
      List.forall_mem_cons.mpr ⟨⟨hrequest, nofun, nofun⟩, List.forall_mem_cons.mpr
        ⟨⟨List.forall_mem_nil _, nofun, nofun⟩,
          List.forall_mem_singleton.mpr (hreply _ _)⟩⟩⟩

theorem request_answerTo (hfit : node.Fit P) {sender : NodeId} {message : Message}
    (hmessage : message.Fit P) (hrequest : message.isRequest = true)
    (h : node.step (.step sender message) = some (node', effects)) :
    ∀ effect ∈ effects, effect.AnswerTo P sender message := by
  have hignored : some (node, []) = some (node', effects) →
      ∀ effect ∈ effects, effect.AnswerTo P sender message := by
    intro heq
    cases heq
    exact List.forall_mem_nil _
  cases message with
  | requestVote request =>
      simp only [step] at h
      split at h
      · exact hignored h
      split at h
      · exact hignored h
      · exact onRequestVote_answerTo h
  | appendEntries request =>
      simp only [step] at h
      split at h
      · exact hignored h
      · exact onAppendEntries_answerTo hfit hmessage h
  | installSnapshot request =>
      simp only [step] at h
      split at h
      · exact hignored h
      · exact onInstallSnapshot_answerTo hmessage h
  | requestVoteResponse response => cases hrequest
  | appendEntriesResponse response => cases hrequest
  | installSnapshotResponse response => cases hrequest

/-- All that a node stores and sends is fit, if what it is asked is. -/
theorem perform_fit (hfit : node.Fit P) {operation : Operation}
    (hoperation : operation.Fit P)
    (h : node.perform operation = some (node', effects)) :
    node'.Fit P ∧ ∀ effect ∈ effects, effect.Fit P := by
  have heffects : ∀ effect ∈ effects, effect.Fit P := by
    by_cases hrequest : ∃ sender message, operation = .receive sender message ∧
        message.isRequest = true
    · obtain ⟨sender, message, rfl, hrequest⟩ := hrequest
      exact fun effect hmem => (request_answerTo hfit hoperation hrequest h effect hmem).1
    · refine fun effect hmem =>
        (perform_signed hfit hoperation (fun sender message heq => ?_) h effect hmem).1
      exact Bool.eq_false_iff.mpr (fun htrue => hrequest ⟨sender, message, heq, htrue⟩)
  exact ⟨fit_of_recorded hfit (perform_writeAhead h).recorded heffects, heffects⟩

end Node

end Kurogane.Raft
