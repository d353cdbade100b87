import Kurogane.Consensus.Ballots
import Kurogane.Raft.Tracking

/-!
What a node says with its term and vote. Every batch advances the record of
the two, writes nothing but the record it ends with, and sends only messages
that record vouches for: messages of its term, grants to the candidate on
record, and its own requests when it is the candidate itself.
-/

namespace Kurogane.Raft

open Kurogane.Consensus

def Message.term : Message → Nat
  | .requestVote request => request.term
  | .requestVoteResponse response => response.term
  | .appendEntries request => request.term
  | .appendEntriesResponse response => response.term
  | .installSnapshot request => request.term
  | .installSnapshotResponse response => response.term

/-- The candidate `sender` votes for by sending a message to `receiver`. -/
def Message.ballot (sender receiver : NodeId) : Message → Option NodeId
  | .requestVote _ => some sender
  | .requestVoteResponse response =>
      if response.granted then some receiver else none
  | _ => none

def Message.statement (sender receiver : NodeId) (message : Message) :
    Statement NodeId :=
  ⟨message.term, message.ballot sender receiver⟩

/-- An effect that says nothing about votes. -/
def Effect.Routine (term : Nat) : Effect → Prop
  | .send _ message => ∀ sender receiver,
      message.statement sender receiver = ⟨term, none⟩
  | .persistHardState _ _ => False
  | _ => True

def HardState.voteRecord (hardState : HardState) : VoteRecord NodeId :=
  ⟨hardState.currentTerm, hardState.votedFor⟩

namespace Node

def voteRecord (node : Node) : VoteRecord NodeId :=
  ⟨node.currentTerm, node.votedFor⟩

theorem voteRecord_durable (node : Node) :
    node.durable.hardState.voteRecord = node.voteRecord := rfl

end Node

structure Speaks (node : Node) (effects : List Effect) (node' : Node) : Prop where
  id : node'.id = node.id
  advances : node.voteRecord.Advances node'.voteRecord
  writes : ∀ term votedFor, .persistHardState term votedFor ∈ effects →
    ⟨term, votedFor⟩ = node'.voteRecord
  silent : (∀ term votedFor, .persistHardState term votedFor ∉ effects) →
    node'.voteRecord = node.voteRecord
  vouched : ∀ receiver message, .send receiver message ∈ effects →
    node'.voteRecord.Vouches (message.statement node.id receiver)

/-- Only a write of the hard state changes it. -/
theorem Durable.hardState_of_recordAll {effects : List Effect} :
    ∀ {durable durable' : Durable},
      durable.recordAll effects = some durable' →
      (∀ term votedFor, .persistHardState term votedFor ∉ effects) →
      durable'.hardState = durable.hardState := by
  induction effects with
  | nil =>
      intro durable durable' h _
      cases h
      rfl
  | cons effect rest ih =>
      intro durable durable' h hnone
      rw [recordAll_cons] at h
      obtain ⟨next, hnext, hrest⟩ := Option.bind_eq_some_iff.mp h
      rw [ih hrest (fun term votedFor hmem =>
        hnone term votedFor (List.mem_cons_of_mem _ hmem))]
      cases effect with
      | send receiver message =>
          cases hnext
          rfl
      | persistHardState term votedFor =>
          exact (hnone term votedFor (List.mem_cons_self)).elim
      | persistLog fromIndex entries =>
          simp only [record, Option.ite_none_left_eq_some] at hnext
          cases hnext.2
          rfl
      | persistSnapshot index term data config =>
          cases hnext
          rfl
      | persistLearners learners =>
          cases hnext
          rfl

namespace Speaks

variable {node node₁ node' : Node} {effects first second : List Effect}

theorem routine_writes {term : Nat} (h : ∀ effect ∈ effects, effect.Routine term)
    (written : Nat) (votedFor : Option NodeId) :
    .persistHardState written votedFor ∉ effects :=
  fun hmem => h _ hmem

/-- Routine effects go after whatever else a batch begins with. -/
theorem then_routine (h : Speaks node first node₁)
    (hfirst : node.durable.recordAll first = some node₁.durable)
    (hall : WriteAhead node (first ++ second) node')
    (hroutine : ∀ effect ∈ second, effect.Routine node₁.currentTerm) :
    Speaks node (first ++ second) node' := by
  have hrecorded := hall.recorded
  rw [Durable.recordAll_append, hfirst] at hrecorded
  have hsame : node'.voteRecord = node₁.voteRecord :=
    congrArg HardState.voteRecord
      (Durable.hardState_of_recordAll hrecorded (routine_writes hroutine))
  refine ⟨hall.id, hsame ▸ h.advances, ?_, ?_, ?_⟩
  · intro term votedFor hmem
    rcases List.mem_append.mp hmem with hmem | hmem
    · exact hsame ▸ h.writes term votedFor hmem
    · exact (routine_writes hroutine term votedFor hmem).elim
  · intro hnone
    rw [hsame]
    exact h.silent (fun term votedFor hmem =>
      hnone term votedFor (List.mem_append_left _ hmem))
  · intro receiver message hmem
    rw [hsame]
    rcases List.mem_append.mp hmem with hmem | hmem
    · exact h.vouched receiver message hmem
    · have hplain := hroutine _ hmem node.id receiver
      rw [hplain]
      exact ⟨rfl, fun c hc => by cases hc⟩

theorem refl (node : Node) : Speaks node [] node :=
  ⟨rfl, .refl _, by simp, fun _ => rfl, by simp⟩

/-- A batch that says nothing about votes leaves the record alone. -/
theorem routine (hall : WriteAhead node effects node')
    (hroutine : ∀ effect ∈ effects, effect.Routine node.currentTerm) :
    Speaks node effects node' :=
  (refl node).then_routine (Durable.recordAll_nil _) hall hroutine

theorem hardState (hid : node'.id = node.id)
    (hadvances : node.voteRecord.Advances node'.voteRecord) :
    Speaks node [node'.persistHardState] node' := by
  refine ⟨hid, hadvances, ?_, ?_, ?_⟩
  · intro term votedFor hmem
    cases List.mem_singleton.mp hmem
    rfl
  · intro hnone
    exact (hnone _ _ (List.mem_singleton_self _)).elim
  · intro receiver message hmem
    cases List.mem_singleton.mp hmem

theorem of_volatile (h : Speaks node₁ effects node') (hid : node₁.id = node.id)
    (hrecord : node₁.voteRecord = node.voteRecord) : Speaks node effects node' := by
  refine ⟨h.id.trans hid, hrecord ▸ h.advances, h.writes, ?_, ?_⟩
  · exact fun hnone => (h.silent hnone).trans hrecord
  · exact fun receiver message hmem => hid ▸ h.vouched receiver message hmem

/-- Messages the record vouches for may follow. -/
theorem sends (h : Speaks node effects node')
    {messages : List Effect}
    (hsends : ∀ effect ∈ messages, ∃ receiver message,
      effect = .send receiver message ∧
        node'.voteRecord.Vouches (message.statement node.id receiver)) :
    Speaks node (effects ++ messages) node' := by
  refine ⟨h.id, h.advances, ?_, ?_, ?_⟩
  · intro term votedFor hmem
    rcases List.mem_append.mp hmem with hmem | hmem
    · exact h.writes term votedFor hmem
    · obtain ⟨receiver, message, heq, -⟩ := hsends _ hmem
      cases heq
  · intro hnone
    exact h.silent (fun term votedFor hmem =>
      hnone term votedFor (List.mem_append_left _ hmem))
  · intro receiver message hmem
    rcases List.mem_append.mp hmem with hmem | hmem
    · exact h.vouched receiver message hmem
    · obtain ⟨_, _, heq, hvouches⟩ := hsends _ hmem
      cases heq
      exact hvouches

end Speaks

namespace Node

variable {node node' : Node} {effects : List Effect}

/-! ### Messages that say nothing about votes -/

theorem replicateTo_routine {peer : NodeId} {effect : Effect}
    (h : node.replicateTo peer = some effect) :
    effect.Routine node.currentTerm := by
  unfold replicateTo at h
  obtain ⟨nextIndex, -, h⟩ := Option.bind_eq_some_iff.mp h
  split at h
  · cases h
    exact fun _ _ => rfl
  · obtain ⟨entries, -, h⟩ := Option.bind_eq_some_iff.mp h
    cases h
    exact fun _ _ => rfl

theorem broadcastReplication_routine
    (h : node.broadcastReplication = some effects) :
    ∀ effect ∈ effects, effect.Routine node.currentTerm := by
  intro effect hmem
  obtain ⟨peer, -, hpeer⟩ := mem_broadcastReplication h hmem
  exact replicateTo_routine hpeer

theorem continueReplication_routine {peer : NodeId}
    (h : node.continueReplication peer = some effects) :
    ∀ effect ∈ effects, effect.Routine node.currentTerm := by
  unfold continueReplication at h
  split at h
  · obtain ⟨nextIndex, -, h⟩ := Option.bind_eq_some_iff.mp h
    split at h
    · obtain ⟨effect, heffect, h⟩ := Option.bind_eq_some_iff.mp h
      cases h
      intro other hmem
      rw [List.mem_singleton.mp hmem]
      exact replicateTo_routine heffect
    · cases h
      simp
  · cases h
    simp

theorem advanceCommitIndex_routine (term : Nat)
    (h : node.advanceCommitIndex = some (node', effects)) :
    ∀ effect ∈ effects, effect.Routine term := by
  obtain ⟨candidate, -, ⟨-, -, rfl⟩ | ⟨-, last, rest, hrest, -, rfl⟩⟩ :=
    advanceCommitIndex_cases h
  · simp
  · obtain ⟨_, -, -, rfl⟩ := advanceCommitIndex_plain
      (by rw [recomputeConfig_push_followUp]) hrest
    simp [Effect.Routine]

theorem appendOwn_routine (term : Nat) {entry : LogEntry} {index : Nat}
    (h : node.appendOwn entry = some (node', index, effects)) :
    ∀ effect ∈ effects, effect.Routine term := by
  obtain ⟨⟨last, rest⟩, hadvance, h⟩ := Option.bind_eq_some_iff.mp h
  cases h
  exact List.forall_mem_cons.mpr
    ⟨trivial, advanceCommitIndex_routine term hadvance⟩

theorem persistChanged_routine (term : Nat) {changed : Option Nat}
    (h : node.persistChanged changed = some effects) :
    ∀ effect ∈ effects, effect.Routine term := by
  cases changed with
  | none =>
      cases h
      simp
  | some fromIndex =>
      obtain ⟨entries, -, h⟩ := Option.bind_eq_some_iff.mp h
      cases h
      exact List.forall_mem_singleton.mpr trivial

theorem advanceCommitIndex_voteRecord
    (h : node.advanceCommitIndex = some (node', effects)) :
    node'.voteRecord = node.voteRecord :=
  congrArg HardState.voteRecord
    (Durable.hardState_of_recordAll (advanceCommitIndex_persists h).recorded
      (Speaks.routine_writes (advanceCommitIndex_routine 0 h)))

theorem advance_then_continue_routine {next : Node} {persist more : List Effect}
    {peer : NodeId}
    (hadvance : node.advanceCommitIndex = some (next, persist))
    (hmore : next.continueReplication peer = some more) :
    ∀ effect ∈ persist ++ more, effect.Routine node.currentTerm := by
  have hterm : next.currentTerm = node.currentTerm :=
    congrArg VoteRecord.term (advanceCommitIndex_voteRecord hadvance)
  rw [← hterm]
  exact List.forall_mem_append.mpr
    ⟨advanceCommitIndex_routine _ hadvance, continueReplication_routine hmore⟩

theorem appendReply_routine {term : Nat} (hterm : node.currentTerm = term)
    {sender : NodeId} {success : Bool} {matchIndex : Nat} :
    (node.appendReply sender success matchIndex).Routine term := by
  intro _ _
  rw [← hterm]
  rfl

/-! ### Elections -/

theorem becomeLeader_routine (h : node.becomeLeader = some (node', effects)) :
    ∀ effect ∈ effects, effect.Routine node.currentTerm := by
  obtain ⟨sends, hsends, h⟩ := Option.bind_eq_some_iff.mp h
  cases h
  have hroutine := broadcastReplication_routine hsends
  exact hroutine

theorem campaign_advances (node : Node) (nextTimeout : Nat) :
    node.voteRecord.Advances (node.campaign nextTimeout).voteRecord :=
  Or.inl (Nat.lt_succ_self node.currentTerm)

theorem startElection_speaks {nextTimeout : Nat}
    (h : node.startElection nextTimeout = some (node', effects)) :
    Speaks node effects node' := by
  have hall := startElection_writeAhead h
  unfold startElection at h
  split at h
  · cases h
    exact .refl node
  have hcampaign : Speaks node [(node.campaign nextTimeout).persistHardState]
      (node.campaign nextTimeout) :=
    .hardState rfl (node.campaign_advances nextTimeout)
  dsimp only at h
  split at h
  · obtain ⟨⟨leader, sends⟩, hleader, h⟩ := Option.bind_eq_some_iff.mp h
    cases h
    exact hcampaign.then_routine (node.campaign_persists nextTimeout).recorded
      hall (becomeLeader_routine hleader)
  · cases h
    apply hcampaign.sends
    intro effect hmem
    obtain ⟨peer, -, rfl⟩ := List.mem_map.mp hmem
    exact ⟨peer, _, rfl, rfl, fun c hc => hc⟩

theorem onTick_speaks {nextTimeout : Nat}
    (h : node.onTick nextTimeout = some (node', effects)) :
    Speaks node effects node' := by
  have hall := onTick_writeAhead h
  unfold onTick at h
  split at h
  · apply Speaks.routine hall
    unfold onLeaderTick at h
    dsimp only at h
    split at h
    · cases h
      simp
    · obtain ⟨sends, hsends, h⟩ := Option.bind_eq_some_iff.mp h
      cases h
      exact broadcastReplication_routine hsends
  · dsimp only at h
    split at h
    · cases h
      exact .routine hall (by simp)
    · exact (startElection_speaks h).of_volatile rfl rfl

theorem stepDown_speaks {term : Nat} (hterm : node.currentTerm < term) :
    Speaks node [(node.stepDown term).persistHardState] (node.stepDown term) :=
  .hardState rfl (Or.inl hterm)

/-- A grant goes to the candidate the node has voted for, since it is the
candidate itself who asked. -/
theorem onRequestVote_speaks {sender : NodeId} {request : RequestVote}
    (hsender : request.candidateId = sender)
    (h : node.onRequestVote sender request = some (node', effects)) :
    Speaks node effects node' := by
  have hall := onRequestVote_writeAhead h
  have hrefuse : ∀ effect ∈ [node.voteReply sender false],
      effect.Routine node.currentTerm := by
    intro effect hmem
    rw [List.mem_singleton.mp hmem]
    exact fun _ _ => rfl
  unfold onRequestVote at h
  split at h
  · cases h
    exact .routine hall hrefuse
  rename_i hterm
  split at h
  · cases h
    exact .routine hall hrefuse
  split at h
  · cases h
    exact .routine hall hrefuse
  clear hall hrefuse
  dsimp only at h
  generalize hdown : (if decide (node.currentTerm < request.term) = true then
    node.stepDown request.term else node) = current at h
  generalize hgrant : (current.logIsUpToDate request &&
    (current.votedFor.isNone || decide (current.votedFor =
      some request.candidateId))) = canGrant at h
  have hid : current.id = node.id := by
    rw [← hdown]
    split <;> rfl
  have hadvances : node.voteRecord.Advances current.voteRecord := by
    rw [← hdown]
    split
    · rename_i hlater
      exact Or.inl (of_decide_eq_true hlater)
    · exact .refl _
  cases canGrant with
  | true =>
      simp only [Bool.or_true, ite_true] at h
      cases h
      have hvote : current.voteRecord.Advances
          ⟨current.currentTerm, some request.candidateId⟩ := by
        refine Or.inr ⟨rfl, fun c hc => ?_⟩
        have hvoted : current.votedFor = some c := hc
        rw [Bool.and_eq_true, hvoted] at hgrant
        have hsame : c = request.candidateId := by simpa using hgrant.2
        rw [hsame]
      have hpersist : Speaks node
          [({ current with
              votedFor := some request.candidateId
              electionElapsed := 0 } : Node).persistHardState]
          { current with
            votedFor := some request.candidateId
            electionElapsed := 0 } :=
        .hardState hid (hadvances.trans hvote)
      apply hpersist.sends
      intro effect hmem
      rw [List.mem_singleton.mp hmem]
      refine ⟨sender, _, rfl, rfl, fun c hc => ?_⟩
      cases hc
      exact congrArg some hsender
  | false =>
      simp only [Bool.or_false, Bool.false_eq_true, ite_false] at h
      obtain ⟨hnode, heffects⟩ := Prod.mk.inj (Option.some.inj h)
      rw [← hnode, ← heffects]
      have hreply : ∀ effect ∈ [current.voteReply sender false],
          ∃ receiver message, effect = .send receiver message ∧
            current.voteRecord.Vouches (message.statement node.id receiver) := by
        intro effect hmem
        rw [List.mem_singleton.mp hmem]
        exact ⟨sender, _, rfl, rfl, fun c hc => by cases hc⟩
      apply Speaks.sends _ hreply
      by_cases hlater : node.currentTerm < request.term
      · rw [decide_eq_true hlater, if_pos rfl]
        exact .hardState hid hadvances
      · rw [decide_eq_false hlater, if_neg Bool.false_ne_true] at hdown ⊢
        rw [← hdown]
        exact .refl node

theorem onRequestVoteResponse_speaks {sender : NodeId}
    {response : RequestVoteResponse}
    (h : node.onRequestVoteResponse sender response = some (node', effects)) :
    Speaks node effects node' := by
  have hall := onRequestVoteResponse_writeAhead h
  unfold onRequestVoteResponse at h
  split at h
  · rename_i hlater
    cases h
    exact stepDown_speaks hlater
  apply Speaks.routine hall
  split at h
  · cases h
    simp
  split at h
  · dsimp only at h
    split at h
    · have hroutine := becomeLeader_routine h
      exact hroutine
    · cases h
      simp
  · cases h
    simp

/-! ### Replication -/

theorem followLeader_speaks {term : Nat} :
    Speaks node (node.followLeader term).2 (node.followLeader term).1 := by
  unfold followLeader
  by_cases hlater : node.currentTerm < term
  · simp only [hlater, decide_true, ite_true]
    exact .hardState rfl (Or.inl hlater)
  · simp only [hlater, decide_false, Bool.false_eq_true, ite_false]
    refine .routine ?_ (by simp)
    split <;> exact .of_durable rfl rfl (by simp)

theorem onAppendEntries_speaks {sender : NodeId} {request : AppendEntries}
    (h : node.onAppendEntries sender request = some (node', effects)) :
    Speaks node effects node' := by
  have hall := onAppendEntries_writeAhead h
  have hcases := onAppendEntries_cases h
  unfold onAppendEntries at h
  split at h
  · cases h
    refine .routine hall (fun effect hmem => ?_)
    rw [List.mem_singleton.mp hmem]
    exact fun _ _ => rfl
  rename_i hcurrent
  dsimp only at h
  have hfollow : Speaks node (node.followLeader request.term).2
      (node.followLeader request.term).1 := followLeader_speaks
  have hpersists := (node.followLeader_persists request.term).recorded
  split at h
  · cases h
    refine hfollow.then_routine hpersists hall (fun effect hmem => ?_)
    rw [List.mem_singleton.mp hmem]
    exact fun _ _ => rfl
  · obtain ⟨persistLog, hlog, h⟩ := Option.bind_eq_some_iff.mp h
    obtain ⟨hle, hterm, -⟩ := hcases.resolve_left (fun hstale => hcurrent hstale.1)
    cases h
    rw [List.append_assoc] at hall ⊢
    refine hfollow.then_routine hpersists hall ?_
    rw [node.followLeader_term hle]
    refine List.forall_mem_append.mpr ⟨?_, fun effect hmem => ?_⟩
    · exact persistChanged_routine request.term hlog
    · rw [List.mem_singleton.mp hmem]
      exact appendReply_routine hterm

theorem onInstallSnapshot_speaks {sender : NodeId} {request : InstallSnapshot}
    (h : node.onInstallSnapshot sender request = some (node', effects)) :
    Speaks node effects node' := by
  have hall := onInstallSnapshot_writeAhead h
  unfold onInstallSnapshot at h
  split at h
  · cases h
    refine .routine hall (fun effect hmem => ?_)
    rw [List.mem_singleton.mp hmem]
    exact fun _ _ => rfl
  dsimp only at h
  have hfollow : Speaks node (node.followLeader request.term).2
      (node.followLeader request.term).1 := followLeader_speaks
  have hpersists := (node.followLeader_persists request.term).recorded
  split at h
  · cases h
    refine hfollow.then_routine hpersists hall (fun effect hmem => ?_)
    rw [List.mem_singleton.mp hmem]
    exact fun _ _ => rfl
  · cases h
    refine hfollow.then_routine hpersists hall ?_
    exact List.forall_mem_cons.mpr ⟨trivial, List.forall_mem_cons.mpr
      ⟨trivial, List.forall_mem_singleton.mpr (fun _ _ => rfl)⟩⟩

theorem onAppendEntriesResponse_speaks {sender : NodeId}
    {response : AppendEntriesResponse}
    (h : node.onAppendEntriesResponse sender response =
      some (node', effects)) : Speaks node effects node' := by
  have hall := onAppendEntriesResponse_writeAhead h
  unfold onAppendEntriesResponse at h
  split at h
  · rename_i hlater
    cases h
    exact stepDown_speaks hlater
  apply Speaks.routine hall
  split at h
  · cases h
    simp
  split at h
  · obtain ⟨matchIndex, -, h⟩ := Option.bind_eq_some_iff.mp h
    obtain ⟨⟨next, persist⟩, hadvance, h⟩ := Option.bind_eq_some_iff.mp h
    obtain ⟨more, hmore, h⟩ := Option.bind_eq_some_iff.mp h
    cases h
    have hroutine := advance_then_continue_routine hadvance hmore
    exact hroutine
  · obtain ⟨nextIndex, -, h⟩ := Option.bind_eq_some_iff.mp h
    dsimp only at h
    obtain ⟨more, hmore, h⟩ := Option.bind_eq_some_iff.mp h
    cases h
    have hroutine := continueReplication_routine hmore
    exact hroutine

theorem onInstallSnapshotResponse_speaks {sender : NodeId}
    {response : InstallSnapshotResponse}
    (h : node.onInstallSnapshotResponse sender response =
      some (node', effects)) : Speaks node effects node' := by
  have hall := onInstallSnapshotResponse_writeAhead h
  unfold onInstallSnapshotResponse at h
  split at h
  · rename_i hlater
    cases h
    exact stepDown_speaks hlater
  apply Speaks.routine hall
  split at h
  · cases h
    simp
  obtain ⟨matchIndex, -, h⟩ := Option.bind_eq_some_iff.mp h
  obtain ⟨⟨next, persist⟩, hadvance, h⟩ := Option.bind_eq_some_iff.mp h
  obtain ⟨more, hmore, h⟩ := Option.bind_eq_some_iff.mp h
  cases h
  have hroutine := advance_then_continue_routine hadvance hmore
  exact hroutine

/-! ### All requests -/

theorem step_speaks {event : Event}
    (h : node.step event = some (node', effects)) :
    Speaks node effects node' := by
  have hignored : some (node, []) = some (node', effects) →
      Speaks node effects node' := by
    intro heq
    cases heq
    exact .refl node
  cases event with
  | tick nextTimeout => exact onTick_speaks h
  | step sender message =>
      cases message with
      | requestVote request =>
          simp only [step] at h
          split at h
          · exact hignored h
          split at h
          · exact hignored h
          · rename_i hsender
            exact onRequestVote_speaks (by simpa using hsender) h
      | requestVoteResponse response =>
          simp only [step] at h
          split at h
          · exact hignored h
          · exact onRequestVoteResponse_speaks h
      | appendEntries request =>
          simp only [step] at h
          split at h
          · exact hignored h
          · exact onAppendEntries_speaks h
      | appendEntriesResponse response =>
          simp only [step] at h
          split at h
          · exact hignored h
          · exact onAppendEntriesResponse_speaks h
      | installSnapshot request =>
          simp only [step] at h
          split at h
          · exact hignored h
          · exact onInstallSnapshot_speaks h
      | installSnapshotResponse response =>
          simp only [step] at h
          split at h
          · exact hignored h
          · exact onInstallSnapshotResponse_speaks h

theorem perform_speaks {operation : Operation}
    (h : node.perform operation = some (node', effects)) :
    Speaks node effects node' := by
  have hall := perform_writeAhead h
  cases operation with
  | tick nextTimeout =>
      have hstep : node.step (.tick nextTimeout) = some (node', effects) := h
      exact step_speaks hstep
  | receive sender message =>
      have hstep : node.step (.step sender message) =
        some (node', effects) := h
      exact step_speaks hstep
  | propose command =>
      apply Speaks.routine hall
      obtain ⟨answer, hanswer, h⟩ := Option.bind_eq_some_iff.mp h
      unfold propose at hanswer
      split at hanswer
      · cases hanswer
        cases h
        simp
      · obtain ⟨⟨last, index, rest⟩, happended, hanswer⟩ :=
          Option.bind_eq_some_iff.mp hanswer
        cases hanswer
        cases h
        exact appendOwn_routine _ happended
  | proposeConfigChange newVoters =>
      apply Speaks.routine hall
      obtain ⟨answer, hanswer, h⟩ := Option.bind_eq_some_iff.mp h
      unfold proposeConfigChange at hanswer
      split at hanswer
      · cases hanswer
        cases h
        simp
      · obtain ⟨⟨last, index, rest⟩, happended, hanswer⟩ :=
          Option.bind_eq_some_iff.mp hanswer
        cases hanswer
        cases h
        refine List.forall_mem_append.mpr
          ⟨?_, appendOwn_routine _ happended⟩
        dsimp only
        split <;> simp [Effect.Routine, persistLearners]
  | addLearner id =>
      apply Speaks.routine hall
      obtain rfl := congrArg Prod.snd (Option.some.inj h)
      unfold addLearner
      split <;> simp [Effect.Routine, persistLearners]
  | removeLearner id =>
      apply Speaks.routine hall
      obtain rfl := congrArg Prod.snd (Option.some.inj h)
      unfold removeLearner
      split <;> simp [Effect.Routine, persistLearners]
  | compact upToIndex snapshotData =>
      apply Speaks.routine hall
      obtain ⟨answer, hanswer, h⟩ := Option.bind_eq_some_iff.mp h
      rcases answer with _ | ⟨last, rest⟩
      · cases h
        simp
      · cases h
        rcases compact_cases hanswer with ⟨-, -, rfl⟩ |
          ⟨term, config, log, -, -, -, -, -, -, rfl⟩
        · simp
        · simp [Effect.Routine]

end Node

end Kurogane.Raft
