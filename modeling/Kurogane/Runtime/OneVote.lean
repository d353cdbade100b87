import Kurogane.Runtime.WordProcess

/-!
One vote in a term, whatever a process is sent and wherever it stops. A message
leaves only when the record that vouches for it is on disk, and a process that
starts again continues from the record on disk. The one thing that breaks it is a term
that overflows: a release build then begins with term zero again.
-/

namespace Kurogane.Runtime

open Kurogane.Raft Kurogane.Consensus

variable {node node' : Node} {effects : List Effect} {storage storage' : Storage}

/-- After a batch, or a part of it, the record stored is the one the batch
writes, or the old one if nothing has been written yet. -/
theorem Storage.hardState_applyAll {record : VoteRecord NodeId} :
    ∀ {storage storage' : Storage},
      (∀ term votedFor, .persistHardState term votedFor ∈ effects →
        ⟨term, votedFor⟩ = record) →
      storage.applyAll effects = some storage' →
      storage'.hardState.voteRecord = record ∨
        storage'.hardState = storage.hardState ∧
          ∀ term votedFor, .persistHardState term votedFor ∉ effects := by
  induction effects with
  | nil =>
      intro storage storage' _ happly
      cases happly
      exact Or.inr ⟨rfl, by simp⟩
  | cons effect rest ih =>
      intro storage storage' hwrites happly
      obtain ⟨middle, hmiddle, hrest⟩ := Option.bind_eq_some_iff.mp happly
      rcases ih (fun term votedFor hmem =>
        hwrites term votedFor (List.mem_cons_of_mem _ hmem)) hrest with
          hwritten | ⟨hsame, hnone⟩
      · exact Or.inl hwritten
      cases effect with
      | persistHardState term votedFor =>
          cases hmiddle
          rw [hsame]
          exact Or.inl (hwrites term votedFor List.mem_cons_self)
      | persistLog fromIndex entries =>
          simp only [Storage.apply, Option.ite_none_left_eq_some] at hmiddle
          cases hmiddle.2
          exact Or.inr ⟨hsame, by simpa using hnone⟩
      | persistSnapshot index term data config =>
          cases hmiddle
          exact Or.inr ⟨hsame, by simpa using hnone⟩
      | persistLearners learners =>
          cases hmiddle
          exact Or.inr ⟨hsame, by simpa using hnone⟩
      | send receiver message =>
          cases hmiddle
          exact Or.inr ⟨hsame, by simpa using hnone⟩

/-- Once a message of a batch is sent, no write of the batch is missing. -/
theorem mem_take_of_sent
    (hordered : effects.Pairwise (fun first second =>
      first.isSend = true → second.isSend = true))
    {written : Nat} {receiver : NodeId} {message : Message}
    (hsent : .send receiver message ∈ effects.take written) {effect : Effect}
    (hmem : effect ∈ effects) (hpersist : effect.isSend = false) :
    effect ∈ effects.take written := by
  rw [← List.take_append_drop written effects] at hmem hordered
  rcases List.mem_append.mp hmem with hmem | hmem
  · exact hmem
  · have hsend := (List.pairwise_append.mp hordered).2.2 _ hsent _ hmem rfl
    rw [hpersist] at hsend
    cases hsend

/-- Wherever a batch stops, the record on disk has advanced and vouches for all
that was sent. -/
theorem stored_vouches (hspeaks : Speaks node effects node')
    (hordered : effects.Pairwise (fun first second =>
      first.isSend = true → second.isSend = true))
    (hrecord : storage.hardState.voteRecord = node.voteRecord) {written : Nat}
    (happly : storage.applyAll (effects.take written) = some storage') :
    storage.hardState.voteRecord.Advances storage'.hardState.voteRecord ∧
      ∀ receiver message, .send receiver message ∈ effects.take written →
        storage'.hardState.voteRecord.Vouches
          (message.statement node.id receiver) := by
  have hwrites : ∀ term votedFor,
      .persistHardState term votedFor ∈ effects.take written →
      ⟨term, votedFor⟩ = node'.voteRecord :=
    fun term votedFor hmem =>
      hspeaks.writes term votedFor (List.mem_of_mem_take hmem)
  rcases Storage.hardState_applyAll hwrites happly with hnew | ⟨hold, hnone⟩
  · rw [hnew, hrecord]
    exact ⟨hspeaks.advances, fun receiver message hmem =>
      hspeaks.vouched receiver message (List.mem_of_mem_take hmem)⟩
  · rw [hold]
    refine ⟨.refl _, fun receiver message hmem => ?_⟩
    have hsilent : node'.voteRecord = node.voteRecord := by
      apply hspeaks.silent
      intro term votedFor hwrite
      exact hnone term votedFor (mem_take_of_sent hordered hmem hwrite rfl)
    rw [hrecord, ← hsilent]
    exact hspeaks.vouched receiver message (List.mem_of_mem_take hmem)

theorem stored_record (hspeaks : Speaks node effects node')
    (hrecord : storage.hardState.voteRecord = node.voteRecord)
    (happly : storage.applyAll effects = some storage') :
    storage'.hardState.voteRecord = node'.voteRecord := by
  rcases Storage.hardState_applyAll hspeaks.writes happly with
    hnew | ⟨hold, hnone⟩
  · exact hnew
  · rw [hold, hrecord]
    exact (hspeaks.silent hnone).symm

namespace Process

variable {id : NodeId} {process process' : Process}

def statements (id : NodeId) (sent : List (NodeId × Message)) :
    List (Statement NodeId) :=
  sent.map (fun (receiver, message) => message.statement id receiver)

/-- The process runs on the record it has on disk, which agrees with all it has
said. -/
structure Honest (id : NodeId) (process : Process) : Prop where
  node : ∀ node, process.node = some node → node.id = id ∧
    process.storage.hardState.voteRecord = node.voteRecord
  keeps : process.storage.hardState.voteRecord.Keeps
    (statements id process.sent)

theorem Honest.written (h : process.Honest id) {operation : Operation}
    {written : Nat} (hnode : process.node = some node)
    (hperform : node.perform operation = some (node', effects))
    (happly : process.storage.applyAll (effects.take written) =
      some storage') :
    storage'.hardState.voteRecord.Keeps
      (statements id (process.sent ++ messages (effects.take written))) := by
  obtain ⟨hid, hrecord⟩ := h.node node hnode
  obtain ⟨hadvances, hvouches⟩ := stored_vouches (Node.perform_speaks hperform)
    (Node.perform_writeAhead hperform).ordered hrecord happly
  rw [statements, List.map_append]
  apply (h.keeps.advance hadvances).speak
  intro statement hmem
  obtain ⟨⟨receiver, message⟩, hsent, rfl⟩ := List.mem_map.mp hmem
  rw [← hid]
  exact hvouches receiver message (mem_messages.mp hsent)

theorem Honest.step (h : process.Honest id) {action : ProcessAction}
    (hstep : process.step id action = some process') : process'.Honest id := by
  cases action with
  | perform operation =>
      obtain ⟨node, node', effects, storage, hnode, hperform, happly, rfl⟩ :=
        step_perform hstep
      obtain ⟨hid, hrecord⟩ := h.node node hnode
      have hspeaks := Node.perform_speaks hperform
      refine ⟨?_, ?_⟩
      · intro last hlast
        cases hlast
        exact ⟨hspeaks.id.trans hid, stored_record hspeaks hrecord happly⟩
      · rw [← List.take_length (l := effects)] at happly ⊢
        exact h.written hnode hperform happly
  | interrupt operation written =>
      obtain ⟨node, node', effects, storage, hnode, hperform, happly, rfl⟩ :=
        step_interrupt hstep
      exact ⟨nofun, h.written hnode hperform happly⟩
  | crash =>
      cases hstep
      exact ⟨nofun, h.keeps⟩
  | restart environment =>
      obtain ⟨node, hstart, rfl⟩ := step_restart hstep
      obtain ⟨hid, -, hrecord⟩ := startUp_ok hstart
      refine ⟨?_, h.keeps⟩
      intro last hlast
      cases hlast
      exact ⟨hid, hrecord⟩

theorem Run.honest {ok : Process → ProcessAction → Prop}
    (hrun : Run ok id (stopped storage) process) : process.Honest id :=
  hrun.invariant (Honest id) (fun _ _ _ h _ hstep => h.step hstep)
    ⟨nofun, VoteRecord.Keeps.nil _⟩

/-- A process grants one candidate in a term and none but itself in a term of
its own campaign, and the terms of its messages never decrease: in a debug build
always, in a release build as long as nothing overflows. -/
theorem one_vote_per_term {build : Build} {past : List Process}
    (hrun : RunWith build id (InRange build id) (stopped storage) (process :: past)) :
    (∀ term first second,
      (first, .requestVoteResponse ⟨term, true⟩) ∈ process.sent →
      (second, .requestVoteResponse ⟨term, true⟩) ∈ process.sent →
      first = second) ∧
    (∀ receiver candidate request,
      (receiver, .requestVote request) ∈ process.sent →
      (candidate, .requestVoteResponse ⟨request.term, true⟩) ∈ process.sent →
      candidate = id) ∧
    process.sent.Pairwise (fun first second => first.2.term ≤ second.2.term) := by
  have hkeeps := hrun.run.honest.keeps
  have hstated : ∀ receiver message, (receiver, message) ∈ process.sent →
      Message.statement id receiver message ∈ statements id process.sent :=
    fun receiver message hmem => List.mem_map.mpr ⟨_, hmem, rfl⟩
  refine ⟨?_, ?_, ?_⟩
  · intro term first second hfirst hsecond
    exact hkeeps.single _ (hstated _ _ hfirst) _ (hstated _ _ hsecond) rfl
      first second rfl rfl
  · intro receiver candidate request hrequest hgrant
    exact hkeeps.single _ (hstated _ _ hgrant) _ (hstated _ _ hrequest) rfl
      candidate id rfl rfl
  · have hordered := hkeeps.ordered
    rw [statements, List.pairwise_map] at hordered
    exact hordered

/-- The first of three servers grants the second its vote and crashes, starts
again and is asked by the third, campaigns in the next term, crashes between
the write of its new term and its requests, and campaigns once more. -/
def crashingVoter : List ProcessAction :=
  let start := .restart ⟨[⟨1⟩, ⟨2⟩, ⟨3⟩], 1, 1, false⟩
  [start, .perform (.receive ⟨2⟩ (.requestVote ⟨1, ⟨2⟩, 0, 0⟩)), .crash,
    start, .perform (.receive ⟨3⟩ (.requestVote ⟨1, ⟨3⟩, 0, 0⟩)),
    .interrupt (.tick 1) 1, start, .perform (.tick 1)]

theorem one_vote_per_term_over_crashes :
    ∃ process past,
      RunWith .release ⟨1⟩ (InRange .release ⟨1⟩) (stopped .fresh) (process :: past) ∧
      process.sent.map (fun sent => (sent.1, sent.2.term)) =
        [(⟨2⟩, 1), (⟨3⟩, 1), (⟨2⟩, 3), (⟨3⟩, 3)] ∧
      (⟨2⟩, .requestVoteResponse ⟨1, true⟩) ∈ process.sent ∧
      (∀ second, (second, .requestVoteResponse ⟨1, true⟩) ∈ process.sent →
        (⟨2⟩ : NodeId) = second) ∧
      process.sent.Pairwise
        (fun first second => first.2.term ≤ second.2.term) := by
  obtain ⟨process, past, hrun, hsent, hgrant⟩ := RunWith.of_check .release ⟨1⟩
    (InRange .release ⟨1⟩) .fresh crashingVoter (fun process =>
      process.sent.map (fun sent => (sent.1, sent.2.term)) =
        [(⟨2⟩, 1), (⟨3⟩, 1), (⟨2⟩, 3), (⟨3⟩, 3)] ∧
      (⟨2⟩, .requestVoteResponse ⟨1, true⟩) ∈ process.sent) (by decide +kernel)
  obtain ⟨hsingle, -, hordered⟩ := one_vote_per_term hrun
  exact ⟨process, past, hrun, hsent, hgrant,
    fun second hsecond => hsingle 1 ⟨2⟩ second hgrant hsecond, hordered⟩

/-- The first of three servers grants the second its vote in term one and in the last
term there is, campaigns, and is asked by the third in term one. -/
def wrappingVoter : List ProcessAction :=
  [.restart ⟨[⟨1⟩, ⟨2⟩, ⟨3⟩], 1, 1, false⟩,
    .perform (.receive ⟨2⟩ (.requestVote ⟨1, ⟨2⟩, 0, 0⟩)),
    .perform (.receive ⟨2⟩ (.requestVote ⟨2 ^ 64 - 1, ⟨2⟩, 0, 0⟩)),
    .perform (.tick 1),
    .perform (.receive ⟨3⟩ (.requestVote ⟨1, ⟨3⟩, 0, 0⟩))]

/-- Its campaign is in term zero, and it votes a second time in term one. -/
theorem wrapped_term_votes_twice : ∃ process past,
    RunWith .release ⟨1⟩ Anything (stopped .fresh) (process :: past) ∧
    (⟨2⟩, .requestVoteResponse ⟨1, true⟩) ∈ process.sent ∧
    (⟨3⟩, .requestVoteResponse ⟨1, true⟩) ∈ process.sent ∧
    ¬ process.sent.Pairwise (fun first second => first.2.term ≤ second.2.term) := by
  obtain ⟨process, past, hrun, hfirst, hsecond, hterms⟩ :=
    RunWith.of_check .release ⟨1⟩ Anything .fresh wrappingVoter (fun process =>
      (⟨2⟩, .requestVoteResponse ⟨1, true⟩) ∈ process.sent ∧
      (⟨3⟩, .requestVoteResponse ⟨1, true⟩) ∈ process.sent ∧
      process.sent.map (fun sent => sent.2.term) = [1, 2 ^ 64 - 1, 0, 0, 1])
      (by decide +kernel)
  refine ⟨process, past, hrun, hfirst, hsecond, fun hordered => ?_⟩
  have hpairs := List.pairwise_map.mpr hordered
  rw [hterms] at hpairs
  simp at hpairs

end Process

end Kurogane.Runtime
