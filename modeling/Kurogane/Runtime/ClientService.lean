import Kurogane.Kv.Boundaries
import Kurogane.Runtime.Actor

/-!
The client service's `Propose`. The call asks the actor several times: to append
the command, for the term of the entry at the index it got, and, once that index
has been applied, for the term again and for the result. Anything may be served in
between; an entry replaced before its term is asked for is taken for the call's own.
-/

namespace Kurogane.Runtime

open Kurogane.Raft
open Kurogane.Kv (Replica Command ApplyResult StateMachine)
open Kurogane.Kv.Replica (Lineage)

/-- What the actor serves between two requests of one call, and whether the wait for
the index runs into its timeout. -/
structure Meanwhile where
  beforeTerm : List ActorRequest
  whileWaiting : List ActorRequest
  timedOut : Bool
  beforeCheck : List ActorRequest
  beforeResult : List ActorRequest
deriving DecidableEq

inductive ProposeReply where
  | applied (index : Nat) (result : ApplyResult)
  | notLeader (leaderId : Option NodeId)
  | indeterminate
  | unavailable
deriving DecidableEq

namespace Actor

/-- The rest of a call whose entry was accepted at `index`. An error of the actor
leaves its caller without an answer. -/
def confirm (actor : Actor) (index : Nat) (meanwhile : Meanwhile) :
    Except ActorPanic ProposeReply := do
  let asked ← actor.serveAll meanwhile.beforeTerm
  let expectedTerm := asked.entryTerm index
  let waited ← asked.publish.serveAll meanwhile.whileWaiting
  if meanwhile.timedOut ∨ waited.published < index then .ok .indeterminate
  else
    let checked ← waited.serveAll meanwhile.beforeCheck
    match checked.entryTerm index with
    | none => .ok .indeterminate
    | some term =>
        if some term ≠ expectedTerm then .ok .indeterminate
        else
          let answered ← checked.publish.serveAll meanwhile.beforeResult
          match answered.appliedResult index with
          | none => .ok .indeterminate
          | some result => .ok (.applied index result)

/-- One call of `RaftClientService::propose`. -/
def clientPropose (actor : Actor) (command : Command) (meanwhile : Meanwhile) :
    ProposeReply :=
  match actor.serve (.propose command) with
  | .ok (_, .proposed (.notLeader hint)) => .notLeader hint
  | .ok (actor, .proposed (.accepted index)) =>
      match actor.confirm index meanwhile with
      | .ok reply => reply
      | .error _ => .indeterminate
  | _ => .unavailable

/-- The entry that `Propose` appends. -/
def proposal (actor : Actor) (command : Command) : LogEntry :=
  ⟨actor.replica.node.currentTerm, .command command.encode⟩

/-- `P` holds of the actor before, between and after the requests. -/
def Along (P : Actor → Prop) (actor : Actor) : List ActorRequest → Prop
  | [] => P actor
  | request :: rest => P actor ∧ ∀ next reply,
      actor.serve request = .ok (next, reply) → next.Along P rest

end Actor

/-- All that the actor serves from the answer to `Propose` on. -/
def Meanwhile.requests (meanwhile : Meanwhile) (index : Nat) : List ActorRequest :=
  meanwhile.beforeTerm ++ .entryTerm index :: (meanwhile.whileWaiting ++
    (meanwhile.beforeCheck ++ .entryTerm index ::
      (meanwhile.beforeResult ++ [.appliedResult index])))

/-- What a replica's owner relies on, where `log` is what the cluster has committed
and `own` was appended at `index`: it applies that log, if from a snapshot then from
one that is what its boundary says; an entry it has applied is not replaced; and no
other entry has the index and the term of `own`. -/
structure Sound (log : List LogEntry) (index : Nat) (own : LogEntry) (replica : Replica) :
    Prop where
  lineage : ∃ chain, Lineage log replica chain ∧
    ∀ taking ∈ chain, StateMachine.LeaveAsIs log taking.boundary taking.applied
  committed : index ≤ replica.lastApplied → ∀ entry,
    replica.node.entryAt index = some entry → log[index - 1]? = some entry
  matching : ∀ entry, replica.node.entryAt index = some entry → entry.term = own.term →
    entry = own

/-- The entry committed at `index` is `own`, and `result` is what `command` answers
after the commands committed before it. -/
def AnswersOwn (log : List LogEntry) (index : Nat) (own : LogEntry) (command : Command)
    (result : ApplyResult) : Prop :=
  log[index - 1]? = some own ∧ ∃ machine,
    StateMachine.new.replay (log.take (index - 1)) = some machine ∧
      result = (machine.apply command).2

namespace Actor

section Along

variable {P Q : Actor → Prop} {actor middle : Actor} {first rest : List ActorRequest}

theorem Along.here (h : actor.Along P rest) : P actor := by
  cases rest with
  | nil => exact h
  | cons request rest => exact h.1

theorem Along.imp (hPQ : ∀ actor, P actor → Q actor) (h : actor.Along P rest) :
    actor.Along Q rest := by
  induction rest generalizing actor with
  | nil => exact hPQ actor h
  | cons request rest ih =>
      exact ⟨hPQ actor h.1, fun next reply hserve => ih (h.2 next reply hserve)⟩

theorem Along.later (h : actor.Along P (first ++ rest))
    (hfirst : actor.serveAll first = .ok middle) : middle.Along P rest := by
  induction first generalizing actor with
  | nil =>
      cases hfirst
      exact h
  | cons request first ih =>
      obtain ⟨next, reply, hserve, hrest⟩ := serveAll_cons hfirst
      exact ih (h.2 next reply hserve) hrest

/-- Asking for a term changes nothing but what is published. -/
theorem Along.asked {index : Nat} (h : actor.Along P (.entryTerm index :: rest)) :
    P actor ∧ actor.publish.Along P rest :=
  ⟨h.1, h.2 _ _ rfl⟩

instance [DecidablePred P] (requests : List ActorRequest) :
    Decidable (actor.Along P requests) :=
  let rec decideAlong (actor : Actor) : (requests : List ActorRequest) →
      Decidable (actor.Along P requests)
    | [] => inferInstanceAs (Decidable (P actor))
    | request :: rest =>
        match h : actor.serve request with
        | .error _ => decidable_of_iff (P actor)
            ⟨fun hP => ⟨hP, fun _ _ hserve => nomatch h.symm.trans hserve⟩, And.left⟩
        | .ok (next, _) =>
            have := decideAlong next rest
            decidable_of_iff (P actor ∧ next.Along P rest)
              ⟨fun hboth => ⟨hboth.1, fun _ _ hserve => by
                  rw [h] at hserve
                  cases hserve
                  exact hboth.2⟩,
                fun halong => ⟨halong.1, halong.2 _ _ h⟩⟩
  decideAlong actor requests

end Along

section Calls

variable {actor proposed asked : Actor} {command : Command} {meanwhile : Meanwhile}
  {index : Nat} {result : ApplyResult} {reply : ProposeReply}

/-- What the actor was like when a call that got a result asked it. -/
theorem confirm_applied {found : Nat}
    (h : actor.confirm index meanwhile = .ok (.applied found result)) :
    found = index ∧ ∃ asked waited checked answered,
      actor.serveAll meanwhile.beforeTerm = .ok asked ∧
      asked.publish.serveAll meanwhile.whileWaiting = .ok waited ∧
      index ≤ waited.published ∧
      waited.serveAll meanwhile.beforeCheck = .ok checked ∧
      (∃ term, checked.entryTerm index = some term ∧ asked.entryTerm index = some term) ∧
      checked.publish.serveAll meanwhile.beforeResult = .ok answered ∧
      answered.appliedResult index = some result := by
  obtain ⟨asked, hasked, h⟩ := bind_eq_ok h
  obtain ⟨waited, hwaited, h⟩ := bind_eq_ok h
  split at h
  · cases h
  rename_i hdone
  obtain ⟨checked, hchecked, h⟩ := bind_eq_ok h
  split at h
  · cases h
  rename_i term hterm
  split at h
  · cases h
  rename_i hsame
  obtain ⟨answered, hanswered, h⟩ := bind_eq_ok h
  split at h
  · cases h
  rename_i found hfound
  cases h
  refine ⟨rfl, asked, waited, checked, answered, hasked, hwaited, ?_, hchecked,
    ⟨term, hterm, ?_⟩, hanswered, hfound⟩
  · exact Nat.not_lt.mp (fun hlt => hdone (Or.inr hlt))
  · exact (not_not.mp hsame).symm

theorem entryTerm_eq_some {term : Nat} (h : actor.entryTerm index = some term) :
    ∃ entry, actor.replica.node.entryAt index = some entry ∧ entry.term = term :=
  Option.map_eq_some_iff.mp h

/-- `Propose` appends its entry at the index it answers with. -/
theorem accepted_appends
    (h : actor.serve (.propose command) = .ok (proposed, .proposed (.accepted index))) :
    ∃ node effects, actor.replica.node.propose command.encode =
      some (some (node, index, effects)) ∧
        node.entryAt index = some (actor.proposal command) := by
  obtain ⟨⟨last, answer⟩, hhandle, h⟩ := bind_eq_ok h
  cases h
  obtain ⟨⟨handled, outcome⟩, hpropose, h⟩ := bind_eq_ok hhandle
  cases h
  obtain ⟨⟨replica, answer, deliveries⟩, hreplica, h⟩ := bind_eq_ok hpropose
  have hreplica := ofReplica_ok hreplica
  dsimp only at h
  split at h
  · cases h
  obtain ⟨dispatched, -, h⟩ := bind_eq_ok h
  obtain ⟨compacted, -, h⟩ := bind_eq_ok h
  cases h
  unfold Replica.propose at hreplica
  split at hreplica
  · cases hreplica
  · cases hreplica
  rename_i node found emitted hnode
  obtain ⟨drained, -, hreplica⟩ := bind_eq_ok hreplica
  cases hreplica
  refine ⟨node, _, hnode, ?_⟩
  obtain ⟨rfl, more, happends, -⟩ := Node.propose_appends hnode
  have hposition : node.vecIndex (actor.replica.node.lastLogIndex + 1) =
      actor.replica.node.log.length := by
    unfold Node.vecIndex Node.lastLogIndex
    rw [happends.snapshot]
    omega
  have habove : ¬ (actor.replica.node.lastLogIndex + 1 = 0 ∨
      actor.replica.node.lastLogIndex + 1 ≤ node.snapshot.lastIncludedIndex) := by
    unfold Node.lastLogIndex
    rw [happends.snapshot]
    omega
  unfold Node.entryAt
  rw [if_neg habove, hposition, happends.log, List.getElem?_append_right (Nat.le_refl _),
    Nat.sub_self]
  rfl

/-- The result of a command that is in the log as it was proposed. -/
theorem answers_of_resultAt {log : List LogEntry} {own : LogEntry} (hfits : command.Fits)
    (hown : own.payload = .command command.encode) (hcommitted : log[index - 1]? = some own)
    (hresult : StateMachine.resultAt log index = some result) :
    AnswersOwn log index own command result := by
  refine ⟨hcommitted, ?_⟩
  obtain ⟨machine, hmachine, hresult⟩ := Option.bind_eq_some_iff.mp hresult
  obtain ⟨entry, hentry, hresult⟩ := Option.bind_eq_some_iff.mp hresult
  rw [hcommitted] at hentry
  cases hentry
  rw [hown] at hresult
  dsimp only at hresult
  rw [Kv.Command.decode_of_start hfits List.prefix_rfl] at hresult
  cases hresult
  exact ⟨machine, hmachine, rfl⟩

/-- The call has appended its entry. If it answers with a result, the answer is that
of its own command just if the entry is still there when its term is first asked for. -/
theorem reply_answers_iff {log : List LogEntry} (hfits : command.Fits)
    (hproposed : actor.serve (.propose command) = .ok (proposed, .proposed (.accepted index)))
    (hsound : proposed.Along
      (fun actor' => Sound log index (actor.proposal command) actor'.replica)
      (meanwhile.requests index))
    (hreply : actor.clientPropose command meanwhile = .applied index result)
    (hasked : proposed.serveAll meanwhile.beforeTerm = .ok asked) :
    (∃ node effects, actor.replica.node.propose command.encode =
      some (some (node, index, effects)) ∧
        node.entryAt index = some (actor.proposal command)) ∧
    (AnswersOwn log index (actor.proposal command) command result ↔
      asked.replica.node.entryAt index = some (actor.proposal command)) := by
  refine ⟨accepted_appends hproposed, ?_⟩
  have hconfirm : proposed.confirm index meanwhile = .ok (.applied index result) := by
    unfold clientPropose at hreply
    rw [hproposed] at hreply
    dsimp only at hreply
    split at hreply
    · rename_i reply hconfirm
      rw [hconfirm, hreply]
    · cases hreply
  obtain ⟨-, asked', waited, checked, answered, hasked', hwaited, hpublished, hchecked,
    ⟨term, hterm, hexpected⟩, hanswered, hresult⟩ := confirm_applied hconfirm
  obtain rfl : asked = asked' := Except.ok.inj (hasked.symm.trans hasked')
  -- what is relied on, at each of the three answers
  obtain ⟨hsoundAsked, hlater⟩ := (hsound.later hasked).asked
  have hlater := hlater.later hwaited
  obtain ⟨hsoundChecked, hlater⟩ := (hlater.later hchecked).asked
  have hsoundAnswered := (hlater.later hanswered).here
  obtain ⟨-, hwaitedApplied⟩ := serveAll_owns rfl hwaited
  obtain ⟨howns, -⟩ := serveAll_owns hwaitedApplied hchecked
  have happlied : index ≤ checked.replica.lastApplied := by
    rw [hwaitedApplied] at hpublished
    exact Nat.le_trans hpublished howns.lastApplied_le
  obtain ⟨first, hfirst, hfirstTerm⟩ := entryTerm_eq_some hexpected
  obtain ⟨second, hsecond, hsecondTerm⟩ := entryTerm_eq_some hterm
  have hcommitted := hsoundChecked.committed happlied second hsecond
  constructor
  · intro hanswers
    have hown : second = actor.proposal command :=
      Option.some.inj (hcommitted.symm.trans hanswers.1)
    have hsame : first.term = (actor.proposal command).term := by
      rw [hfirstTerm, ← hsecondTerm, hown]
    rw [hfirst, hsoundAsked.matching first hfirst hsame]
  · intro hstill
    have hown : first = actor.proposal command :=
      Option.some.inj (hfirst.symm.trans hstill)
    have hsame : second.term = (actor.proposal command).term := by
      rw [hsecondTerm, ← hfirstTerm, hown]
    rw [hsoundChecked.matching second hsecond hsame] at hcommitted
    obtain ⟨chain, hlineage, hsettled⟩ := hsoundAnswered.lineage
    exact answers_of_resultAt hfits rfl hcommitted
      ((hlineage.exact hsettled).results index result hresult)

end Calls

/-! ### One call of a leader of three -/

/-- `Sound`, of an actor whose replica is one of the `known`. -/
def Checked (log : List LogEntry) (index : Nat) (own : LogEntry) (known : List Replica)
    (actor : Actor) : Prop :=
  actor.replica ∈ known ∧ ∀ entry ∈ actor.replica.node.entryAt index,
    (index ≤ actor.replica.lastApplied → log[index - 1]? = some entry) ∧
      (entry.term = own.term → entry = own)

instance (log : List LogEntry) (index : Nat) (own : LogEntry) (known : List Replica) :
    DecidablePred (Checked log index own known) :=
  fun _ => inferInstanceAs (Decidable (_ ∧ _))

theorem Checked.sound {log : List LogEntry} {index : Nat} {own : LogEntry}
    {known : List Replica} {actor : Actor} (h : Checked log index own known actor)
    (hknown : ∀ replica ∈ known, Lineage log replica []) :
    Sound log index own actor.replica where
  lineage := ⟨[], hknown _ h.1, nofun⟩
  committed := fun happlied entry hentry => (h.2 entry hentry).1 happlied
  matching := fun entry hentry => (h.2 entry hentry).2

/-- Server 2 votes for server 1 in term 1. -/
def vote : Event := .step ⟨2⟩ (.requestVoteResponse ⟨1, true⟩)

/-- Server 1 is elected and serves a call; `during` is what its replica gets
meanwhile. -/
def rehearse (log : List LogEntry) (command : Command) (meanwhile : Meanwhile)
    (during : List Kv.Request) :
    Option (Actor × Actor × ActorReply × Actor × Replica × Replica) := do
  let node ← (Node.new ⟨1⟩ [⟨1⟩, ⟨2⟩, ⟨3⟩] 1 1).toOption
  let start ← (Replica.recover node).toOption
  let actor ← ((new start .fresh 100).serveAll
    [.tick 5, .peerResponse ⟨2⟩ (.requestVoteResponse ⟨1, true⟩)]).toOption
  let (proposed, reply) ← (actor.serve (.propose command)).toOption
  let asked ← (proposed.serveAll meanwhile.beforeTerm).toOption
  let appended ← start.follows log [.step (.tick 5), .step vote, .propose command]
  let last ← appended.follows log during
  some (actor, proposed, reply, asked, appended, last)

/-- What a rehearsal shows. -/
theorem rehearsed (log : List LogEntry) (command : Command) (meanwhile : Meanwhile)
    (during : List Kv.Request) (index : Nat) (result : ApplyResult) (still : Bool)
    (h : (rehearse log command meanwhile during).any
      (fun (actor, proposed, reply, asked, appended, last) => decide (
        reply = .proposed (.accepted index) ∧
        proposed.Along (Checked log index (actor.proposal command) [appended, last])
          (meanwhile.requests index) ∧
        actor.clientPropose command meanwhile = .applied index result ∧
        (still = true ↔
          asked.replica.node.entryAt index = some (actor.proposal command)))) = true) :
    ∃ actor proposed asked : Actor,
      actor.serve (.propose command) = .ok (proposed, .proposed (.accepted index)) ∧
      proposed.Along (fun actor' => Sound log index (actor.proposal command) actor'.replica)
        (meanwhile.requests index) ∧
      actor.clientPropose command meanwhile = .applied index result ∧
      proposed.serveAll meanwhile.beforeTerm = .ok asked ∧
      (still = true ↔ asked.replica.node.entryAt index = some (actor.proposal command)) := by
  obtain ⟨⟨actor, proposed, reply, asked, appended, last⟩, hfound, haccepted, halong, hreply,
    hstill⟩ := exists_of_any h
  simp only [rehearse, Option.bind_eq_bind, Option.bind_eq_some_iff] at hfound
  obtain ⟨node, hnode, start, hstart, elected, -, ⟨served, answer⟩, hserve, waiting, hwaiting,
    first, hfirst, second, hsecond, hfound⟩ := hfound
  cases hfound
  have hnone : node.snapshot.lastIncludedIndex = 0 := by
    obtain ⟨-, -, -, -, -, hdurable, -⟩ := Node.recover_ok (ok_of_toOption hnode)
    exact congrArg (fun durable => durable.snapshot.metadata.lastIncludedIndex) hdurable
  have happended := (Lineage.started hnone (ok_of_toOption hstart)).follows hfirst
  have hknown : ∀ replica ∈ [appended, last], Lineage log replica [] := by
    rw [List.forall_mem_cons, List.forall_mem_singleton]
    exact ⟨happended, happended.follows hsecond⟩
  have hserved := ok_of_toOption hserve
  have haccepted : answer = .proposed (.accepted index) := haccepted
  rw [haccepted] at hserved
  exact ⟨actor, served, asked, hserved,
    halong.imp (fun _ hchecked => hchecked.sound hknown), hreply,
    ok_of_toOption hwaiting, hstill⟩

/-- Server 2 confirms the entry of the call while it waits. -/
def confirmed : Meanwhile where
  beforeTerm := []
  whileWaiting := [.peerResponse ⟨2⟩ (.appendEntriesResponse ⟨1, true, 1⟩)]
  timedOut := false
  beforeCheck := []
  beforeResult := []

theorem undisturbed_call_answers : ∃ actor : Actor,
    actor.clientPropose (.get [7]) confirmed = .applied 1 (.get none) ∧
      AnswersOwn [⟨1, .command (Command.get [7]).encode⟩] 1 (actor.proposal (.get [7]))
        (.get [7]) (.get none) := by
  obtain ⟨actor, proposed, asked, hproposed, hsound, hreply, hasked, hstill⟩ :=
    rehearsed [⟨1, .command (Command.get [7]).encode⟩] (.get [7]) confirmed
      [.step (.step ⟨2⟩ (.appendEntriesResponse ⟨1, true, 1⟩))] 1 (.get none) true
      (by decide +kernel)
  exact ⟨actor, hreply, (reply_answers_iff (by decide) hproposed hsound hreply hasked).2.mpr
    (hstill.mp rfl)⟩

/-- Before the term is asked for, server 3 leads in term 2 and has committed an entry
of its own at the index of the call. -/
def overtaken : Meanwhile where
  beforeTerm := [.peerRequest ⟨3⟩ (.appendEntries
    ⟨2, ⟨3⟩, 0, 0, [⟨2, .command (Command.set [9] [9]).encode⟩], 1⟩)]
  whileWaiting := []
  timedOut := false
  beforeCheck := []
  beforeResult := []

/-- A client that asked for a key is told what setting another one answered. -/
theorem overtaken_call_gets_another_answer : ∃ actor proposed asked : Actor,
    actor.serve (.propose (.get [7])) = .ok (proposed, .proposed (.accepted 1)) ∧
      proposed.Along (fun actor' => Sound [⟨2, .command (Command.set [9] [9]).encode⟩] 1
        (actor.proposal (.get [7])) actor'.replica) (overtaken.requests 1) ∧
      actor.clientPropose (.get [7]) overtaken = .applied 1 (.set none) ∧
      proposed.serveAll overtaken.beforeTerm = .ok asked ∧
      ¬ AnswersOwn [⟨2, .command (Command.set [9] [9]).encode⟩] 1 (actor.proposal (.get [7]))
        (.get [7]) (.set none) := by
  obtain ⟨actor, proposed, asked, hproposed, hsound, hreply, hasked, -⟩ :=
    rehearsed [⟨2, .command (Command.set [9] [9]).encode⟩] (.get [7]) overtaken
      [.step (.step ⟨3⟩ (.appendEntries
        ⟨2, ⟨3⟩, 0, 0, [⟨2, .command (Command.set [9] [9]).encode⟩], 1⟩))] 1 (.set none) false
      (by decide +kernel)
  refine ⟨actor, proposed, asked, hproposed, hsound, hreply, hasked, ?_⟩
  rintro ⟨hcommitted, -⟩
  have hpayload : (Command.set [9] [9]).encode = (Command.get [7]).encode :=
    LogPayload.command.inj (congrArg LogEntry.payload (Option.some.inj hcommitted))
  exact absurd hpayload (by decide)

end Actor

end Kurogane.Runtime
