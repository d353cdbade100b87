import Kurogane.Raft.CatchUp
import Kurogane.Runtime.Unfailing

/-!
What the processes say to each other. What one sends is a call, from which the other reads
what was sent. The answer is of the kind that was asked for, and what it says is on the disk
by then: the vote that was granted, the entries that were taken over, or the snapshot.
-/

namespace Kurogane.Raft

/-- What the answer to a request says of its sender, which holds entries of these terms. -/
def Message.Vouched (hardState : HardState) (holds : Nat → Nat → Prop) :
    Message → Message → Prop
  | .requestVote request, .requestVoteResponse response => response.granted = true →
      response.term = request.term ∧ hardState = ⟨request.term, some request.candidateId⟩
  | .appendEntries request, .appendEntriesResponse response => response.success = true →
      response.term = request.term ∧ hardState.currentTerm = request.term ∧
      response.matchIndex = request.prevLogIndex + request.entries.length ∧
      ∀ offset entry, request.entries[offset]? = some entry →
        holds (request.prevLogIndex + 1 + offset) entry.term
  | .installSnapshot request, .installSnapshotResponse response =>
      response.term = request.term →
        response.lastIncludedIndex = request.lastIncludedIndex ∧
        hardState.currentTerm = request.term ∧
        holds request.lastIncludedIndex request.lastIncludedTerm
  | _, _ => False

theorem Message.Vouched.mono {hardState : HardState} {holds holds' : Nat → Nat → Prop}
    {request reply : Message} (h : Vouched hardState holds request reply)
    (hholds : ∀ index term, holds index term → holds' index term) :
    Vouched hardState holds' request reply := by
  cases request <;> cases reply <;> try exact h
  · intro hsuccess
    obtain ⟨hterm, hhard, hcount, hentries⟩ := h hsuccess
    exact ⟨hterm, hhard, hcount,
      fun offset entry hentry => hholds _ _ (hentries offset entry hentry)⟩
  · intro hcurrent
    obtain ⟨hindex, hhard, hheld⟩ := h hcurrent
    exact ⟨hindex, hhard, hholds _ _ hheld⟩

/-- A log over a snapshot up to `boundary` has an entry of `term` at `index`, or the
snapshot covers it. -/
def Covers (log : List LogEntry) (boundary index term : Nat) : Prop :=
  index ≤ boundary ∨ log[index - boundary - 1]?.map LogEntry.term = some term

/-- What is covered stays covered when the log is folded into the snapshot. -/
theorem Covers.drop {log : List LogEntry} {boundary upToIndex index term : Nat}
    (h : Covers log boundary index term) (hbeyond : boundary < upToIndex) :
    Covers (log.drop (upToIndex - boundary)) upToIndex index term := by
  rcases Nat.lt_or_ge upToIndex index with habove | hbelow
  · right
    have hentry := h.resolve_left (by omega)
    rw [List.getElem?_drop, show upToIndex - boundary + (index - upToIndex - 1) =
      index - boundary - 1 by omega]
    exact hentry
  · exact Or.inl hbelow

namespace Node

variable {node node' : Node} {emitted : List Effect} {sender receiver : NodeId}
  {reply : Message}

def HoldsTerm (node : Node) : Nat → Nat → Prop :=
  Covers node.log node.snapshot.lastIncludedIndex

theorem Holds.holdsTerm {index : Nat} {entry : LogEntry} (h : node.Holds index entry) :
    node.HoldsTerm index entry.term := by
  rcases h with hlow | hterm
  · exact Or.inl hlow
  · unfold termAt entryAt at hterm
    split at hterm
    · cases hterm
    split at hterm
    · rename_i hboundary
      exact Or.inl hboundary.le
    split at hterm
    · cases hterm
    split at hterm
    · cases hterm
    · exact Or.inr hterm

theorem holdsTerm_iff {index term : Nat} : node.HoldsTerm index term ↔
    index ≤ node.snapshot.lastIncludedIndex ∨
      (node.entryAt index).map LogEntry.term = some term := by
  unfold HoldsTerm Covers entryAt vecIndex
  by_cases hlow : index ≤ node.snapshot.lastIncludedIndex
  · simp only [hlow, true_or]
  · rw [if_neg (by omega)]

/-- Every entry of a message is held once what is new in it has been taken over. -/
theorem adopt_holdsTerm {entries : List LogEntry} {index offset : Nat} {entry : LogEntry}
    (hindex : index ≤ node.lastLogIndex + 1) (hentry : entries[offset]? = some entry) :
    (node.adopt (node.firstNew index entries)).HoldsTerm (index + offset) entry.term := by
  have hheld : (∀ fromIndex rest, node.firstNew index entries = some (fromIndex, rest) →
      index + offset < fromIndex) → node.HoldsTerm (index + offset) entry.term :=
    fun hbefore => (firstNew_held offset entry hentry hbefore).holdsTerm
  cases hfound : node.firstNew index entries with
  | none => exact hheld fun _ _ heq => nomatch hfound.symm.trans heq
  | some found =>
      obtain ⟨fromIndex, rest⟩ := found
      obtain ⟨hlow, hfrom, hhigh, hsplit, hcount⟩ := firstNew_range hindex hfound
      refine holdsTerm_iff.mpr (or_iff_not_imp_left.mpr fun hbeyond => ?_)
      rw [adopt_snapshot, Nat.not_le] at hbeyond
      rw [adopt_entryAt hlow hhigh hbeyond]
      split
      · rename_i hbefore
        have hold := hheld fun first tail heq => by
          cases hfound.symm.trans heq
          exact hbefore
        exact (holdsTerm_iff.mp hold).resolve_left (Nat.not_le.mpr hbeyond)
      · have htaken : (entries.take (fromIndex - index)).length = fromIndex - index :=
          List.length_take_of_le (by omega)
        rw [hsplit, List.getElem?_append_right (by omega), htaken] at hentry
        rw [show index + offset - fromIndex = offset - (fromIndex - index) by omega, hentry]
        rfl

/-- What the sender of an answer vouches for. -/
abbrev Vouches (node : Node) (request reply : Message) : Prop :=
  Message.Vouched ⟨node.currentTerm, node.votedFor⟩ node.HoldsTerm request reply

theorem onRequestVote_vouches {request : RequestVote}
    (h : node.onRequestVote sender request = some (node', emitted))
    (hlast : emitted.getLast? = some (.send receiver reply)) :
    node'.Vouches (.requestVote request) reply := by
  have hrejects : some (node, [node.voteReply sender false]) = some (node', emitted) →
      node'.Vouches (.requestVote request) reply := by
    intro heq
    cases heq
    cases hlast
    exact nofun
  unfold onRequestVote at h
  split at h
  · exact hrejects h
  rename_i hcurrent
  split at h
  · exact hrejects h
  split at h
  · exact hrejects h
  dsimp only at h
  generalize hfollower : (if decide (node.currentTerm < request.term) = true then
    node.stepDown request.term else node) = follower at h
  have hterm : follower.currentTerm = request.term := by
    rw [← hfollower]
    split
    · rfl
    · rename_i hnot
      have hnot' : ¬ node.currentTerm < request.term := by simpa using hnot
      omega
  cases h
  rw [List.getLast?_concat] at hlast
  cases hlast
  intro hgranted
  dsimp only at hgranted
  rw [if_pos hgranted]
  exact ⟨hterm, by rw [hterm]⟩

theorem onAppendEntries_vouches {request : AppendEntries}
    (h : node.onAppendEntries sender request = some (node', emitted))
    (hlast : emitted.getLast? = some (.send receiver reply)) :
    node'.Vouches (.appendEntries request) reply := by
  have hrejected : ∀ (replier : Node) persisted,
      (persisted ++ [replier.rejectAppendEntries sender]).getLast? =
        some (.send receiver reply) → node'.Vouches (.appendEntries request) reply := by
    intro replier persisted hlast
    rw [List.getLast?_concat] at hlast
    cases hlast
    exact nofun
  rcases Nat.lt_or_ge request.term node.currentTerm with hstale | hcurrent
  · rw [onAppendEntries_stale hstale] at h
    cases h
    exact hrejected node [] hlast
  cases hprev : node.prevLogSatisfied request with
  | false =>
      rw [onAppendEntries_rejects hcurrent hprev] at h
      cases h
      exact hrejected _ _ hlast
  | true =>
      rw [onAppendEntries_accepts hcurrent hprev] at h
      cases h
      rw [List.getLast?_concat] at hlast
      cases hlast
      obtain ⟨hlog, hsnapshot, -⟩ := node.followLeader_log request.term
      have hterm := node.followLeader_term hcurrent
      generalize (node.followLeader request.term).1 = follower at *
      have hjoin : request.prevLogIndex + 1 ≤ follower.lastLogIndex + 1 := by
        have hle := prevLogSatisfied_le hprev
        unfold lastLogIndex at hle ⊢
        rw [hlog, hsnapshot]
        exact Nat.succ_le_succ hle
      rw [← firstNew_congr hlog hsnapshot]
      refine fun _ => ⟨by rw [adopt_currentTerm]; exact hterm, ?_, rfl, ?_⟩
      · rw [followCommit_currentTerm, adopt_currentTerm]
        exact hterm
      · intro offset entry hentry
        have hheld := adopt_holdsTerm hjoin hentry
        unfold HoldsTerm at hheld ⊢
        rw [followCommit_log, followCommit_snapshot]
        exact hheld

theorem onInstallSnapshot_vouches {request : InstallSnapshot}
    (h : node.onInstallSnapshot sender request = some (node', emitted))
    (hlast : emitted.getLast? = some (.send receiver reply)) :
    node'.Vouches (.installSnapshot request) reply := by
  rcases Nat.lt_or_ge request.term node.currentTerm with hstale | hcurrent
  · unfold onInstallSnapshot at h
    rw [if_pos hstale] at h
    cases h
    cases hlast
    intro hterm
    exact absurd hterm (Nat.ne_of_gt hstale)
  obtain ⟨follower, persists, hinstalls, hterm, hends⟩ :=
    node.onInstallSnapshot_spec request sender hcurrent
  rw [hinstalls] at h
  cases h
  rw [List.getLast?_concat] at hlast
  cases hlast
  refine fun _ => ⟨rfl, hterm, ?_⟩
  rcases hends with ⟨hcovered, hlog, hsnapshot⟩ | ⟨-, -, hsnapshot⟩
  · have hheld : node.Holds request.lastIncludedIndex
        ⟨request.lastIncludedTerm, .command []⟩ := Or.inr (of_decide_eq_true hcovered)
    have hholds := hheld.holdsTerm
    unfold HoldsTerm at hholds ⊢
    rw [hlog, hsnapshot]
    exact hholds
  · left
    rw [hsnapshot]

/-- An answer to a request vouches for the node as the request has left it. -/
theorem step_vouches {request : Message} (hreplies : reply.RepliesTo request)
    (h : node.step (.step sender request) = some (node', emitted))
    (hlast : emitted.getLast? = some (.send receiver reply)) :
    node'.Vouches request reply := by
  have hignored : some (node, []) = some (node', emitted) → node'.Vouches request reply := by
    intro heq
    cases heq
    cases hlast
  cases request with
  | requestVote request =>
      simp only [step] at h
      split at h
      · exact hignored h
      split at h
      · exact hignored h
      · exact onRequestVote_vouches h hlast
  | appendEntries request =>
      simp only [step] at h
      split at h
      · exact hignored h
      · exact onAppendEntries_vouches h hlast
  | installSnapshot request =>
      simp only [step] at h
      split at h
      · exact hignored h
      · exact onInstallSnapshot_vouches h hlast
  | requestVoteResponse response | appendEntriesResponse response
  | installSnapshotResponse response => cases reply <;> cases hreplies

/-- A request goes unanswered only if it asks for a vote and its sender is no member. -/
theorem step_silent (node : Node) {request : Message}
    (hclaimant : request.claimant = some sender) :
    (∃ vote, request = .requestVote vote ∧ node.isMember sender = false ∧
      node.step (.step sender request) = some (node, [])) ∨
    ((∀ vote, request = .requestVote vote → node.isMember sender = true) ∧
      ∀ next, node.step (.step sender request) ≠ some (next, [])) := by
  have hspoken : ∀ {node' : Node} {effects : List Effect}, effects ≠ [] →
      ∀ next, some (node', effects) ≠ some (next, []) := by
    rintro node' effects hsome next ⟨⟩
    exact hsome rfl
  cases request with
  | requestVote request =>
      cases hclaimant
      cases hmember : node.isMember request.candidateId with
      | false =>
          refine Or.inl ⟨request, rfl, rfl, ?_⟩
          simp only [step, hmember, Bool.not_false, if_true]
      | true =>
          refine Or.inr ⟨fun _ _ => rfl, ?_⟩
          simp only [step, hmember, Bool.not_true, Bool.false_eq_true, if_false, ne_eq,
            not_true_eq_false]
          unfold onRequestVote
          split
          · exact hspoken (List.cons_ne_nil _ _)
          split
          · exact hspoken (List.cons_ne_nil _ _)
          split
          · exact hspoken (List.cons_ne_nil _ _)
          · exact hspoken (List.concat_ne_nil _ _)
  | appendEntries request =>
      cases hclaimant
      refine Or.inr ⟨by rintro vote ⟨⟩, ?_⟩
      simp only [step, ne_eq, not_true_eq_false, if_false]
      rcases Nat.lt_or_ge request.term node.currentTerm with hstale | hcurrent
      · rw [onAppendEntries_stale hstale]
        exact hspoken (List.cons_ne_nil _ _)
      cases hprev : node.prevLogSatisfied request with
      | false =>
          rw [onAppendEntries_rejects hcurrent hprev]
          exact hspoken (List.concat_ne_nil _ _)
      | true =>
          rw [onAppendEntries_accepts hcurrent hprev]
          exact hspoken (List.concat_ne_nil _ _)
  | installSnapshot request =>
      cases hclaimant
      refine Or.inr ⟨by rintro vote ⟨⟩, ?_⟩
      simp only [step, ne_eq, not_true_eq_false, if_false]
      rcases Nat.lt_or_ge request.term node.currentTerm with hstale | hcurrent
      · unfold onInstallSnapshot
        rw [if_pos hstale]
        exact hspoken (List.cons_ne_nil _ _)
      obtain ⟨follower, persists, hinstalls, -⟩ :=
        node.onInstallSnapshot_spec request request.leaderId hcurrent
      rw [hinstalls]
      exact hspoken (List.concat_ne_nil _ _)
  | requestVoteResponse response | appendEntriesResponse response
  | installSnapshotResponse response => cases hclaimant

/-- Compaction takes nothing back that an answer vouches for. -/
theorem Vouches.compact {request : Message} {upToIndex : Nat} {data : Bytes}
    (h : node.Vouches request reply)
    (hcompact : node.perform (.compact upToIndex data) = some (node', emitted)) :
    node'.Vouches request reply := by
  obtain ⟨answer, hanswer, hcompact⟩ := Option.bind_eq_some_iff.mp hcompact
  rcases answer with _ | ⟨last, rest⟩
  · cases hcompact
    exact h
  cases hcompact
  rcases compact_cases hanswer with ⟨-, rfl, -⟩ | ⟨_, _, _, hbeyond, -, -, rfl, -, rfl, -⟩
  · exact h
  · exact Message.Vouched.mono h fun index term hholds => Covers.drop hholds hbeyond

end Node

end Kurogane.Raft

namespace Kurogane.Runtime

open Kurogane.Raft

/-- What a storage vouches for. -/
def Storage.Vouches (storage : Storage) (request reply : Message) : Prop :=
  Message.Vouched storage.hardState
    (Covers storage.log storage.snapshot.lastIncludedIndex) request reply

theorem Storage.Retains.vouches {storage : Storage} {node : Node} {request reply : Message}
    (h : storage.Retains node.durable) (hvouches : node.Vouches request reply) :
    storage.Vouches request reply := by
  have hboundary : storage.snapshot.lastIncludedIndex = node.snapshot.lastIncludedIndex :=
    h.boundary
  have hlog : storage.log = node.log := h.log
  have hhard : storage.hardState = ⟨node.currentTerm, node.votedFor⟩ := h.hardState
  unfold Vouches
  rw [hhard, hlog, hboundary]
  exact hvouches

namespace Actor

variable {actor next : Actor} {sender : NodeId} {request reply : Message}

theorem serve_vouches (hreplies : reply.RepliesTo request)
    (h : actor.serve (.peerRequest sender request) = .ok (next, .message (some reply))) :
    next.replica.node.Vouches request reply := by
  obtain ⟨node, emitted, hstep, ⟨hnone, -⟩ | ⟨receiver, answer, hanswer, hlast⟩⟩ :=
    serve_answers h
  · cases hnone
  cases hanswer
  have hvouches := Node.step_vouches hreplies hstep hlast
  obtain ⟨-, ⟨hnone, -⟩ | ⟨operation, replica, written, _, hoperation, -, hperforms, hends⟩⟩ :=
    serve_performs h
  · cases hnone
  cases hoperation
  cases hstep.symm.trans hperforms.node
  rcases hends with ⟨hreplica, -⟩ | ⟨upToIndex, data, more, -, hcompacts, -⟩
  · rw [hreplica]
    exact hvouches
  · exact hvouches.compact hcompacts.node

/-- A request of a peer that is served gets an answer of its kind. Only one who is no member
and asks for a vote is turned away, and nothing has changed then. -/
theorem serve_replies {P : Cargo → Prop} {answer : ActorReply}
    (hfit : actor.replica.node.Fit P) (hmessage : request.Fit P)
    (hclaimant : request.claimant = some sender)
    (h : actor.serve (.peerRequest sender request) = .ok (next, answer)) :
    (∃ reply, answer = .message (some reply) ∧ reply.RepliesTo request ∧
      ∀ vote, request = .requestVote vote → actor.replica.node.isMember sender = true) ∨
    (answer = .message none ∧ (∃ vote, request = .requestVote vote) ∧
      actor.replica.node.isMember sender = false ∧
      next.replica.node = actor.replica.node ∧ next.storage = actor.storage) := by
  obtain ⟨node, emitted, hstep, hends⟩ := serve_answers h
  rcases actor.replica.node.step_silent hclaimant with
    ⟨vote, rfl, hmember, hsilent⟩ | ⟨hmember, hspoken⟩
  · cases hsilent.symm.trans hstep
    rcases hends with ⟨rfl, -, hnode, hstorage⟩ | ⟨_, _, -, hlast⟩
    · exact Or.inr ⟨rfl, ⟨vote, rfl⟩, hmember, hnode, hstorage⟩
    · cases hlast
  · rcases hends with ⟨rfl, rfl, -⟩ | ⟨receiver, reply, rfl, hlast⟩
    · exact absurd hstep (hspoken node)
    · obtain ⟨-, hreplies⟩ := (Node.request_answerTo hfit hmessage
        (Message.isRequest_of_claimant hclaimant) hstep _ (List.mem_of_getLast? hlast)).2.1 _ _ rfl
      exact Or.inl ⟨reply, rfl, hreplies, hmember⟩

end Actor

namespace Deployment

open Kurogane.Sim (Fleet)

variable {deployment later next : Deployment} {token : String} {actions : List Action}

/-- Whatever has happened, each process stores what its node counts as durable. -/
theorem mirrored_run (hrun : (empty token).run actions = some later) :
    ∃ fleet, later.Refines fleet ∧ fleet.Mirrored := by
  have hruns : ∃ fleet, (∃ reached ≤ (empty token).furthest actions,
      Fleet.Run (fun c m => (empty token).Along .legible actions → c.Meets .legible m)
        ⟨⟨[], ∅, []⟩, fun _ => none⟩ reached fleet) ∧ later.Refines fleet :=
    (empty_refines [] token).run hrun
  obtain ⟨fleet, ⟨reached, -, hran⟩, hlater⟩ := hruns
  exact ⟨fleet, hlater,
    hran.invariant (fun _ hstep h => h.step hstep) (empty_sustained []).mirrors⟩

theorem run_concat {action : Action} (hrun : deployment.run actions = some later)
    (hstep : later.step action = some next) : deployment.run (actions ++ [action]) = some next := by
  unfold run at hrun ⊢
  rw [List.foldlM_append, hrun]
  show (later.step action >>= fun next => some next) = some next
  rw [hstep]
  rfl

/-- A call that gets through to a process returns the answer to what was asked, as a call of
the node itself would. It is turned away only where one asks for a vote who is no member,
neither a voter nor a learner that is tracked, and leaves nothing behind then. -/
theorem calls_are_answered_in_kind (hrun : (empty token).run actions = some later)
    {call : Call} {request : ActorRequest}
    (hadmits : later.admits (.called call) = true)
    (hrequest : later.request (.called call) = some request) {actor next : Actor}
    (hactor : later.actor call.callee = some actor) {outcome : Except Status Proto.PeerReply}
    (hcall : actor.answerCall call.request = (.ok next, outcome)) :
    ∃ message, received call.request = .ok (call.caller, message) ∧
      ((∃ reply, outcome = .ok reply ∧ (returned reply).RepliesTo message ∧
        (∀ vote, message = .requestVote vote →
          actor.replica.node.isMember call.caller = true) ∧
        later.step (.serve (.called call)) = some (later.update call.callee
          (.running next (later.transport call.callee)) (actor.carriesOut request)
          [⟨call.caller, call.callee, reply⟩])) ∨
      (outcome = .error (.invalidArgument "not a recognized cluster member") ∧
        (∃ vote, message = .requestVote vote) ∧
        actor.replica.node.isMember call.caller = false ∧
        next.replica.node = actor.replica.node ∧ next.storage = actor.storage)) := by
  obtain ⟨fleet, hrefines, -⟩ := mirrored_run hrun
  obtain ⟨message, hreceived, rfl, -, harrived⟩ := hrefines.called hadmits hrequest
  have hfit := (hrefines.fit.of_node (hrefines.holds hactor).node).2
  refine ⟨message, hreceived, ?_⟩
  unfold Actor.answerCall at hcall
  rw [hreceived] at hcall
  dsimp only at hcall
  cases hserve : actor.serve (.peerRequest call.caller message) with
  | error panic =>
      rw [hserve] at hcall
      cases hcall
  | ok served =>
      obtain ⟨last, answer⟩ := served
      rw [hserve] at hcall
      rcases Actor.serve_replies hfit (hrefines.fit.network _ harrived)
          (received_ok hreceived).1 hserve with
        ⟨reply, rfl, hreplies, hvoter⟩ | ⟨rfl, hvote, hmember, hnode, hstorage⟩
      · cases hcall
        obtain ⟨proto, hproto, hreturned⟩ := respond_returned hreceived hreplies
        refine Or.inl ⟨proto, hproto, by rw [hreturned]; exact hreplies, hvoter, ?_⟩
        have hactor' : later.actor (Input.called call).host = some actor := hactor
        have hback : answersTo (.called call) (.message (some reply)) =
            [⟨call.caller, call.callee, proto⟩] := by
          unfold answersTo
          dsimp only
          rw [hproto]
        simp only [Deployment.step, hadmits, if_true, hrequest, hactor', hserve, hback,
          Option.bind_eq_bind, Option.bind_some, Except.toOption]
        rfl
      · cases hcall
        exact Or.inr ⟨rfl, hvote, hmember, hnode, hstorage⟩

/-- The second process is asked for the first vote. -/
theorem first_vote_answered : ∃ later actor next reply,
    (empty "token").run (shippedSnapshot.take 3) = some later ∧ later.actor ⟨2⟩ = some actor ∧
    actor.answerCall (.requestVote ⟨1, 1, 0, 0⟩) = (.ok next, .ok reply) ∧
    (returned reply).RepliesTo (.requestVote ⟨1, ⟨1⟩, 0, 0⟩) := by
  let call : Call := ⟨⟨1⟩, ⟨2⟩, some "token", .requestVote ⟨1, 1, 0, 0⟩⟩
  have hplayed : (((empty "token").run (shippedSnapshot.take 3)).bind (fun later =>
      (later.request (.called call)).bind (fun request => (later.actor ⟨2⟩).bind (fun actor =>
        (actor.answerCall call.request).1.toOption.map (fun next =>
          (later, request, actor, next)))))).any
      (fun (later, _, actor, next) => decide (later.admits (.called call) = true ∧
        actor.answerCall call.request = (.ok next, .ok (.requestVote ⟨1, true⟩)))) = true := by
    decide +kernel
  obtain ⟨⟨later, request, actor, next⟩, hfound, hadmits, hcall⟩ := exists_of_any hplayed
  simp only [Option.bind_eq_some_iff, Option.map_eq_some_iff, Prod.mk.injEq] at hfound
  obtain ⟨_, hrun, _, hrequest, _, hactor, _, -, rfl, rfl, rfl, rfl⟩ := hfound
  obtain ⟨message, hreceived, ⟨reply, hreply, hreplies, -, -⟩ | ⟨hrefused, -⟩⟩ :=
    calls_are_answered_in_kind hrun hadmits hrequest hactor hcall
  · cases hreceived
    cases hreply
    exact ⟨_, _, _, _, hrun, hactor, hcall, hreplies⟩
  · cases hrefused

end Deployment

end Kurogane.Runtime
