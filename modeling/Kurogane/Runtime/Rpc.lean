import Kurogane.Runtime.Actor
import Kurogane.Runtime.Dto
import Kurogane.Runtime.Signatures

/-!
Calls of one peer to another. The transport turns a request of the node into one of the
three calls, the service of the other side turns the call into a request of its actor,
and what comes back is handed to the node that asked. A call is refused unless it shows
the token of the cluster.
-/

namespace Kurogane.Runtime.Proto

/-- The request of one of the three calls. -/
inductive PeerRequest where
  | requestVote (request : RequestVoteRequest)
  | appendEntries (request : AppendEntriesRequest)
  | installSnapshot (request : InstallSnapshotRequest)
deriving DecidableEq, Repr

inductive PeerReply where
  | requestVote (reply : RequestVoteReply)
  | appendEntries (reply : AppendEntriesReply)
  | installSnapshot (reply : InstallSnapshotReply)
deriving DecidableEq, Repr

end Kurogane.Runtime.Proto

namespace Kurogane.Runtime

open Kurogane.Raft

/-- How a call fails. -/
inductive Status where
  | unauthenticated (text : String)
  | invalidArgument (text : String)
  | unavailable (text : String)
  | internal (text : String)
deriving DecidableEq, Repr

/-! ### The token -/

structure TokenInterceptor where
  token : String
deriving DecidableEq, Repr

/-- `presented` is what a call carries as its token. -/
def TokenInterceptor.call (interceptor : TokenInterceptor) (presented : Option String) :
    Except Status Unit :=
  match presented with
  | none => .error (.unauthenticated "missing cluster token")
  | some presented =>
      if presented = interceptor.token then .ok ()
      else .error (.unauthenticated "invalid cluster token")

theorem TokenInterceptor.call_ok {interceptor : TokenInterceptor} {presented : Option String}
    (h : interceptor.call presented = .ok ()) : presented = some interceptor.token := by
  unfold TokenInterceptor.call at h
  split at h
  · cases h
  · split at h
    · rename_i hsame
      rw [hsame]
    · cases h

/-! ### The side that calls -/

/-- The call that `send` makes of a message; it makes none of a response. -/
def outgoing : Message → Option Proto.PeerRequest
  | .requestVote request => some (.requestVote (requestVoteToProto request))
  | .appendEntries request => some (.appendEntries (appendEntriesToProto request))
  | .installSnapshot request => some (.installSnapshot (installSnapshotToProto request))
  | .requestVoteResponse _ | .appendEntriesResponse _ | .installSnapshotResponse _ => none

/-- What `send` hands to the actor when the call returns. -/
def returned : Proto.PeerReply → Message
  | .requestVote reply => .requestVoteResponse (requestVoteResponseFromProto reply)
  | .appendEntries reply => .appendEntriesResponse (appendEntriesResponseFromProto reply)
  | .installSnapshot reply =>
      .installSnapshotResponse (installSnapshotResponseFromProto reply)

/-! ### The side that is called -/

/-- Who asks the actor, and what for. -/
def received : Proto.PeerRequest → Except Status (NodeId × Message)
  | .requestVote request =>
      let value := requestVoteFromProto request
      .ok (value.candidateId, .requestVote value)
  | .appendEntries request =>
      match appendEntriesFromProto request with
      | .error _ => .error (.invalidArgument "LogEntry message is missing its payload")
      | .ok value => .ok (value.leaderId, .appendEntries value)
  | .installSnapshot request =>
      let value := installSnapshotFromProto request
      .ok (value.leaderId, .installSnapshot value)

def respond : Proto.PeerRequest → Message → Except Status Proto.PeerReply
  | .requestVote _, .requestVoteResponse response =>
      .ok (.requestVote (requestVoteResponseToProto response))
  | .appendEntries _, .appendEntriesResponse response =>
      .ok (.appendEntries (appendEntriesResponseToProto response))
  | .installSnapshot _, .installSnapshotResponse response =>
      .ok (.installSnapshot (installSnapshotResponseToProto response))
  | _, _ => .error (.internal "actor returned an unexpected response type")

/-- One call of the peer service, and the actor after it. A panic leaves its caller
without an answer. -/
def Actor.answerCall (actor : Actor) (request : Proto.PeerRequest) :
    Except ActorPanic Actor × Except Status Proto.PeerReply :=
  match received request with
  | .error status => (.ok actor, .error status)
  | .ok (sender, message) =>
      match actor.serve (.peerRequest sender message) with
      | .error panic => (.error panic, .error (.unavailable "actor task is not running"))
      | .ok (actor, .message (some reply)) => (.ok actor, respond request reply)
      | .ok (actor, _) =>
          (.ok actor, .error (.invalidArgument "not a recognized cluster member"))

section Conversions

variable {request : Proto.PeerRequest} {message reply : Message} {sender : NodeId}

theorem appendEntriesFromProto_ok {proto : Proto.AppendEntriesRequest}
    {value : AppendEntries} (h : appendEntriesFromProto proto = .ok value) :
    proto.entries.mapM logEntryFromProto = .ok value.entries := by
  unfold appendEntriesFromProto at h
  cases hentries : proto.entries.mapM logEntryFromProto with
  | error e =>
      rw [hentries] at h
      cases h
  | ok entries =>
      rw [hentries] at h
      cases h
      rfl

/-- What the service accepts comes from the one it says, and is fit for the wire. -/
theorem received_ok (h : received request = .ok (sender, message)) :
    message.claimant = some sender ∧ message.OnWire := by
  cases request with
  | requestVote request =>
      cases h
      exact ⟨rfl, trivial⟩
  | appendEntries request =>
      unfold received at h
      dsimp only at h
      split at h
      · cases h
      · rename_i value hvalue
        cases h
        exact ⟨rfl, mapM_logEntryFromProto_onWire (appendEntriesFromProto_ok hvalue)⟩
  | installSnapshot request =>
      cases h
      refine ⟨rfl, ?_⟩
      show ((request.config.map configurationFromProto).getD .default).OnWire
      cases request.config with
      | none => exact Storage.fresh_onWire.snapshotConfig
      | some config => exact configurationFromProto_onWire config

/-- A request that is fit for the wire arrives as it was. -/
theorem received_outgoing (hwire : message.OnWire) (h : outgoing message = some request) :
    ∃ sender, message.claimant = some sender ∧ received request = .ok (sender, message) := by
  cases message with
  | requestVote value =>
      cases h
      exact ⟨_, rfl, rfl⟩
  | appendEntries value =>
      cases h
      have hentries : (value.entries.map logEntryToProto).mapM logEntryFromProto =
          .ok value.entries := log_round_trip hwire
      refine ⟨_, rfl, ?_⟩
      unfold received appendEntriesFromProto appendEntriesToProto
      dsimp only
      rw [hentries]
      rfl
  | installSnapshot value =>
      cases h
      have hconfig : configurationFromProto (configurationToProto value.config) =
          value.config := configuration_round_trip hwire
      refine ⟨_, rfl, ?_⟩
      unfold received installSnapshotFromProto installSnapshotToProto
      dsimp only [Option.map_some, Option.getD_some]
      rw [hconfig]
  | requestVoteResponse value => cases h
  | appendEntriesResponse value => cases h
  | installSnapshotResponse value => cases h

/-- An answer of the kind that was asked for returns as it was. -/
theorem respond_returned (hreceived : received request = .ok (sender, message))
    (hreplies : reply.RepliesTo message) :
    ∃ proto, respond request reply = .ok proto ∧ returned proto = reply := by
  have hmessage : (∃ value, request = .requestVote value ∧ message =
        .requestVote (requestVoteFromProto value)) ∨
      (∃ value answer, request = .appendEntries value ∧ message = .appendEntries answer) ∨
      ∃ value, request = .installSnapshot value ∧
        message = .installSnapshot (installSnapshotFromProto value) := by
    cases request with
    | requestVote value =>
        cases hreceived
        exact Or.inl ⟨value, rfl, rfl⟩
    | appendEntries value =>
        unfold received at hreceived
        dsimp only at hreceived
        split at hreceived
        · cases hreceived
        · cases hreceived
          exact Or.inr (Or.inl ⟨value, _, rfl, rfl⟩)
    | installSnapshot value =>
        cases hreceived
        exact Or.inr (Or.inr ⟨value, rfl, rfl⟩)
  rcases hmessage with ⟨value, rfl, rfl⟩ | ⟨value, answer, rfl, rfl⟩ | ⟨value, rfl, rfl⟩
  · cases reply with
    | requestVoteResponse response => exact ⟨_, rfl, rfl⟩
    | _ => cases hreplies
  · cases reply with
    | appendEntriesResponse response => exact ⟨_, rfl, rfl⟩
    | _ => cases hreplies
  · cases reply with
    | installSnapshotResponse response => exact ⟨_, rfl, rfl⟩
    | _ => cases hreplies

end Conversions

end Kurogane.Runtime
