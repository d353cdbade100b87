import Kurogane.Runtime.Process
import Kurogane.Runtime.Rpc
import Kurogane.Sim.Fleet

/-!
The processes of a cluster as they are deployed, each an actor over its storage, with the
clients of its transport. Any process may be started at any time, over what it has stored
and with settings of its own, as a member or as one that joins. Whatever a process sends to
an id it has a client for is a call of a peer, which may arrive at any later time, any
number of times or never, and so may its answer. Anybody may call, but without the token of
the cluster nobody gets through. A process may stop between any two effects. Every run of
the processes is one of the cluster of nodes.
-/

namespace Kurogane.Runtime

open Kurogane.Raft
open Kurogane.Kv (Replica)
open Kurogane.Sim (Envelope Server Cluster Fleet)

/-- What the environment variables of a process say, besides its identity and the token.
`peers` are the ids of `KUROGANE_PEERS`, each with the address of the process of that id. -/
structure Settings where
  peers : List NodeId
  electionTimeoutTicks : Nat
  heartbeatIntervalTicks : Nat
  compactThreshold : Nat
  joinAsLearner : Bool
deriving DecidableEq

namespace Settings

/-- The keys of the parsed peers. -/
def memberIds (settings : Settings) : List NodeId := (Std.ExtTreeSet.ofList settings.peers).toList

def environment (settings : Settings) : Environment where
  memberIds := settings.memberIds
  electionTimeoutTicks := settings.electionTimeoutTicks
  heartbeatIntervalTicks := settings.heartbeatIntervalTicks
  joinAsLearner := settings.joinAsLearner

end Settings

/-- The actor `main` spawns; `none` where it panics before. -/
def launch (id : NodeId) (settings : Settings) (storage : Storage) : Option Actor :=
  if settings.memberIds.contains id then do
    let node ← (startUp id settings.environment storage).toOption
    let replica ← (Replica.recover node).toOption
    some (.new replica storage settings.compactThreshold)
  else none

/-- The ids that the transport of a process has a client for. -/
structure Transport where
  clients : NodeSet
deriving DecidableEq

namespace Transport

/-- A process has a client for each of its peers but itself. -/
def new (id : NodeId) (settings : Settings) : Transport :=
  ⟨(Std.ExtTreeSet.ofList settings.peers).erase id⟩

/-- An address that is no valid URI is not taken. -/
def addPeer (transport : Transport) (id : NodeId) (reachable : Bool) : Transport :=
  if reachable then ⟨transport.clients.insert id⟩ else transport

/-- The transport once a request has been answered: only a learner that has been accepted
brings an address with it. -/
def answered (transport : Transport) : ActorRequest → ActorReply → Transport
  | .addLearner id reachable, .learner (.accepted _) => transport.addPeer id reachable
  | _, _ => transport

/-- The call that is made of a message; none without a client. -/
def send (transport : Transport) (receiver : NodeId) (message : Message) :
    Option Proto.PeerRequest :=
  if transport.clients.contains receiver then outgoing message else none

end Transport

/-- How far the replica gets that serves `request`. -/
def Actor.reaches (actor : Actor) (request : ActorRequest) : Nat :=
  ((actor.attend request).toOption.map (fun (replica, _) => replica.lastApplied)).getD 0

/-- A process, or what it leaves behind. -/
inductive Host where
  | running (actor : Actor) (transport : Transport)
  | stopped (storage : Storage)
deriving DecidableEq

namespace Host

def replica : Host → Option Replica
  | .running actor _ => some actor.replica
  | .stopped _ => none

def storage : Host → Storage
  | .running actor _ => actor.storage
  | .stopped storage => storage

/-- The server of a cluster that a process is. -/
def server (host : Host) : Server := ⟨host.replica.map Replica.node, host.storage⟩

end Host

/-- A call on its way, with the token it shows. -/
structure Call where
  caller : NodeId
  callee : NodeId
  token : Option String
  request : Proto.PeerRequest
deriving DecidableEq

/-- What a call that succeeded returns to its caller. -/
structure Answer where
  caller : NodeId
  callee : NodeId
  reply : Proto.PeerReply
deriving DecidableEq

/-- All processes are started with the same token, one for each id. -/
structure Deployment where
  token : String
  hosts : Std.ExtTreeMap NodeId Host
  calls : List Call
  answers : List Answer
deriving DecidableEq

/-- Requests of the timer and of clients. -/
def ActorRequest.isOwn : ActorRequest → Bool
  | .peerRequest _ _ | .peerResponse _ _ => false
  | _ => true

/-- What reaches a process. -/
inductive Input where
  | own (id : NodeId) (request : ActorRequest)
  | called (call : Call)
  | answered (answer : Answer)
deriving DecidableEq

/-- The process that is reached. -/
def Input.host : Input → NodeId
  | .own id _ => id
  | .called call => call.callee
  | .answered answer => answer.caller

namespace Deployment

inductive Action where
  | serve (input : Input)
  | interrupt (input : Input) (written : Nat)
  | crash (id : NodeId)
  | start (id : NodeId) (settings : Settings)
deriving DecidableEq

/-- No process has been started yet. -/
def empty (token : String) : Deployment := ⟨token, ∅, [], []⟩

def actor (deployment : Deployment) (id : NodeId) : Option Actor :=
  match deployment.hosts[id]? with
  | some (.running actor _) => some actor
  | _ => none

/-- A process that does not run has no clients. -/
def transport (deployment : Deployment) (id : NodeId) : Transport :=
  match deployment.hosts[id]? with
  | some (.running _ transport) => transport
  | _ => ⟨∅⟩

/-- What `id` has stored, if it has ever run. -/
def storageOf (deployment : Deployment) (id : NodeId) : Storage :=
  (deployment.hosts[id]?.map Host.storage).getD .fresh

/-- A call may be one that a peer has made, or one of somebody who does not know the
token. -/
def admits (deployment : Deployment) : Input → Bool
  | .own _ request => request.isOwn
  | .called call =>
      deployment.calls.contains call || call.token ≠ some deployment.token
  | .answered answer => deployment.answers.contains answer

/-- What the actor is asked; `none` where a call is refused before. -/
def request (deployment : Deployment) : Input → Option ActorRequest
  | .own _ request => some request
  | .called call =>
      match (TokenInterceptor.mk deployment.token).call call.token, received call.request with
      | .ok (), .ok (sender, message) => some (.peerRequest sender message)
      | _, _ => none
  | .answered answer => some (.peerResponse answer.callee (returned answer.reply))

/-- The calls that the effects of `id` come to. -/
def callsOf (deployment : Deployment) (id : NodeId) (effects : List Effect) : List Call :=
  effects.filterMap (fun effect =>
    match effect with
    | .send receiver message => ((deployment.transport id).send receiver message).map
        (fun request => ⟨id, receiver, some deployment.token, request⟩)
    | _ => none)

/-- What goes back to the caller, where there is one. -/
def answersTo (input : Input) (reply : ActorReply) : List Answer :=
  match input, reply with
  | .called call, .message (some message) =>
      match respond call.request message with
      | .ok reply => [⟨call.caller, call.callee, reply⟩]
      | .error _ => []
  | _, _ => []

/-- `id` has become `host` by these effects. -/
def update (deployment : Deployment) (id : NodeId) (host : Host) (effects : List Effect)
    (answers : List Answer) : Deployment :=
  { deployment with
    hosts := deployment.hosts.insert id host
    calls := deployment.calls ++ deployment.callsOf id effects
    answers := deployment.answers ++ answers }

/-- `none` where the action is not possible: nothing of the kind is there to be served,
or the process does not run, or runs already, or does not accept its settings. A process
whose actor panics or that is killed is interrupted. -/
def step (deployment : Deployment) : Action → Option Deployment
  | .serve input =>
      if deployment.admits input then
        match deployment.request input with
        | none => some deployment
        | some request => do
            let actor ← deployment.actor input.host
            let (next, reply) ← (actor.serve request).toOption
            let transport := (deployment.transport input.host).answered request reply
            some (deployment.update input.host (.running next transport)
              (actor.carriesOut request) (answersTo input reply))
      else none
  | .interrupt input written =>
      if deployment.admits input then do
        let request ← deployment.request input
        let actor ← deployment.actor input.host
        let effects := (actor.carriesOut request).take written
        let storage ← actor.storage.applyAll effects
        some (deployment.update input.host (.stopped storage) effects [])
      else none
  | .crash id => do
      let actor ← deployment.actor id
      some (deployment.update id (.stopped actor.storage) [] [])
  | .start id settings =>
      if (deployment.actor id).isSome then none
      else do
        let actor ← launch id settings (deployment.storageOf id)
        some (deployment.update id (.running actor (.new id settings)) [] [])

def run (deployment : Deployment) (actions : List Action) : Option Deployment :=
  actions.foldlM step deployment

/-- How far the replica gets that serves `input`. -/
def reachedBy (deployment : Deployment) (input : Input) : Nat :=
  ((deployment.request input).bind (fun request =>
    (deployment.actor input.host).map (fun actor => actor.reaches request))).getD 0

def reaches (deployment : Deployment) : Action → Nat
  | .serve input | .interrupt input _ => deployment.reachedBy input
  | .crash _ | .start _ _ => 0

/-- The furthest any replica gets in the course of `actions`. -/
def furthest (deployment : Deployment) : List Action → Nat
  | [] => 0
  | action :: rest =>
      max (deployment.reaches action)
        (((deployment.step action).map (fun next => next.furthest rest)).getD 0)

end Deployment

end Kurogane.Runtime
