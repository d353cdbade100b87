import Kurogane.Raft.Replicating
import Kurogane.Sim.ElectionSafety
import Kurogane.Sim.Growth

/-!
No leader panics while it replicates. A run is followed as long as every change
of membership names nodes that the leader already tracks, which an election and
`add_learner` see to: then every target of a leader is tracked, and whatever is
asked of a node next is served.
-/

namespace Kurogane.Sim

open Kurogane.Raft Kurogane.Runtime Kurogane.Consensus

namespace Cluster

/-- An orderly move, which names only nodes that the leader tracks. -/
def Introduced (cluster : Cluster) (move : Move) : Prop :=
  cluster.Orderly move ∧
    match move with
    | .act action => cluster.Serving Node.NamesTracked action
    | .start _ _ => True

instance (cluster : Cluster) : DecidablePred cluster.Introduced := fun move =>
  match move with
  | .act _ => inferInstanceAs (Decidable (_ ∧ _))
  | .start _ _ => inferInstanceAs (Decidable (_ ∧ True))

/-- Nothing on its way was sent by its own receiver. -/
def NoEcho (cluster : Cluster) : Prop :=
  ∀ envelope ∈ cluster.network, envelope.sender ≠ envelope.receiver

end Cluster

variable {initial : ClusterConfig} {h h' : Ghost} {node node' : Node}
  {cluster cluster' : Cluster} {effects : List Effect}

/-! ### What a leader relies on -/

theorem configQuorum_countable {config : ClusterConfig} {P : NodeId → Prop}
    (hquorum : configQuorum config P) : config.Countable := by
  have hnever : ¬ Majority [] P := by simp [Majority]
  constructor
  · intro hnil
    have hmajority := hquorum.1
    rw [hnil] at hmajority
    exact hnever hmajority
  · intro hnil
    exact hnever (hquorum.2 [] hnil)

theorem winsCounted_of_countsVoters {operation : Operation}
    (hcounts : node.CountsVoters operation) : node.WinsCounted operation := by
  have hquorate : ∀ winner : Node, winner.currentConfig = node.currentConfig →
      winner.VotersCounted winner.votesGranted → winner.hasQuorum = true →
      node.currentConfig.Countable := by
    intro winner hconfig hcounted hquorum
    rw [← hconfig]
    exact configQuorum_countable (P := fun _ => True)
      (configQuorum_of_hasQuorum hcounted hquorum (fun _ _ => trivial))
  cases operation with
  | tick nextTimeout =>
      intro hrole htimeout hvoter hquorum
      exact hquorate (node.campaign nextTimeout) rfl
        (hcounts hrole htimeout hvoter) hquorum
  | receive sender message =>
      cases message with
      | requestVoteResponse response =>
          intro hmember hgranted hterm hrole hquorum
          exact hquorate { node with
            votesGranted := node.votesGranted.insert sender } rfl
            (hcounts hmember hgranted hterm hrole) hquorum
      | _ => trivial
  | _ => trivial

/-- What is said in a leader's own term is said of its own log. -/
theorem hearsOwnTerm (s : h.Sound (membership initial))
    (hrel : NodeRel initial h node) {operation : Operation}
    (hmessage : ∀ sender message, operation = .receive sender message →
      sender ≠ node.id ∧ MessageRel initial h sender node.id message) :
    node.HearsOwnTerm operation := by
  cases operation with
  | receive sender message =>
      obtain ⟨hother, hmessage⟩ := hmessage sender message rfl
      have hsole : node.role = .leader → ¬ h.Elected node.currentTerm sender := by
        intro hrole helected
        exact hother (s.elected_unique helected (hrel.leader hrole).1)
      cases message with
      | appendEntries request =>
          intro hsender hrole hterm
          apply hsole hrole
          rw [← hterm, ← hsender]
          exact hmessage.1
      | installSnapshot request =>
          intro hsender hrole hterm
          apply hsole hrole
          rw [← hterm, ← hsender]
          exact hmessage.1
      | appendEntriesResponse response =>
          intro hrole hterm
          refine ⟨hother, fun hsuccess => ?_⟩
          have hack := hmessage hsuccess
          rw [hterm] at hack
          rw [hrel.lastLogIndex s]
          exact (matched_of_ack s hrel hrole hack).1
      | installSnapshotResponse response =>
          intro hrole hterm
          refine ⟨hother, ?_⟩
          rw [hrel.lastLogIndex s]
          rcases hmessage with hack | ⟨covered, hlength, hcovered⟩
          · rw [hterm] at hack
            exact (matched_of_ack s hrel hrole hack).1
          · obtain ⟨helected, hlog, -⟩ := hrel.leader hrole
            rw [hterm] at hcovered
            rw [← hlength, hlog]
            exact (s.covered_in_leader hcovered le_rfl helected).length_le
      | _ => trivial
  | _ => trivial

theorem NodeRel.ready (s : h.Sound (membership initial))
    (hrel : NodeRel initial h node) {operation : Operation}
    (hmessage : ∀ sender message, operation = .receive sender message →
      sender ≠ node.id ∧ MessageRel initial h sender node.id message) :
    node.Ready operation where
  current := hrel.config
  committed := by
    rw [hrel.lastLogIndex s]
    exact hrel.commit_le_length s
  hears := hearsOwnTerm s hrel hmessage

/-! ### Runs -/

/-- A cluster whose leaders track their targets. -/
structure Replicates (cluster : Cluster) (h : Ghost) : Prop
    extends Grown cluster h where
  noEcho : cluster.NoEcho
  leaders : ∀ id node, cluster.node id = some node → node.role = .leader →
    node.Tracks

namespace Replicates

theorem ready (hrel : Replicates cluster h) {id : NodeId} {operation : Operation}
    (hnode : cluster.node id = some node)
    (hdelivers : cluster.delivers id operation = true) :
    node.Ready operation := by
  obtain ⟨rfl, hnodeRel⟩ := hrel.of_node hnode
  apply hnodeRel.ready hrel.sound
  rintro sender message rfl
  refine ⟨?_, hrel.delivered hdelivers sender message rfl⟩
  have hmem := hdelivers
  simp only [Cluster.delivers, List.contains_iff_mem] at hmem
  exact hrel.noEcho _ hmem

/-- Whatever a crash leaves of a batch, none of it goes back to its sender. -/
theorem noEcho_update (hrel : Replicates cluster h) {id : NodeId}
    {operation : Operation} {server : Server}
    (hnode : cluster.node id = some node)
    (hdelivers : cluster.delivers id operation = true)
    (hperform : node.perform operation = some (node', effects))
    {written : List Effect} (hwritten : ∀ effect ∈ written, effect ∈ effects) :
    (cluster.update id server written).NoEcho := by
  obtain ⟨rfl, -⟩ := hrel.of_node hnode
  intro envelope hmem hecho
  rcases List.mem_append.mp hmem with hmem | hmem
  · exact hrel.noEcho envelope hmem hecho
  obtain ⟨hsender, heffect⟩ := mem_sent hmem
  have hasked := (Node.perform_emittable hperform _ (hwritten _ heffect)).1
    (hecho.symm.trans (hsender.trans (Node.perform_writeAhead hperform).id.symm))
  cases operation with
  | receive sender message =>
      simp only [Cluster.delivers, List.contains_iff_mem] at hdelivers
      apply hrel.noEcho _ hdelivers
      exact (Option.some.inj hasked).trans (hecho.symm.trans hsender)
  | _ => cases hasked

theorem leaders_update (hrel : Replicates cluster h) {id : NodeId} {server : Server}
    (hserver : ∀ node ∈ server.node, node.role = .leader → node.Tracks)
    (other : NodeId) (found : Node)
    (hfound : (cluster.update id server effects).node other = some found)
    (hrole : found.role = .leader) : found.Tracks := by
  rw [Cluster.node, Cluster.servers_update, Std.ExtTreeMap.getElem?_insert] at hfound
  split at hfound
  · exact hserver found hfound hrole
  · exact hrel.leaders other found hfound hrole

theorem noEcho_quiet (hrel : Replicates cluster h) {id : NodeId} {server : Server} :
    (cluster.update id server []).NoEcho := by
  intro envelope hmem
  rcases List.mem_append.mp hmem with hmem | hmem
  · exact hrel.noEcho envelope hmem
  · cases hmem

theorem move (hrel : Replicates cluster h) {move : Move}
    (hok : cluster.Introduced move) (hmove : cluster.move move = some cluster') :
    ∃ h', Replicates cluster' h' := by
  obtain ⟨h', hgrown, -, -⟩ := hrel.toGrown.move hok.1 hmove
  suffices hkept : cluster'.NoEcho ∧ ∀ id node, cluster'.node id = some node →
      node.role = .leader → node.Tracks from
    ⟨h', hgrown, hkept.1, hkept.2⟩
  have hidle : ∀ fresh : Node, fresh.role = .follower →
      ∀ node ∈ some fresh, node.role = .leader → node.Tracks := by
    intro fresh hfollower node hnode hleader
    cases hnode
    rw [hfollower] at hleader
    cases hleader
  cases move with
  | start id environment =>
      obtain ⟨node, hstart, rfl⟩ := Cluster.launch_ok hmove
      exact ⟨hrel.noEcho_quiet, hrel.leaders_update (hidle node (startUp_ok hstart).2.1)⟩
  | act action =>
      obtain ⟨⟨hguarded, -⟩, hnames⟩ := hok
      cases action with
      | perform id operation =>
          obtain ⟨server, node, node', effects, storage, hserver, hrunning,
            hdelivers, hperform, happly, rfl⟩ := Cluster.step_perform hmove
          have hnode := Cluster.node_of_server hserver hrunning
          refine ⟨hrel.noEcho_update hnode hdelivers hperform (fun _ hmem => hmem),
            hrel.leaders_update ?_⟩
          intro last hlast hrole
          cases hlast
          exact Node.perform_tracks (hrel.leaders id node hnode)
            (hrel.ready hnode hdelivers) (hnames hdelivers node hnode)
            (winsCounted_of_countsVoters
              (hguarded.serving hdelivers node hnode).counts) hperform hrole
      | interrupt id operation written =>
          obtain ⟨server, node, node', effects, storage, hserver, hrunning,
            hdelivers, hperform, happly, rfl⟩ := Cluster.step_interrupt hmove
          have hnode := Cluster.node_of_server hserver hrunning
          exact ⟨hrel.noEcho_update hnode hdelivers hperform
            (fun _ => List.mem_of_mem_take), hrel.leaders_update (by simp)⟩
      | crash id =>
          obtain ⟨server, -, rfl⟩ := Cluster.step_crash hmove
          exact ⟨hrel.noEcho_quiet, hrel.leaders_update (by simp)⟩
      | restart id electionTimeout heartbeatInterval =>
          obtain ⟨server, node, -, hrecover, rfl⟩ := Cluster.step_restart hmove
          obtain ⟨-, -, hrole, -⟩ := Node.recover_ok hrecover
          exact ⟨hrel.noEcho_quiet, hrel.leaders_update (hidle node hrole)⟩

theorem run {start now : Cluster} {past : List Cluster}
    (hstart : Replicates start h) (hrun : Growth Cluster.Introduced start (now :: past)) :
    ∃ h', Replicates now h' := by
  have hall : ∀ current ∈ (now :: past).head?, ∃ h', Replicates current h' := by
    refine hrun.invariant (fun states => ∀ current ∈ states.head?,
      ∃ h', Replicates current h') ?_ ?_
    · rintro current hcurrent
      cases hcurrent
      exact ⟨h, hstart⟩
    · intro current earlier move next hinvariant hok hmove last hlast
      cases hlast
      obtain ⟨h', hrel⟩ := hinvariant current rfl
      exact hrel.move hok hmove
  exact hall now rfl

end Replicates

theorem boot_replicates {peers : List NodeId} {members : List (NodeId × Nat × Nat)}
    (hboot : Cluster.boot peers members = .ok cluster) :
    Replicates cluster (.empty NodeId LogEntry) := by
  obtain ⟨-, hnetwork, hservers⟩ := Cluster.boot_ok hboot
  refine ⟨boot_grown hboot, ?_, ?_⟩
  · intro envelope hmem
    rw [hnetwork] at hmem
    cases hmem
  · intro id node hnode hrole
    obtain ⟨server, hserver, hnode⟩ := Option.bind_eq_some_iff.mp hnode
    obtain ⟨first, electionTimeout, heartbeatInterval, rfl, hnew⟩ :=
      hservers id server hserver
    cases hnode
    obtain ⟨-, -, hfollower, -⟩ := Node.recover_ok hnew
    rw [hfollower] at hrole
    cases hrole

/-- Every target of a leader is tracked, by indexes that lie in its log or just
beyond, and whatever can be asked of a node next is served without a panic. -/
theorem leaders_replicate_without_panic {peers : List NodeId}
    {members : List (NodeId × Nat × Nat)} {start now : Cluster}
    {past : List Cluster} (hboot : Cluster.boot peers members = .ok start)
    (hrun : Growth Cluster.Introduced start (now :: past)) {id : NodeId}
    {node : Node} (hnode : now.node id = some node) :
    (node.role = .leader → ∀ peer ∈ node.replicationTargets, ∃ next count,
      node.nextIndex[peer]? = some next ∧ node.matchIndex[peer]? = some count ∧
        1 ≤ next ∧ next ≤ node.lastLogIndex + 1) ∧
    ∀ operation, now.delivers id operation = true →
      ∃ result, node.perform operation = some result := by
  obtain ⟨h, hrel⟩ := (boot_replicates hboot).run hrun
  constructor
  · intro hrole peer hpeer
    have htracks := hrel.leaders id node hnode hrole
    obtain ⟨hnext, hmatch⟩ := htracks.targets peer hpeer
    obtain ⟨next, hnext⟩ := Option.isSome_iff_exists.mp hnext
    obtain ⟨count, hcount⟩ := Option.isSome_iff_exists.mp hmatch
    exact ⟨next, count, hnext, hcount, htracks.next peer next hnext⟩
  · intro operation hdelivers
    exact Node.perform_some (hrel.leaders id node hnode) (hrel.ready hnode hdelivers)

/-- A leader adds a node as a learner, then promotes it. -/
def promotesLearner : List Move :=
  [.act (.perform ⟨1⟩ (.tick 1)),
    .act (.perform ⟨1⟩ (.addLearner ⟨9⟩)),
    .act (.perform ⟨1⟩ (.propose [7])),
    .act (.perform ⟨1⟩ (.proposeConfigChange [⟨1⟩, ⟨9⟩]))]

theorem promoted_learner_is_tracked : ∃ start now past,
    Cluster.boot [⟨1⟩] [(⟨1⟩, 1, 1)] = .ok start ∧
    Growth Cluster.Introduced start (now :: past) ∧
    ∃ node ∈ now.node ⟨1⟩, node.role = .leader ∧ ⟨9⟩ ∈ node.replicationTargets ∧
      (∃ next count, node.nextIndex[(⟨9⟩ : NodeId)]? = some next ∧
        node.matchIndex[(⟨9⟩ : NodeId)]? = some count ∧
          1 ≤ next ∧ next ≤ node.lastLogIndex + 1) ∧
      ∃ result, node.perform (.tick 1) = some result := by
  obtain ⟨start, now, past, hboot, hrun, node, hnode, hrole, htarget⟩ :=
    Growth.of_check Cluster.Introduced [⟨1⟩] [(⟨1⟩, 1, 1)] promotesLearner
      (fun now => ∃ node ∈ now.node ⟨1⟩, node.role = .leader ∧
        ⟨9⟩ ∈ node.replicationTargets)
      (by decide +kernel)
  obtain ⟨htracked, hserved⟩ := leaders_replicate_without_panic hboot hrun hnode
  exact ⟨start, now, past, hboot, hrun, node, hnode, hrole, htarget,
    htracked hrole ⟨9⟩ htarget, hserved (.tick 1) rfl⟩

/-- A leader that is asked for a voter it has never heard of does not track it,
and panics at its next heartbeat. -/
theorem unseen_voter_makes_the_leader_panic : ∃ start now past,
    Cluster.boot [⟨1⟩] [(⟨1⟩, 1, 1)] = .ok start ∧
    Growth Cluster.Orderly start (now :: past) ∧
    ∃ node ∈ now.node ⟨1⟩, node.role = .leader ∧ ⟨9⟩ ∈ node.replicationTargets ∧
      node.nextIndex[(⟨9⟩ : NodeId)]? = none ∧
      now.delivers ⟨1⟩ (.tick 1) = true ∧ node.perform (.tick 1) = none :=
  Growth.of_check Cluster.Orderly [⟨1⟩] [(⟨1⟩, 1, 1)]
    [.act (.perform ⟨1⟩ (.tick 1)),
      .act (.perform ⟨1⟩ (.proposeConfigChange [⟨1⟩, ⟨9⟩]))]
    (fun now => ∃ node ∈ now.node ⟨1⟩, node.role = .leader ∧
      ⟨9⟩ ∈ node.replicationTargets ∧ node.nextIndex[(⟨9⟩ : NodeId)]? = none ∧
      now.delivers ⟨1⟩ (.tick 1) = true ∧ node.perform (.tick 1) = none)
    (by decide +kernel)

end Kurogane.Sim
