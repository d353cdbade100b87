import Kurogane.Sim.Confinement

/-!
One leader per term. A run with changes of membership keeps election safety
as long as every change waits for the one before it and every election is won
by a majority of the voters; the transitions themselves check neither. With a
fixed membership both hold by themselves.
-/

namespace Kurogane.Raft.Node

/-- The requests of a run without compaction: a change of membership names new
voters once each, and only peers that the leader replicates to. -/
def Requested (node : Node) : Operation → Prop
  | .proposeConfigChange newVoters => newVoters ≠ [] ∧ newVoters.Nodup ∧
      ∀ v ∈ newVoters, v = node.id ∨ v ∈ node.nextIndex
  | .compact _ _ => False
  | _ => True

/-- The requests of a run with a fixed membership. -/
def Steady (_ : Node) : Operation → Prop
  | .tick _ | .receive _ _ | .propose _ => True
  | _ => False

instance (node : Node) : DecidablePred node.Requested := fun operation =>
  match operation with
  | .proposeConfigChange _ => inferInstanceAs (Decidable (_ ∧ _))
  | .compact _ _ => inferInstanceAs (Decidable False)
  | .tick _ | .receive _ _ | .propose _ | .addLearner _ | .removeLearner _ =>
      inferInstanceAs (Decidable True)

instance (node : Node) : DecidablePred node.Steady := fun operation =>
  match operation with
  | .tick _ | .receive _ _ | .propose _ => inferInstanceAs (Decidable True)
  | .proposeConfigChange _ | .compact _ _ | .addLearner _ | .removeLearner _ =>
      inferInstanceAs (Decidable False)

end Kurogane.Raft.Node

namespace Kurogane.Sim

open Kurogane.Raft Kurogane.Runtime Kurogane.Consensus

namespace Cluster

def Leads (cluster : Cluster) (id : NodeId) (term : Nat) : Prop :=
  ∃ node ∈ cluster.node id, node.role = .leader ∧ node.currentTerm = term

instance (cluster : Cluster) (id : NodeId) (term : Nat) :
    Decidable (cluster.Leads id term) :=
  match h : cluster.node id with
  | none => isFalse (by simp [Leads, h])
  | some node => decidable_of_iff
      (node.role = .leader ∧ node.currentTerm = term) (by simp [Leads, h])

end Cluster

variable {cluster cluster' : Cluster} {h h' : Ghost}

theorem ClusterRel.elected (hrel : ClusterRel cluster h) {id : NodeId}
    {term : Nat} (hleads : cluster.Leads id term) : h.Elected term id := by
  obtain ⟨node, hnode, hrole, rfl⟩ := hleads
  obtain ⟨rfl, hnodeRel⟩ := hrel.of_node hnode
  exact (hnodeRel.leader hrole).1

/-! ### Runs without compaction -/

variable {p : LogEntry → Prop}

/-- Without compaction no snapshot is ever sent or stored, so the conditions
on snapshots hold by themselves. -/
theorem Cluster.Within.guarded (hp : Inherited p) (hin : cluster.Within p)
    {action : Action} (hserving : cluster.Serving (fun node operation =>
      node.CountsVoters operation ∧ node.ChangesInTurn operation ∧
        node.Admits p operation) action) : cluster.Guarded action := by
  have hguard : ∀ (id : NodeId) (operation : Operation) (node : Node),
      cluster.delivers id operation = true →
      node.CountsVoters operation ∧ node.ChangesInTurn operation ∧
        node.Admits p operation → node.Guarded operation := by
    rintro id operation node hdelivers ⟨hcounts, hchanges, -⟩
    refine ⟨hcounts, hchanges, ?_⟩
    rcases operation with _ | ⟨sender, message⟩ | _ | _ | _ | _ | _
    case receive =>
      cases message
      case installSnapshot request =>
        exact (hin.delivered hdelivers sender _ rfl).elim
      all_goals trivial
    all_goals trivial
  cases action with
  | perform id operation =>
      exact ⟨fun hdelivers node hnode => hguard id operation node hdelivers
        (hserving hdelivers node hnode), trivial⟩
  | interrupt id operation written =>
      refine ⟨fun hdelivers node hnode => hguard id operation node hdelivers
        (hserving hdelivers node hnode), ?_⟩
      intro hdelivers node hnode result hperform index term data config hlast
      obtain ⟨server, hserver, hserved⟩ := Option.bind_eq_some_iff.mp hnode
      obtain ⟨-, heffects⟩ := hin.perform hp hserver hserved hdelivers
        (hserving hdelivers node hnode).2.2 hperform
      exact heffects _ (List.mem_of_mem_take (List.mem_of_getLast? hlast))
  | crash id => exact ⟨trivial, trivial⟩
  | restart id electionTimeout heartbeatInterval => exact ⟨trivial, trivial⟩

/-- Where a run without compaction leads: the history grows, and what holds of
all proposed entries holds of all entries. -/
theorem confined_run (hp : Inherited p) {ok : Cluster → Action → Prop}
    (hok : ∀ c a, ok c a → (c.Within p ∧ ∃ h, Founded c h) →
      c.Serving (fun node operation => node.CountsVoters operation ∧
        node.ChangesInTurn operation ∧ node.Admits p operation) a)
    (hrel : Founded cluster h) (hin : cluster.Within p)
    (hrun : Run ok cluster cluster') :
    ∃ h', Founded cluster' h' ∧ h.Extends h' ∧
      cluster'.peers = cluster.peers ∧ cluster'.Within p := by
  induction hrun with
  | refl => exact ⟨h, hrel, .refl h, rfl, hin⟩
  | tail _ hlast ih =>
      obtain ⟨middle, hmiddle, hext, hpeers, hinMiddle⟩ := ih
      obtain ⟨action, haction, hstep⟩ := hlast
      have hserving := hok _ _ haction ⟨hinMiddle, middle, hmiddle⟩
      obtain ⟨last, hlastRel, hext', hpeers'⟩ :=
        hmiddle.step (hinMiddle.guarded hp hserving) hstep
      exact ⟨last, hlastRel, hext.trans hext', hpeers'.trans hpeers,
        hinMiddle.step hp (hserving.imp (fun _ _ h => h.2.2)) hstep⟩

/-! ### Changes of membership -/

/-- A run whose changes wait their turn and whose elections are won by voters
never shows two leaders of one term, not even at different times. -/
theorem election_safety {peers : List NodeId}
    {members : List (NodeId × Nat × Nat)} {start now later : Cluster}
    {i j : NodeId} {term : Nat}
    (hboot : Cluster.boot peers members = .ok start)
    (hrun : Run (fun c => c.Serving (fun node operation =>
      node.Requested operation ∧ node.CountsVoters operation ∧
        node.ChangesInTurn operation)) start now)
    (hrun' : Run (fun c => c.Serving (fun node operation =>
      node.Requested operation ∧ node.CountsVoters operation ∧
        node.ChangesInTurn operation)) now later)
    (hi : now.Leads i term) (hj : later.Leads j term) : i = j := by
  have hp : Inherited (fun _ => True) := fun _ _ _ _ _ => trivial
  have hok : ∀ (c : Cluster) (a : Action), c.Serving (fun node operation =>
      node.Requested operation ∧ node.CountsVoters operation ∧
        node.ChangesInTurn operation) a →
      (c.Within (fun _ => True) ∧ ∃ h, Founded c h) →
      c.Serving (fun node operation => node.CountsVoters operation ∧
        node.ChangesInTurn operation ∧
        node.Admits (fun _ => True) operation) a := by
    refine fun c a hserving _ => hserving.imp ?_
    rintro node operation ⟨hrequested, hcounts, hchanges⟩
    refine ⟨hcounts, hchanges, ?_⟩
    cases operation with
    | compact upToIndex data => exact hrequested
    | _ => trivial
  obtain ⟨h, hrel, -, -, hin⟩ :=
    confined_run hp hok (boot_rel hboot) (boot_within hboot) hrun
  obtain ⟨h', hrel', hext, -, -⟩ := confined_run hp hok hrel hin hrun'
  exact hrel'.sound.elected_unique (hext.elected (hrel.elected hi))
    (hrel'.elected hj)

/-- `candidate` campaigns in `term` with an empty log and is voted for by
`voters`. -/
def elects (candidate : NodeId) (term : Nat) (voters : List NodeId) :
    List Action :=
  .perform candidate (.tick 1) ::
    (voters.map (fun voter => .perform voter (.receive candidate
      (.requestVote ⟨term, candidate, 0, 0⟩))) ++
    voters.map (fun voter => .perform candidate (.receive voter
      (.requestVoteResponse ⟨term, true⟩))))

/-- The leader that opens a change stays the only one of its term. -/
theorem election_safety_through_a_change :
    ∃ start now later : Cluster, Cluster.boot [⟨1⟩, ⟨2⟩, ⟨3⟩]
        [(⟨1⟩, 1, 1), (⟨2⟩, 9, 1), (⟨3⟩, 9, 1)] = .ok start ∧
      now.Leads ⟨1⟩ 1 ∧ later.Leads ⟨1⟩ 1 ∧
      (∃ node ∈ later.node ⟨1⟩, node.log =
        [⟨1, .configuration ⟨[⟨1⟩, ⟨2⟩], some [⟨1⟩, ⟨2⟩, ⟨3⟩]⟩⟩]) ∧
      ∀ other, later.Leads other 1 → ⟨1⟩ = other := by
  obtain ⟨start, now, later, hboot, hrun, hrun', hnow, hlater, hopens⟩ :=
    Run.of_check (fun c => c.Serving (fun node operation =>
      node.Requested operation ∧ node.CountsVoters operation ∧
        node.ChangesInTurn operation)) [⟨1⟩, ⟨2⟩, ⟨3⟩]
      [(⟨1⟩, 1, 1), (⟨2⟩, 9, 1), (⟨3⟩, 9, 1)] (elects ⟨1⟩ 1 [⟨2⟩])
      [.perform ⟨1⟩ (.proposeConfigChange [⟨1⟩, ⟨2⟩])]
      (fun _ now later => now.Leads ⟨1⟩ 1 ∧ later.Leads ⟨1⟩ 1 ∧
        ∃ node ∈ later.node ⟨1⟩, node.log =
          [⟨1, .configuration ⟨[⟨1⟩, ⟨2⟩], some [⟨1⟩, ⟨2⟩, ⟨3⟩]⟩⟩])
      (by decide +kernel)
  exact ⟨start, now, later, hboot, hnow, hlater, hopens,
    fun other hother => election_safety hboot hrun hrun' hnow hother⟩

def fiveVoters : List NodeId := [⟨1⟩, ⟨2⟩, ⟨3⟩, ⟨4⟩, ⟨5⟩]

/-- The leader of term one accepts two changes to the single voter two before
the first is committed, and replicates both to it. -/
def stackedChanges : List Action :=
  [.perform ⟨1⟩ (.proposeConfigChange [⟨2⟩]),
    .perform ⟨1⟩ (.proposeConfigChange [⟨2⟩]),
    .perform ⟨1⟩ (.tick 1),
    .perform ⟨2⟩ (.receive ⟨1⟩ (.appendEntries ⟨1, ⟨1⟩, 0, 0,
      [⟨1, .configuration ⟨[⟨2⟩], some fiveVoters⟩⟩,
        ⟨1, .configuration ⟨[⟨2⟩], some [⟨2⟩]⟩⟩], 0⟩)),
    .perform ⟨2⟩ (.tick 1)]

/-- Nothing holds the second change back, so in term two voter two elects
itself while three of the five original voters elect another leader. -/
theorem stacked_changes_show_two_leaders :
    ∃ start now later : Cluster,
      Cluster.boot fiveVoters (fiveVoters.map (fun id => (id, 1, 1))) =
        .ok start ∧
      Run (fun c => c.Serving Node.Requested) start now ∧
      Run (fun c => c.Serving Node.Requested) now later ∧
      later.Leads ⟨2⟩ 2 ∧ later.Leads ⟨3⟩ 2 :=
  Run.of_check (fun c => c.Serving Node.Requested) fiveVoters
    (fiveVoters.map (fun id => (id, 1, 1))) (elects ⟨1⟩ 1 [⟨2⟩, ⟨3⟩])
    (stackedChanges ++ elects ⟨3⟩ 2 [⟨4⟩, ⟨5⟩])
    (fun _ _ later => later.Leads ⟨2⟩ 2 ∧ later.Leads ⟨3⟩ 2)
    (by decide +kernel)

end Kurogane.Sim
