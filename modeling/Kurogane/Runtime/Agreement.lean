import Kurogane.Runtime.Deployed

/-!
What the processes of a deployment have in common, in all runs in which the protocol's
own rules are kept. They have one leader per term, and all that is ever applied is a
beginning of one log, however often they compact it and send each other snapshots.
-/

namespace Kurogane.Runtime

open Kurogane.Raft Kurogane.Consensus
open Kurogane.Kv (Replica StateMachine)
open Kurogane.Sim (Envelope Server Cluster Fleet Ghost Growth Rules Standing)

namespace Deployment

variable {deployment later now : Deployment} {founders : List NodeId} {token : String}
  {actions : List Action} {rules : Rules}

/-! ### Runs -/

/-- Every action keeps to the rules in the state it is taken in. -/
def Along (rules : Rules) (deployment : Deployment) : List Action → Prop
  | [] => True
  | action :: rest => deployment.Meets rules action ∧
      ∀ next ∈ deployment.step action, next.Along rules rest

instance decidableAlong (rules : Rules) [∀ node, DecidablePred (rules.asks node)]
    [DecidablePred rules.leaves] :
    ∀ (actions : List Action) (deployment : Deployment), Decidable (deployment.Along rules actions)
  | [], _ => inferInstanceAs (Decidable True)
  | action :: rest, deployment =>
      have : ∀ next : Deployment, Decidable (next.Along rules rest) := decidableAlong rules rest
      inferInstanceAs (Decidable (deployment.Meets rules action ∧
        ∀ next ∈ deployment.step action, next.Along rules rest))

theorem run_cons {action : Action} {rest : List Action}
    (hrun : deployment.run (action :: rest) = some later) :
    ∃ next, deployment.step action = some next ∧ next.run rest = some later := by
  unfold Deployment.run at hrun
  rw [List.foldlM_cons] at hrun
  exact Option.bind_eq_some_iff.mp hrun

theorem furthest_cons {action : Action} {rest : List Action} {next : Deployment}
    (hstep : deployment.step action = some next) :
    deployment.furthest (action :: rest) =
      max (deployment.reaches action) (next.furthest rest) := by
  rw [furthest, hstep]
  rfl

/-- What the processes do is a run of the cluster of their nodes. -/
theorem Refines.run {fleet : Fleet} (h : deployment.Refines fleet)
    (hrun : deployment.run actions = some later) :
    ∃ fleet', (∃ reached ≤ deployment.furthest actions,
        Fleet.Run (fun c m => deployment.Along rules actions → c.Meets rules m) fleet reached
          fleet') ∧
      later.Refines fleet' := by
  induction actions generalizing deployment fleet with
  | nil =>
      cases hrun
      exact ⟨fleet, ⟨0, Nat.zero_le _, .refl⟩, h⟩
  | cons action rest ih =>
      obtain ⟨next, hstep, hrest⟩ := run_cons hrun
      obtain ⟨middle, ⟨first, hfirst, hmiddle⟩, hrefines⟩ := h.step hstep
      obtain ⟨fleet', ⟨second, hsecond, hlast⟩, hlater⟩ := ih hrefines hrest
      refine ⟨fleet', ⟨max first second, ?_, .trans (hmiddle.mono ?_) (hlast.mono ?_)⟩, hlater⟩
      · rw [furthest_cons hstep]
        exact max_le_max hfirst hsecond
      · exact fun c m hok hmeets => hok hmeets.1
      · exact fun c m hok hmeets => hok (hmeets.2 next hstep)

/-- The map is that of `log`, or ahead of it by no more than `seen`, and the entries that
were applied are those of `log`. -/
structure Follows (log : List LogEntry) (seen : Nat) (replica : Replica) : Prop where
  stands : replica.stateMachine.StandsFor log seen
  entries : ∀ index, replica.node.snapshot.lastIncludedIndex < index →
    index ≤ replica.lastApplied → replica.node.entryAt index = log[index - 1]?

theorem Follows.mono {log : List LogEntry} {seen last : Nat} {replica : Replica}
    (h : Follows log seen replica) (more : List LogEntry) (hle : seen ≤ last) :
    Follows (log ++ more) last replica where
  stands := (h.stands.append more).mono hle
  entries index hlow hhigh := by
    have hheld : replica.lastApplied ≤ log.length := h.stands.held
    rw [h.entries index hlow hhigh, List.getElem?_append_left (by omega)]

/-- `h` is the history of the processes of a cluster of these founders, and `log` has been
committed in it. -/
def Tracked (deployment : Deployment) (founders : List NodeId) (h : Ghost)
    (log : List LogEntry) (seen : Nat) : Prop :=
  ∃ fleet : Fleet, fleet.cluster.peers = founders ∧ deployment.Refines fleet ∧
    fleet.Tracks h log seen

/-- Nothing has been committed or applied yet. -/
theorem empty_tracked (founders : List NodeId) (token : String) :
    (empty token).Tracked founders (.empty NodeId LogEntry) [] 0 := by
  have hrefines := empty_refines founders token
  have hboot : Cluster.boot founders [] = .ok ⟨founders, ∅, []⟩ := rfl
  exact ⟨_, rfl, hrefines, hrefines.coherent, Sim.boot_grown hboot,
    Sim.boot_fit (Or.inl rfl) hboot, History.committed_nil _, nofun⟩

namespace Tracked

variable {h : Ghost} {log : List LogEntry} {seen : Nat}

theorem step {action : Action} {next : Deployment}
    (htracked : deployment.Tracked founders h log seen)
    (hguarded : deployment.Meets (.guarded founders) action)
    (hstep : deployment.step action = some next) :
    ∃ h' log', next.Tracked founders h' log' (max seen (deployment.reaches action)) ∧
      h.Extends h' ∧ log <+: log' := by
  obtain ⟨fleet, rfl, hrefines, htracks⟩ := htracked
  obtain ⟨fleet', ⟨reached, hle, hrun⟩, hnext⟩ := hrefines.step hstep
  obtain ⟨hpeers, hrun⟩ := hrun.founders
  have horderly : ∀ (c : Cluster) (m : Sim.Move), (c.peers = fleet.cluster.peers ∧
      (deployment.Meets (.guarded fleet.cluster.peers) action →
        c.Meets (.guarded fleet.cluster.peers) m)) → c.Orderly m := by
    rintro c m ⟨hsame, hok⟩
    rw [← hsame] at hok hguarded
    exact (hok hguarded).orderly
  obtain ⟨h', log', htracks', hext, hinit⟩ := htracks.run horderly hrun
  exact ⟨h', log', ⟨fleet', hpeers, hnext, htracks'.mono (max_le_max_left seen hle)⟩, hext,
    hinit⟩

theorem sound (htracked : deployment.Tracked founders h log seen) :
    h.Sound (Sim.membership ⟨founders, none⟩) := by
  obtain ⟨fleet, rfl, -, htracks⟩ := htracked
  exact htracks.grown.sound

/-- What the log says of a process that runs. -/
theorem actor (htracked : deployment.Tracked founders h log seen) {id : NodeId} {actor : Actor}
    (hactor : deployment.actor id = some actor) :
    actor.replica.node.id = id ∧ Sim.NodeRel ⟨founders, none⟩ h actor.replica.node ∧
      Standing h log seen id actor.replica := by
  obtain ⟨fleet, rfl, hrefines, htracks⟩ := htracked
  have hholds := hrefines.holds hactor
  obtain ⟨hid, hrel⟩ := htracks.grown.of_node hholds.node
  exact ⟨hid, hrel, htracks.standing id actor.replica hholds.replica⟩

theorem follows (htracked : deployment.Tracked founders h log seen) {id : NodeId} {actor : Actor}
    (hactor : deployment.actor id = some actor) : Follows log seen actor.replica := by
  obtain ⟨rfl, hrel, hstanding⟩ := htracked.actor hactor
  obtain ⟨fleet, -, -, htracks⟩ := htracked
  refine ⟨hstanding.stands, fun index hlow hhigh => ?_⟩
  obtain ⟨whole, -, ⟨more, hmore⟩, ⟨rest, hrest⟩⟩ :=
    htracks.grown.sound.committed_join htracks.committed ⟨_, _, hstanding.covered⟩
  have hheld := hstanding.held
  have hlog : actor.replica.lastApplied ≤ log.length := hstanding.stands.held
  rw [hrel.entryAt hlow]
  calc (h.log actor.replica.node.id)[index - 1]?
      = ((h.log actor.replica.node.id).take actor.replica.lastApplied)[index - 1]? := by
        rw [List.getElem?_take, if_pos (by omega)]
    _ = whole[index - 1]? := by
        rw [← hrest, List.getElem?_append_left (by rw [List.length_take]; omega)]
    _ = log[index - 1]? := by
        rw [← hmore, List.getElem?_append_left (by omega)]

/-- What is committed at the end of a run is what was followed all along. -/
theorem run (htracked : deployment.Tracked founders h log seen)
    (hguarded : deployment.Along (.guarded founders) actions)
    (hrun : deployment.run actions = some later) :
    ∃ h' log', later.Tracked founders h' log' (max seen (deployment.furthest actions)) ∧
      h.Extends h' ∧ log <+: log' ∧ ∀ before, before <+: actions →
        ∃ now, deployment.run before = some now ∧ ∀ (id : NodeId) (actor : Actor),
          now.actor id = some actor →
            Follows log' (max seen (deployment.furthest before)) actor.replica := by
  induction actions generalizing deployment h log seen with
  | nil =>
      obtain rfl : deployment = later := Option.some_inj.mp hrun
      have hsame : max seen (deployment.furthest []) = seen := Nat.max_zero seen
      refine ⟨h, log, ?_, .refl h, List.prefix_rfl, fun before hbefore => ?_⟩
      · rw [hsame]
        exact htracked
      · rw [List.prefix_nil.mp hbefore, hsame]
        exact ⟨_, rfl, fun id actor => htracked.follows⟩
  | cons action rest ih =>
      obtain ⟨next, hstep, hrest⟩ := run_cons hrun
      obtain ⟨hfirst, hlast⟩ := hguarded
      obtain ⟨middle, first, hnext, hext, hinit⟩ := htracked.step hfirst hstep
      obtain ⟨h', log', hlater, hext', hinit', hall⟩ := ih hnext (hlast next hstep) hrest
      have hinit := hinit.trans hinit'
      refine ⟨h', log', ?_, hext.trans hext', hinit, fun before hbefore => ?_⟩
      · rw [furthest_cons hstep, ← Nat.max_assoc]
        exact hlater
      rcases List.prefix_cons_iff.mp hbefore with rfl | ⟨others, rfl, hothers⟩
      · obtain ⟨more, rfl⟩ := hinit
        exact ⟨deployment, rfl, fun id actor hactor =>
          (htracked.follows hactor).mono more (Nat.le_max_left _ _)⟩
      · obtain ⟨now, hnow, hfollow⟩ := hall others hothers
        refine ⟨now, ?_, fun id actor hactor => ?_⟩
        · unfold Deployment.run
          rw [List.foldlM_cons, hstep]
          exact hnow
        · rw [furthest_cons hstep, ← Nat.max_assoc]
          exact hfollow id actor hactor

variable {h' : Ghost} {log' : List LogEntry} {seen' : Nat} {id other : NodeId}
  {actor leader : Actor}

/-- What a process has applied is in the log of every leader of its term or a later one. -/
theorem kept_by_leader (hnow : now.Tracked founders h log seen)
    (hthen : later.Tracked founders h' log' seen')
    (hext : h.Extends h') (hactor : now.actor id = some actor)
    (hleader : later.actor other = some leader) (hrole : leader.replica.node.role = .leader)
    (hterm : actor.replica.node.currentTerm ≤ leader.replica.node.currentTerm) :
    (h.log id).take actor.replica.lastApplied <+: h'.log other := by
  obtain ⟨rfl, hrel, hstanding⟩ := hnow.actor hactor
  obtain ⟨rfl, hrel', -⟩ := hthen.actor hleader
  obtain ⟨helected, hlog, -⟩ := hrel'.leader hrole
  have hcovered := hext.covered hstanding.covered le_rfl hext.clock
  rw [hrel.term] at hcovered
  rw [hlog]
  exact hthen.sound.covered_in_leader hcovered hterm helected

end Tracked

/-! ### All runs -/

/-- Two writes that reach the second process from the first, which then compacts its log and
takes in a learner. The third process joins: it is sent a snapshot and, having crashed and
come back, what the log has left. -/
def shippedSnapshot : List Action :=
  let token := some "token"
  let write (value : Bytes) : Proto.LogEntry :=
    ⟨1, some (.command (Kv.Command.set [1] value).encode)⟩
  [.start ⟨1⟩ ⟨[⟨1⟩, ⟨2⟩], 1, 1, 2, false⟩,
    .start ⟨2⟩ ⟨[⟨1⟩, ⟨2⟩], 3, 1, 9, false⟩,
    .serve (.own ⟨1⟩ (.tick 3)),
    .serve (.called ⟨⟨1⟩, ⟨2⟩, token, .requestVote ⟨1, 1, 0, 0⟩⟩),
    .serve (.answered ⟨⟨1⟩, ⟨2⟩, .requestVote ⟨1, true⟩⟩),
    .serve (.own ⟨1⟩ (.propose (.set [1] [2]))),
    .serve (.own ⟨1⟩ (.propose (.set [1] [3]))),
    .serve (.called ⟨⟨1⟩, ⟨2⟩, token, .appendEntries ⟨1, 1, 0, 0, [], 0⟩⟩),
    .serve (.answered ⟨⟨1⟩, ⟨2⟩, .appendEntries ⟨1, true, 0⟩⟩),
    .serve (.called ⟨⟨1⟩, ⟨2⟩, token, .appendEntries ⟨1, 1, 0, 0, [write [2], write [3]], 0⟩⟩),
    .serve (.answered ⟨⟨1⟩, ⟨2⟩, .appendEntries ⟨1, true, 2⟩⟩),
    .serve (.own ⟨1⟩ (.addLearner ⟨3⟩ true)),
    .start ⟨3⟩ ⟨[⟨1⟩, ⟨2⟩, ⟨3⟩], 3, 1, 9, true⟩,
    .serve (.own ⟨1⟩ (.tick 3)),
    .serve (.called ⟨⟨1⟩, ⟨3⟩, token, .appendEntries ⟨1, 1, 2, 1, [], 2⟩⟩),
    .serve (.answered ⟨⟨1⟩, ⟨3⟩, .appendEntries ⟨1, false, 0⟩⟩),
    .serve (.called ⟨⟨1⟩, ⟨3⟩, token, .appendEntries ⟨1, 1, 1, 1, [write [3]], 2⟩⟩),
    .serve (.answered ⟨⟨1⟩, ⟨3⟩, .appendEntries ⟨1, false, 0⟩⟩),
    .serve (.called ⟨⟨1⟩, ⟨3⟩, token, .installSnapshot
      ⟨1, 1, 1, 1, [0, 0, 0, 1, 1, 0, 0, 0, 1, 3], some ⟨[1, 2], []⟩⟩⟩),
    .crash ⟨3⟩,
    .start ⟨3⟩ ⟨[⟨1⟩, ⟨2⟩, ⟨3⟩], 3, 1, 9, true⟩,
    .serve (.answered ⟨⟨1⟩, ⟨3⟩, .installSnapshot ⟨1, 1⟩⟩),
    .serve (.called ⟨⟨1⟩, ⟨3⟩, token, .appendEntries ⟨1, 1, 1, 1, [write [3]], 2⟩⟩)]

/-- The third process catches up with the leader, and both have the second write only in
their logs. -/
theorem shippedSnapshot_played : ∃ later first third,
    (empty "token").run shippedSnapshot = some later ∧ later.actor ⟨1⟩ = some first ∧
    later.actor ⟨3⟩ = some third ∧
    (empty "token").Along (.guarded [⟨1⟩, ⟨2⟩]) shippedSnapshot ∧
    (empty "token").furthest shippedSnapshot = 2 ∧ first.replica.node.role = .leader ∧
    third.replica.node.currentTerm = first.replica.node.currentTerm ∧
    third.replica.lastApplied = 2 ∧ first.replica.node.snapshot.lastIncludedIndex = 1 ∧
    third.replica.node.snapshot.lastIncludedIndex = 1 := by
  have hplayed : (((empty "token").run shippedSnapshot).bind (fun later =>
      (later.actor ⟨1⟩).bind (fun first => (later.actor ⟨3⟩).map (fun third =>
        (later, first, third))))).any
      (fun (_, first, third) => decide (
        (empty "token").Along (.guarded [⟨1⟩, ⟨2⟩]) shippedSnapshot ∧
        (empty "token").furthest shippedSnapshot = 2 ∧ first.replica.node.role = .leader ∧
        third.replica.node.currentTerm = first.replica.node.currentTerm ∧
        third.replica.lastApplied = 2 ∧ first.replica.node.snapshot.lastIncludedIndex = 1 ∧
        third.replica.node.snapshot.lastIncludedIndex = 1)) = true := by
    decide +kernel
  obtain ⟨⟨later, first, third⟩, hfound, hlike⟩ := exists_of_any hplayed
  simp only [Option.bind_eq_some_iff, Option.map_eq_some_iff, Prod.mk.injEq] at hfound
  obtain ⟨_, hrun, _, hfirst, _, hthird, rfl, rfl, rfl⟩ := hfound
  exact ⟨_, _, _, hrun, hfirst, hthird, hlike⟩

end Deployment

end Kurogane.Runtime
