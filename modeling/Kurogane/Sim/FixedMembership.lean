import Kurogane.Sim.ElectionSafety

/-!
Runs without compaction in which nobody changes the membership. The
configuration in force is then the initial one everywhere, the votes a
candidate collects are votes of its members, and the protocol's guarantees
hold without any condition: one leader per term, logs that match, and
committed entries that are never lost or contradicted.
-/

namespace Kurogane.Sim

open Kurogane.Raft Kurogane.Runtime Kurogane.Consensus

def IsCommand (entry : LogEntry) : Prop :=
  entryConfig entry = none

theorem isCommand_inherited : Inherited IsCommand := by
  intro term term' config hentry
  cases hentry

variable {cluster cluster' : Cluster} {h h' : Ghost} {node : Node}
  {id : NodeId}

/-! ### The configuration in force -/

theorem NodeRel.log_of_boundary {initial : ClusterConfig}
    (hrel : NodeRel initial h node)
    (hboundary : node.snapshot.lastIncludedIndex = 0) :
    node.log = h.log node.id := by
  rw [hrel.log, hboundary, List.drop_zero]

theorem NodeRel.currentConfig_of_commands {initial : ClusterConfig}
    (hrel : NodeRel initial h node) (hstart : node.KnowsStart initial)
    (hin : node.Within IsCommand) : node.currentConfig = initial := by
  rw [hrel.currentConfig (Or.inl hstart), ← hrel.log_of_boundary hin.boundary]
  refine (membership initial).latest_of_configs_nil initial node.log ?_
  exact List.filterMap_eq_nil_iff.mpr hin.entries

/-- Distinct votes of the members that are as many as a majority are one. -/
theorem votersCounted_of_members {peers : List NodeId}
    (hconfig : node.currentConfig = ⟨peers, none⟩) {votes : NodeSet}
    (hvotes : ∀ u ∈ votes, u ∈ peers) : node.VotersCounted votes := by
  intro hsize _
  rw [Node.quorumSize, hconfig] at hsize
  rw [hconfig]
  have hnodup : votes.toList.Nodup := by
    refine votes.distinct_toList.imp ?_
    rintro u v hne rfl
    exact hne Std.ReflCmp.compare_self
  have hle : votes.toList.length ≤
      peers.countP (fun u => decide (u ∈ votes.toList)) :=
    length_le_countP_of_subset hnodup (fun u hu => hvotes u (by simpa using hu))
  have hcount : peers.countP (fun u => decide (u ∈ votes.toList)) =
      (peers.filter votes.contains).length := by
    rw [← List.countP_eq_length_filter]
    exact List.countP_congr (fun u _ => by simp)
  rw [Std.ExtTreeSet.length_toList, hcount] at hle
  have hsize : peers.length / 2 + 1 ≤ votes.size := hsize
  exact decide_eq_true (hsize.trans hle)

/-- Every vote a node of the cluster may count is a vote of a member. -/
theorem countsVoters_of_steady (hrel : Founded cluster h)
    (hin : cluster.Within IsCommand) (hnode : cluster.node id = some node)
    {operation : Operation}
    (hdelivers : cluster.delivers id operation = true) :
    node.CountsVoters operation := by
  obtain ⟨rfl, hnodeRel⟩ := hrel.of_node hnode
  obtain ⟨server, hserver, hserved⟩ := Option.bind_eq_some_iff.mp hnode
  have hconfig := hnodeRel.currentConfig_of_commands
    (hrel.starts node.id node hnode) (hin.nodes node.id server hserver node hserved)
  cases operation with
  | tick nextTimeout =>
      intro _ _ _
      refine votersCounted_of_members hconfig (fun u hu => ?_)
      rcases Std.ExtTreeSet.mem_insert.mp hu with heq | hnone
      · rw [← Std.LawfulEqCmp.eq_of_compare heq]
        exact hrel.members node.id server hserver
      · simp at hnone
  | receive sender message =>
      cases message with
      | requestVoteResponse response =>
          intro _ hgranted _ hrole
          obtain ⟨-, -, hvotes⟩ := hnodeRel.candidate hrole
          refine votersCounted_of_members hconfig (fun u hu => ?_)
          rcases Std.ExtTreeSet.mem_insert.mp hu with heq | hu
          · obtain ⟨a, ha, hvoter, -⟩ :=
              hrel.delivered hdelivers sender _ rfl hgranted
            rw [← Std.LawfulEqCmp.eq_of_compare heq, ← hvoter]
            exact hrel.voters a ha
          · obtain ⟨a, ha, rfl, -⟩ := hvotes u hu
            exact hrel.voters a ha
      | _ => trivial
  | _ => trivial

theorem serving_of_steady (hrel : Founded cluster h)
    (hin : cluster.Within IsCommand) {action : Action}
    (hsteady : cluster.Serving Node.Steady action) :
    cluster.Serving (fun node operation => node.CountsVoters operation ∧
      node.ChangesInTurn operation ∧ node.Admits IsCommand operation) action := by
  have hserves : ∀ (id : NodeId) (operation : Operation) (node : Node),
      cluster.delivers id operation = true → cluster.node id = some node →
      node.Steady operation → node.CountsVoters operation ∧
        node.ChangesInTurn operation ∧ node.Admits IsCommand operation := by
    intro id operation node hdelivers hnode hsteady
    refine ⟨countsVoters_of_steady hrel hin hnode hdelivers, ?_⟩
    cases operation with
    | tick nextTimeout => exact ⟨trivial, trivial⟩
    | receive sender message => exact ⟨trivial, trivial⟩
    | propose command => exact ⟨trivial, rfl⟩
    | _ => exact hsteady.elim
  cases action with
  | perform id operation =>
      exact fun hdelivers node hnode => hserves id operation node hdelivers
        hnode (hsteady hdelivers node hnode)
  | interrupt id operation written =>
      exact fun hdelivers node hnode => hserves id operation node hdelivers
        hnode (hsteady hdelivers node hnode)
  | crash id => trivial
  | restart id electionTimeout heartbeatInterval => trivial

theorem steady_run (hrel : Founded cluster h)
    (hin : cluster.Within IsCommand)
    (hrun : Run (fun c => c.Serving Node.Steady) cluster cluster') :
    ∃ h', Founded cluster' h' ∧ h.Extends h' ∧
      cluster'.peers = cluster.peers ∧ cluster'.Within IsCommand := by
  refine confined_run isCommand_inherited ?_ hrel hin hrun
  rintro c action hsteady ⟨hin, h, hrel⟩
  exact serving_of_steady hrel hin hsteady

/-- One step of such a run; no log loses what is covered. -/
theorem steady_step (hrel : Founded cluster h)
    (hin : cluster.Within IsCommand) {action : Action}
    (hsteady : cluster.Serving Node.Steady action)
    (hstep : cluster.step action = some cluster') :
    ∃ h', Founded cluster' h' ∧ cluster'.Within IsCommand ∧ h.Extends h' ∧
      h.Keeps h' ∧ cluster'.peers = cluster.peers := by
  have hserving := serving_of_steady hrel hin hsteady
  obtain ⟨h', id, hrel', hsteps, hpeers⟩ :=
    hrel.step_by (hin.guarded isCommand_inherited hserving) hstep
  exact ⟨h', hrel', hin.step isCommand_inherited
    (hserving.imp (fun _ _ h => h.2.2)) hstep, hsteps.extends,
    hsteps.keeps hrel.sound, hpeers⟩

/-! ### Reading nodes through the history -/

theorem Cluster.Within.boundary {p : LogEntry → Prop}
    (hin : cluster.Within p) (hnode : cluster.node id = some node) :
    node.snapshot.lastIncludedIndex = 0 := by
  obtain ⟨server, hserver, hserved⟩ := Option.bind_eq_some_iff.mp hnode
  exact (hin.nodes id server hserver node hserved).boundary

/-- A node whose log begins at index one reads the whole log of the history. -/
theorem NodeRel.entryAt_whole {initial : ClusterConfig}
    (hrel : NodeRel initial h node)
    (hboundary : node.snapshot.lastIncludedIndex = 0) {index : Nat}
    (hpos : 0 < index) : node.entryAt index = (h.log node.id)[index - 1]? :=
  hrel.entryAt (by omega)

theorem entryAt_pos {index : Nat} {entry : LogEntry}
    (hentry : node.entryAt index = some entry) : 0 < index := by
  unfold Node.entryAt at hentry
  split at hentry
  · cases hentry
  · omega

theorem getElem?_of_take_prefix {first second : List LogEntry} {count k : Nat}
    (hinit : first.take count <+: second) (hk : k < count)
    {entry : LogEntry} (hentry : first[k]? = some entry) :
    second[k]? = some entry := by
  obtain ⟨rest, rfl⟩ := hinit
  have hlt : k < first.length := (List.getElem?_eq_some_iff.mp hentry).1
  have hinside : k < (first.take count).length := by
    rw [List.length_take]
    omega
  rw [List.getElem?_append_left hinside, List.getElem?_take, if_pos hk, hentry]

/-- Two logs of the run that hold entries of one term at one position agree
up to there. -/
theorem backed_logs_match {initial : ClusterConfig}
    (s : h.Sound (membership initial)) {first second : List LogEntry}
    (hfirst : h.Backed (membership initial) first)
    (hsecond : h.Backed (membership initial) second) {k : Nat}
    {entry entry' : LogEntry} (hentry : first[k]? = some entry)
    (hentry' : second[k]? = some entry') (hterm : entry.term = entry'.term) :
    first.take (k + 1) = second.take (k + 1) := by
  have hlt := (List.getElem?_eq_some_iff.mp hentry).1
  have hlt' := (List.getElem?_eq_some_iff.mp hentry').1
  refine s.backed_unique (s.backed_prefix hfirst (List.take_prefix _ _)).1
    (s.backed_prefix hsecond (List.take_prefix _ _)).1 ?_ ?_
  · rw [List.length_take, List.length_take]
    omega
  · rw [lastTerm_take_succ initial first hentry,
      lastTerm_take_succ initial second hentry', hterm]

/-- A prefix that is covered and one that is too agree where both are
defined. -/
theorem covered_logs_agree {initial : ClusterConfig}
    (s : h.Sound (membership initial)) {first second : List LogEntry}
    {count count' t t' time time' k : Nat}
    (hfirst : h.Covered t time (first.take count))
    (hsecond : h.Covered t' time' (second.take count')) (hk : k < count)
    (hk' : k < count') (hlength : count' ≤ second.length)
    {entry : LogEntry} (hentry : first[k]? = some entry) :
    second[k]? = some entry := by
  have hlt := (List.getElem?_eq_some_iff.mp hentry).1
  have hleft : (first.take count)[k]? = some entry := by
    rw [List.getElem?_take, if_pos hk, hentry]
  have hright : (second.take count')[k]? = second[k]? := by
    rw [List.getElem?_take, if_pos hk']
  have hinside : k < (first.take count).length ∧
      k < (second.take count').length := by
    rw [List.length_take, List.length_take]
    omega
  rcases s.covered_comparable hfirst hsecond with ⟨rest, hrest⟩ | ⟨rest, hrest⟩
  · rw [← hright, ← hrest, List.getElem?_append_left hinside.1, hleft]
  · rw [← hright, ← hleft, ← hrest, List.getElem?_append_left hinside.2]

/-- What a node has committed, as the run knows it. -/
theorem Founded.committed (hrel : Founded cluster h)
    (hnode : cluster.node id = some node) : h.Covered node.currentTerm h.clock
      ((h.log node.id).take node.commitIndex) :=
  (hrel.of_node hnode).2.committed_covered hrel.sound

/-! ### The guarantees -/

/-- With a fixed membership there is one leader per term, and two logs that
agree on the term of an entry agree on everything up to it, in whatever states
of the run the nodes are looked at. -/
theorem election_safety_and_log_matching {peers : List NodeId}
    {members : List (NodeId × Nat × Nat)} {start now later : Cluster}
    (hboot : Cluster.boot peers members = .ok start)
    (hrun : Run (fun c => c.Serving Node.Steady) start now)
    (hrun' : Run (fun c => c.Serving Node.Steady) now later) :
    (∀ i j term, now.Leads i term → later.Leads j term → i = j) ∧
      ∀ i j n m, now.node i = some n → later.node j = some m →
        ∀ index e e', n.entryAt index = some e → m.entryAt index = some e' →
          e.term = e'.term → ∀ k, 1 ≤ k → k ≤ index →
            ∃ x, n.entryAt k = some x ∧ m.entryAt k = some x := by
  obtain ⟨h, hrel, -, hpeers, hin⟩ :=
    steady_run (boot_rel hboot) (boot_within hboot) hrun
  obtain ⟨h', hrel', hext, hpeers', hin'⟩ := steady_run hrel hin hrun'
  constructor
  · intro i j term hi hj
    exact hrel'.sound.elected_unique (hext.elected (hrel.elected hi))
      (hrel'.elected hj)
  · intro i j n m hn hm index e e' he he' hterm k hpos hk
    obtain ⟨-, hnRel⟩ := hrel.of_node hn
    obtain ⟨-, hmRel⟩ := hrel'.of_node hm
    have hindex := entryAt_pos he
    have hread : ∀ index, 0 < index →
        n.entryAt index = (h.log n.id)[index - 1]? :=
      fun _ hpos => hnRel.entryAt_whole (hin.boundary hn) hpos
    have hread' : ∀ index, 0 < index →
        m.entryAt index = (h'.log m.id)[index - 1]? :=
      fun _ hpos => hmRel.entryAt_whole (hin'.boundary hm) hpos
    rw [hread index hindex] at he
    rw [hread' index hindex] at he'
    rw [← hpeers'] at hnRel
    have hbacked : h'.Backed (membership ⟨later.peers, none⟩) (h.log n.id) :=
      hpeers' ▸ hext.backed (hrel.sound.node_backed n.id)
    have hsame := backed_logs_match hrel'.sound hbacked
      (hrel'.sound.node_backed m.id) he he' hterm
    have hlt := (List.getElem?_eq_some_iff.mp he).1
    refine ⟨(h.log n.id)[k - 1], ?_, ?_⟩
    · rw [hread k hpos, List.getElem?_eq_getElem]
    · rw [hread' k hpos]
      have hsub : (h.log n.id).take (index - 1 + 1) <+: h'.log m.id := by
        rw [hsame]
        exact List.take_prefix _ _
      exact getElem?_of_take_prefix hsub (by omega)
        (List.getElem?_eq_getElem (by omega))

/-- The leader of term one replicates a command to node two and commits it. -/
def replicatesOne : List Action :=
  elects ⟨1⟩ 1 [⟨2⟩] ++
    [.perform ⟨1⟩ (.propose [7]),
      .perform ⟨1⟩ (.tick 1),
      .perform ⟨2⟩ (.receive ⟨1⟩ (.appendEntries
        ⟨1, ⟨1⟩, 0, 0, [⟨1, .command [7]⟩], 0⟩)),
      .perform ⟨1⟩ (.receive ⟨2⟩ (.appendEntriesResponse ⟨1, true, 1⟩))]

/-- Node two hears of the commit, and once the leader has crashed it is
elected in term two. -/
def succeedsOne : List Action :=
  [.perform ⟨1⟩ (.tick 1),
    .perform ⟨2⟩ (.receive ⟨1⟩ (.appendEntries ⟨1, ⟨1⟩, 1, 1, [], 1⟩)),
    .crash ⟨1⟩,
    .perform ⟨2⟩ (.tick 1),
    .perform ⟨3⟩ (.receive ⟨2⟩ (.requestVote ⟨2, ⟨2⟩, 1, 1⟩)),
    .perform ⟨2⟩ (.receive ⟨3⟩ (.requestVoteResponse ⟨2, true⟩))]

/-- Both logs hold the command of term one, and node two led term two at the
end and nobody else did. -/
theorem election_safety_and_log_matching_after_a_crash :
    ∃ (now later : Cluster) (n m : Node),
      now.node ⟨1⟩ = some n ∧ later.node ⟨2⟩ = some m ∧
        later.Leads ⟨2⟩ 2 ∧ (∀ i, now.Leads i 2 → i = ⟨2⟩) ∧
        ∃ x, n.entryAt 1 = some x ∧ m.entryAt 1 = some x := by
  obtain ⟨start, now, later, hboot, hrun, hrun', ⟨n, hn, he⟩, hleads,
      m, hm, he'⟩ :=
    Run.of_check (fun c => c.Serving Node.Steady) [⟨1⟩, ⟨2⟩, ⟨3⟩]
      [(⟨1⟩, 1, 1), (⟨2⟩, 1, 1), (⟨3⟩, 1, 1)] replicatesOne succeedsOne
      (fun _ now later =>
        (∃ n ∈ now.node ⟨1⟩, n.entryAt 1 = some ⟨1, .command [7]⟩) ∧
          later.Leads ⟨2⟩ 2 ∧
          ∃ m ∈ later.node ⟨2⟩, m.entryAt 1 = some ⟨1, .command [7]⟩)
      (by decide +kernel)
  obtain ⟨hunique, hmatch⟩ := election_safety_and_log_matching hboot hrun hrun'
  exact ⟨now, later, n, m, hn, hm, hleads,
    fun i hi => hunique i ⟨2⟩ 2 hi hleads,
    hmatch ⟨1⟩ ⟨2⟩ n m hn hm 1 _ _ he he' rfl 1 le_rfl le_rfl⟩

/-- A committed entry stays: every node that has committed that far, now or
later, holds it, and so does every leader of a later term, at whatever time of
the run it leads. The term compared with is the one of any node that has the
entry committed; the leader that committed it first is one of them. -/
theorem committed_entries_stay {peers : List NodeId}
    {members : List (NodeId × Nat × Nat)} {start now later : Cluster}
    {i : NodeId} {n : Node} {index : Nat} {e : LogEntry}
    (hboot : Cluster.boot peers members = .ok start)
    (hrun : Run (fun c => c.Serving Node.Steady) start now)
    (hrun' : Run (fun c => c.Serving Node.Steady) now later)
    (hn : now.node i = some n) (hcommit : index ≤ n.commitIndex)
    (he : n.entryAt index = some e) :
    (∀ j m, later.node j = some m → index ≤ m.commitIndex →
      m.entryAt index = some e) ∧
    (∀ j m other,
      (Run (fun c => c.Serving Node.Steady) start other ∧
          Run (fun c => c.Serving Node.Steady) other now) ∨
        Run (fun c => c.Serving Node.Steady) now other →
      other.node j = some m → m.role = .leader →
      n.currentTerm < m.currentTerm → m.entryAt index = some e) := by
  have hpos := entryAt_pos he
  have hread : ∀ {c : Cluster} {h : Ghost} {j : NodeId} {m : Node},
      Founded c h → c.Within IsCommand → c.node j = some m →
      m.entryAt index = (h.log m.id)[index - 1]? := by
    intro c h j m hrel hin hm
    exact (hrel.of_node hm).2.entryAt_whole (hin.boundary hm) hpos
  constructor
  · intro j m hm hcommit'
    obtain ⟨h, hrel, -, -, hin⟩ :=
      steady_run (boot_rel hboot) (boot_within hboot) hrun
    obtain ⟨h', hrel', hext, -, hin'⟩ := steady_run hrel hin hrun'
    rw [hread hrel hin hn] at he
    rw [hread hrel' hin' hm]
    exact covered_logs_agree hrel'.sound
      (hext.covered (hrel.committed hn) le_rfl hext.clock)
      (hrel'.committed hm) (by omega) (by omega)
      ((hrel'.of_node hm).2.commit_le_length hrel'.sound) he
  · intro j m other hother hm hrole hlt
    rcases hother with ⟨hbefore, hbefore'⟩ | hafter
    · obtain ⟨h, hrel, -, -, hin⟩ :=
        steady_run (boot_rel hboot) (boot_within hboot) hbefore
      obtain ⟨h', hrel', hext, hpeers, hin'⟩ := steady_run hrel hin hbefore'
      rw [hread hrel' hin' hn] at he
      rw [hread hrel hin hm]
      obtain ⟨helected, hlog, -, -⟩ := (hrel.of_node hm).2.leader hrole
      rw [hlog]
      exact getElem?_of_take_prefix (History.covered_in_past_leader hrel.sound
        (hpeers ▸ hrel'.sound) hext (hrel'.committed hn) hlt helected)
        (by omega) he
    · obtain ⟨h, hrel, -, -, hin⟩ :=
        steady_run (boot_rel hboot) (boot_within hboot) hrun
      obtain ⟨h', hrel', hext, -, hin'⟩ := steady_run hrel hin hafter
      rw [hread hrel hin hn] at he
      rw [hread hrel' hin' hm]
      obtain ⟨helected, hlog, -, -⟩ := (hrel'.of_node hm).2.leader hrole
      rw [hlog]
      exact getElem?_of_take_prefix (hrel'.sound.covered_in_leader
        (hext.covered (hrel.committed hn) le_rfl hext.clock) hlt.le helected)
        (by omega) he

/-- The leader of term two brings node three up to date. -/
def replicatesFurther : List Action :=
  [.perform ⟨2⟩ (.tick 1),
    .perform ⟨3⟩ (.receive ⟨2⟩ (.appendEntries ⟨2, ⟨2⟩, 1, 1, [], 1⟩)),
    .perform ⟨2⟩ (.receive ⟨3⟩ (.appendEntriesResponse ⟨2, false, 0⟩)),
    .perform ⟨3⟩ (.receive ⟨2⟩ (.appendEntries
      ⟨2, ⟨2⟩, 0, 0, [⟨1, .command [7]⟩], 1⟩))]

/-- Two nodes hold what node one committed: the leader of a later term, and the
one that has committed it since. -/
theorem committed_entries_stay_after_a_crash :
    ∃ (start now later : Cluster) (n m r : Node),
      Cluster.boot [⟨1⟩, ⟨2⟩, ⟨3⟩] [(⟨1⟩, 1, 1), (⟨2⟩, 1, 1), (⟨3⟩, 1, 1)] =
        .ok start ∧
      Run (fun c => c.Serving Node.Steady) start now ∧
      Run (fun c => c.Serving Node.Steady) now later ∧
      now.node ⟨1⟩ = some n ∧ 1 ≤ n.commitIndex ∧
      later.node ⟨2⟩ = some m ∧ m.role = .leader ∧ n.currentTerm < m.currentTerm ∧
      later.node ⟨3⟩ = some r ∧ 1 ≤ r.commitIndex ∧
      m.entryAt 1 = some ⟨1, .command [7]⟩ ∧
      r.entryAt 1 = some ⟨1, .command [7]⟩ := by
  obtain ⟨start, now, later, hboot, hrun, hrun', ⟨n, hn, hcommit, hterm, he⟩,
      ⟨m, hm, hrole, hterm'⟩, r, hr, hcommit'⟩ :=
    Run.of_check (fun c => c.Serving Node.Steady) [⟨1⟩, ⟨2⟩, ⟨3⟩]
      [(⟨1⟩, 1, 1), (⟨2⟩, 1, 1), (⟨3⟩, 1, 1)] replicatesOne
      (succeedsOne ++ replicatesFurther)
      (fun _ now later =>
        (∃ n ∈ now.node ⟨1⟩, 1 ≤ n.commitIndex ∧ n.currentTerm = 1 ∧
          n.entryAt 1 = some ⟨1, .command [7]⟩) ∧
        (∃ m ∈ later.node ⟨2⟩, m.role = .leader ∧ m.currentTerm = 2) ∧
          ∃ r ∈ later.node ⟨3⟩, 1 ≤ r.commitIndex)
      (by decide +kernel)
  obtain ⟨hcommitted, hleader⟩ :=
    committed_entries_stay hboot hrun hrun' hn hcommit he
  have hlt : n.currentTerm < m.currentTerm := by omega
  exact ⟨start, now, later, n, m, r, hboot, hrun, hrun', hn, hcommit, hm, hrole, hlt,
    hr, hcommit', hleader ⟨2⟩ m later (Or.inr hrun') hm hrole hlt,
    hcommitted ⟨3⟩ r hr hcommit'⟩

end Kurogane.Sim
