import Kurogane.Raft.Appends
import Kurogane.Sim.ElectionSafety
import Kurogane.Sim.Growth

/-!
Configuration entries in the logs of a run. A leader only ever appends to its
own log, and a joint configuration only where `propose_config_change` asks for
one; nothing in that function waits for an earlier change to be over. Where
every change does wait, the configuration entries of every log, a joining
node's included, alternate.
-/

namespace Kurogane.Sim

open Kurogane.Raft Kurogane.Runtime Kurogane.Consensus

variable {initial : ClusterConfig} {h : Ghost} {node node' : Node}
  {effects : List Effect}

/-- A leader has every entry that a message of its own term carries. -/
theorem leader_keeps_log (s : h.Sound (membership initial))
    (hrel : NodeRel initial h node) (hrole : node.role = .leader)
    {sender : NodeId} {request : AppendEntries}
    (hmessage : MessageRel initial h sender node.id (.appendEntries request))
    (hstep : node.onAppendEntries sender request = some (node', effects))
    (hterm : node'.currentTerm = node.currentTerm) :
    Appends node [] node' := by
  rcases Node.onAppendEntries_cases hstep with ⟨-, rfl⟩ |
    ⟨-, hterm', hsnapshot, hsnapshotConfig, hcurrent, hlog⟩
  · exact .none rfl rfl rfl rfl rfl
  have hsame : node.currentTerm = request.term := hterm.symm.trans hterm'
  have hfollow := node.followLeader_same (by rw [hrole]; nofun) hsame
  rw [hfollow] at hsnapshot hsnapshotConfig hlog
  rcases hlog with hlog | ⟨-, hlog⟩
  · exact ⟨hsnapshot, hsnapshotConfig, by rw [hlog, List.append_nil], hcurrent⟩
  obtain ⟨helected, before, hinit, hlength, -, -, -⟩ := hmessage
  obtain ⟨hself, hown, -, -⟩ := hrel.leader hrole
  rw [← hsame] at helected hinit
  have hleader : request.leaderId = node.id := s.elected_unique helected hself
  rw [hleader, ← hown] at hinit
  have hmerge := @mergeEntries_log request.entries
    { node with electionElapsed := 0, leaderContactElapsed := 0 }
    (h.log node.id) before none hrel.log
    ((List.prefix_append _ _).trans hinit)
    (fun first hfirst _ =>
      ((List.prefix_append_right_inj before).mpr hfirst).trans hinit)
    (by
      intro first entry rest hsplit _ _
      refine List.IsPrefix.trans ?_ hinit
      rw [hsplit]
      exact ⟨rest, by simp⟩)
  rw [hlength] at hmerge
  rcases hmerge with ⟨-, hmerge⟩ | ⟨hnot, -⟩
  · rw [hmerge] at hlog
    exact ⟨hsnapshot, hsnapshotConfig, by rw [hlog, List.append_nil], hcurrent⟩
  · exact absurd hinit hnot

/-- While a leader keeps its term, a joint configuration gets into its log
only through `propose_config_change`. -/
theorem leader_opens_change (s : h.Sound (membership initial))
    (hrel : NodeRel initial h node) (hrole : node.role = .leader)
    {operation : Operation}
    (hmessage : ∀ sender message, operation = .receive sender message →
      MessageRel initial h sender node.id message)
    (hperform : node.perform operation = some (node', effects))
    (hterm : node'.currentTerm = node.currentTerm) {index : Nat}
    (hbeyond : node.lastLogIndex < index) {entry : LogEntry}
    (hentry : node'.entryAt index = some entry) {config : ClusterConfig}
    (hconfig : entry.payload = .configuration config)
    (hjoint : config.oldVoters.isSome = true) :
    ∃ newVoters, operation = .proposeConfigChange newVoters ∧
      newVoters ≠ [] := by
  have hplain : (∃ added, Appends node added node' ∧ NoneJoint added) →
      False := by
    rintro ⟨added, hadded, hnone⟩
    rw [hnone entry (hadded.mem_of_entryAt hbeyond hentry) config hconfig]
      at hjoint
    cases hjoint
  have hnone : Appends node [] node' → False := fun hsame =>
    hplain ⟨[], hsame, by simp [NoneJoint]⟩
  cases operation with
  | proposeConfigChange newVoters =>
      obtain ⟨answer, hanswer, hperform⟩ := Option.bind_eq_some_iff.mp hperform
      rcases answer with _ | ⟨last, index', rest⟩
      · cases hperform
        exact (hnone (.none rfl rfl rfl rfl rfl)).elim
      · exact ⟨newVoters, rfl, (Node.proposeConfigChange_appends hanswer).2.1⟩
  | tick nextTimeout => exact (hnone (Node.onTick_appends hperform)).elim
  | propose command =>
      obtain ⟨answer, hanswer, hperform⟩ := Option.bind_eq_some_iff.mp hperform
      rcases answer with _ | ⟨last, index', rest⟩
      · cases hperform
        exact (hnone (.none rfl rfl rfl rfl rfl)).elim
      · cases hperform
        obtain ⟨-, more, hmore, hnone⟩ := Node.propose_appends hanswer
        refine (hplain ⟨_, hmore, ?_⟩).elim
        intro other hother
        rcases List.mem_cons.mp hother with rfl | hother
        · intro found hfound
          cases hfound
        · exact hnone other hother
  | addLearner id =>
      obtain rfl := congrArg Prod.fst (Option.some.inj hperform)
      refine (hnone ?_).elim
      unfold Node.addLearner
      split <;> exact .none rfl rfl rfl rfl rfl
  | removeLearner id =>
      obtain rfl := congrArg Prod.fst (Option.some.inj hperform)
      refine (hnone ?_).elim
      unfold Node.removeLearner
      split <;> exact .none rfl rfl rfl rfl rfl
  | compact upToIndex snapshotData =>
      obtain ⟨answer, hanswer, hperform⟩ := Option.bind_eq_some_iff.mp hperform
      rcases answer with _ | ⟨last, rest⟩
      · cases hperform
        exact (hnone (.none rfl rfl rfl rfl rfl)).elim
      · cases hperform
        rcases Node.compact_cases hanswer with ⟨-, rfl, -⟩ |
          ⟨term, found, log, hlow, -, hknown, rfl, -, rfl, -⟩
        · exact (hnone (.none rfl rfl rfl rfl rfl)).elim
        · have hhigh := (Node.termAt_range hknown).2.2
          have hpast := (Node.entryAt_range hentry).2
          simp only [Node.lastLogIndex, Node.recomputeConfig, List.length_drop]
            at hbeyond hhigh hpast
          omega
  | receive sender message =>
      have hignored : some (node, []) = some (node', effects) → False := by
        intro heq
        cases heq
        exact hnone (.none rfl rfl rfl rfl rfl)
      have hstep : node.step (.step sender message) = some (node', effects) :=
        hperform
      have hmessage := hmessage sender message rfl
      exfalso
      cases message with
      | requestVote request =>
          simp only [Node.step] at hstep
          split at hstep
          · exact hignored hstep
          split at hstep
          · exact hignored hstep
          · exact hnone (Node.onRequestVote_appends hstep)
      | requestVoteResponse response =>
          simp only [Node.step] at hstep
          split at hstep
          · exact hignored hstep
          · exact hnone (Node.onRequestVoteResponse_appends hstep)
      | appendEntries request =>
          simp only [Node.step] at hstep
          split at hstep
          · exact hignored hstep
          · exact hnone (leader_keeps_log s hrel hrole hmessage hstep hterm)
      | appendEntriesResponse response =>
          simp only [Node.step] at hstep
          split at hstep
          · exact hignored hstep
          · exact hplain (Node.onAppendEntriesResponse_appends hstep)
      | installSnapshot request =>
          simp only [Node.step] at hstep
          split at hstep
          · exact hignored hstep
          · rcases Node.onInstallSnapshot_cases hstep with hsame | ⟨hempty, -⟩
            · exact hnone hsame
            · simp [Node.entryAt, hempty] at hentry
      | installSnapshotResponse response =>
          simp only [Node.step] at hstep
          split at hstep
          · exact hignored hstep
          · exact hplain (Node.onInstallSnapshotResponse_appends hstep)

/-- Serving a request opens a change of membership over nothing but a plain and
committed configuration exactly if the request waits for its turn. -/
theorem leader_opens_in_turn_iff (s : h.Sound (membership initial))
    (hrel : NodeRel initial h node) (hrole : node.role = .leader)
    {operation : Operation}
    (hmessage : ∀ sender message, operation = .receive sender message →
      MessageRel initial h sender node.id message)
    (hperform : node.perform operation = some (node', effects))
    (hterm : node'.currentTerm = node.currentTerm) :
    (∀ index entry config, node.lastLogIndex < index →
      node'.entryAt index = some entry → entry.payload = .configuration config →
      config.oldVoters.isSome = true → node.NoChangeInFlight) ↔
    node.ChangesInTurn operation := by
  constructor
  · intro hopens
    cases operation with
    | proposeConfigChange newVoters =>
        intro _ hne
        obtain ⟨answer, hanswer, hperform⟩ := Option.bind_eq_some_iff.mp hperform
        rcases answer with _ | ⟨last, index, rest⟩
        · rcases Node.proposeConfigChange_refused hanswer with hother | hnil
          · exact absurd hrole hother
          · exact absurd hnil hne
        · cases hperform
          obtain ⟨-, -, -, more, hmore, -⟩ := Node.proposeConfigChange_appends hanswer
          exact hopens (node.lastLogIndex + 1) _ _ (Nat.lt_succ_self _)
            hmore.entryAt_first rfl rfl
    | _ => trivial
  · intro hturn index entry config hbeyond hentry hconfig hjoint
    obtain ⟨newVoters, rfl, hne⟩ := leader_opens_change s hrel hrole hmessage
      hperform hterm hbeyond hentry hconfig hjoint
    exact hturn hrole hne

/-! ### Runs -/

/-- In an orderly run of a growing cluster the configuration entries of every
log, over those its snapshot stands for, alternate from the bootstrap
configuration on; and a request served by a leader that keeps its term opens a
change only over a plain and committed configuration, exactly if the request
waits for its turn. -/
theorem config_changes_alternate {peers : List NodeId}
    {members : List (NodeId × Nat × Nat)} {start now : Cluster}
    {past : List Cluster} {id : NodeId}
    (hboot : Cluster.boot peers members = .ok start)
    (hrun : Growth Cluster.Orderly start (now :: past))
    (hnode : now.node id = some node) :
    (∃ compacted : List LogEntry,
      compacted.length = node.snapshot.lastIncludedIndex ∧
      (0 < node.snapshot.lastIncludedIndex → node.snapshotConfig =
        (membership ⟨peers, none⟩).latest ⟨peers, none⟩ compacted) ∧
      (membership ⟨peers, none⟩).Chained ⟨peers, none⟩ (compacted ++ node.log)) ∧
    ∀ operation node' effects, node.role = .leader →
      now.delivers id operation = true →
      node.perform operation = some (node', effects) →
      node'.currentTerm = node.currentTerm →
      ((∀ index entry config, node.lastLogIndex < index →
          node'.entryAt index = some entry →
          entry.payload = .configuration config → config.oldVoters.isSome = true →
          node.NoChangeInFlight) ↔
        node.ChangesInTurn operation) := by
  obtain ⟨h, hrel, hpeers⟩ := (boot_grown hboot).run hrun
  obtain rfl := hpeers.trans (Cluster.boot_ok hboot).1
  obtain ⟨rfl, hnodeRel⟩ := hrel.of_node hnode
  refine ⟨⟨(h.log node.id).take node.snapshot.lastIncludedIndex, ?_, ?_, ?_⟩, ?_⟩
  · exact List.length_take_of_le (hnodeRel.boundary_le_length hrel.sound)
  · exact fun hpos => hnodeRel.snapshotConfig (Or.inl hpos)
  · have hchained := hrel.sound.backed_chained (hrel.sound.node_backed node.id)
    rw [hnodeRel.log, List.take_append_drop]
    exact hchained
  · intro operation node' effects hrole hdelivers hperform hterm
    exact leader_opens_in_turn_iff hrel.sound hnodeRel hrole
      (hrel.delivered hdelivers) hperform hterm

/-- Node four joins a cluster of one and is promoted, and the follow-up of its
promotion is committed. -/
def joinsAndIsPromoted : List Move :=
  [.act (.perform ⟨1⟩ (.tick 1)),
    .start ⟨4⟩ ⟨[], 9, 1, true⟩,
    .act (.perform ⟨1⟩ (.addLearner ⟨4⟩)),
    .act (.perform ⟨1⟩ (.proposeConfigChange [⟨1⟩, ⟨4⟩])),
    .act (.perform ⟨1⟩ (.tick 1)),
    .act (.perform ⟨4⟩ (.receive ⟨1⟩ (.appendEntries ⟨1, ⟨1⟩, 0, 0,
      [⟨1, .configuration ⟨[⟨1⟩, ⟨4⟩], some [⟨1⟩]⟩⟩], 0⟩))),
    .act (.perform ⟨1⟩ (.receive ⟨4⟩ (.appendEntriesResponse ⟨1, true, 1⟩))),
    .act (.perform ⟨4⟩ (.receive ⟨1⟩ (.appendEntries ⟨1, ⟨1⟩, 1, 1,
      [⟨1, .configuration ⟨[⟨1⟩, ⟨4⟩], none⟩⟩], 1⟩))),
    .act (.perform ⟨1⟩ (.receive ⟨4⟩ (.appendEntriesResponse ⟨1, true, 2⟩)))]

/-- The change that removes node four again opens over the two entries of its
promotion. -/
theorem config_changes_alternate_over_a_change : ∃ start now past,
    Cluster.boot [⟨1⟩] [(⟨1⟩, 1, 1)] = .ok start ∧
    Growth Cluster.Orderly start (now :: past) ∧
    ∃ node ∈ now.node ⟨1⟩,
      node.log = [⟨1, .configuration ⟨[⟨1⟩, ⟨4⟩], some [⟨1⟩]⟩⟩,
        ⟨1, .configuration ⟨[⟨1⟩, ⟨4⟩], none⟩⟩] ∧
      (membership ⟨[⟨1⟩], none⟩).Chained ⟨[⟨1⟩], none⟩ node.log ∧
      ∃ node' effects,
        node.perform (.proposeConfigChange [⟨1⟩]) = some (node', effects) ∧
        node'.entryAt 3 = some ⟨1, .configuration ⟨[⟨1⟩], some [⟨1⟩, ⟨4⟩]⟩⟩ ∧
        node.ChangesInTurn (.proposeConfigChange [⟨1⟩]) := by
  obtain ⟨start, now, past, hboot, hrun, node, hnode, hlog, hboundary, hrole,
      hflight, ⟨node', effects⟩, hperform, hterm, hentry⟩ :=
    Growth.of_check Cluster.Orderly [⟨1⟩] [(⟨1⟩, 1, 1)] joinsAndIsPromoted
      (fun now => ∃ node ∈ now.node ⟨1⟩,
        node.log = [⟨1, .configuration ⟨[⟨1⟩, ⟨4⟩], some [⟨1⟩]⟩⟩,
          ⟨1, .configuration ⟨[⟨1⟩, ⟨4⟩], none⟩⟩] ∧
        node.snapshot.lastIncludedIndex = 0 ∧ node.role = .leader ∧
        node.NoChangeInFlight ∧
        ∃ result ∈ node.perform (.proposeConfigChange [⟨1⟩]),
          result.1.currentTerm = node.currentTerm ∧
          result.1.entryAt 3 = some
            ⟨1, .configuration ⟨[⟨1⟩], some [⟨1⟩, ⟨4⟩]⟩⟩)
      (by decide +kernel)
  obtain ⟨⟨compacted, hlength, -, hchained⟩, hopens⟩ :=
    config_changes_alternate hboot hrun hnode
  obtain rfl := List.eq_nil_of_length_eq_zero (hlength.trans hboundary)
  exact ⟨start, now, past, hboot, hrun, node, hnode, hlog, hchained, node', effects,
    hperform, hentry, (hopens _ node' effects hrole rfl hperform hterm).mp
      fun _ _ _ _ _ _ _ => hflight⟩

/-- Nothing makes the second of two changes wait: its joint entry directly
follows the joint entry of the first, which is not committed. -/
theorem second_change_opens_over_the_first :
    ∃ start now later : Cluster,
      Cluster.boot fiveVoters (fiveVoters.map (fun id => (id, 1, 1))) =
        .ok start ∧
      Run (fun c => c.Serving Node.Requested) start now ∧
      Run (fun c => c.Serving Node.Requested) now later ∧
      (∃ node ∈ now.node ⟨1⟩, node.role = .leader ∧ ¬ node.NoChangeInFlight) ∧
      ∃ node ∈ later.node ⟨1⟩, node.log =
        [⟨1, .configuration ⟨[⟨2⟩], some fiveVoters⟩⟩,
          ⟨1, .configuration ⟨[⟨2⟩], some [⟨2⟩]⟩⟩] ∧
        ¬ (membership ⟨fiveVoters, none⟩).Chained node.snapshotConfig
          node.log := by
  obtain ⟨start, now, later, hboot, hrun, hrun', hopen, node, hnode, hlog⟩ :=
    Run.of_check (fun c => c.Serving Node.Requested) fiveVoters
      (fiveVoters.map (fun id => (id, 1, 1)))
      (elects ⟨1⟩ 1 [⟨2⟩, ⟨3⟩] ++
        [.perform ⟨1⟩ (.proposeConfigChange [⟨2⟩])])
      [.perform ⟨1⟩ (.proposeConfigChange [⟨2⟩])]
      (fun _ now later =>
        (∃ node ∈ now.node ⟨1⟩, node.role = .leader ∧
          ¬ node.NoChangeInFlight) ∧
        ∃ node ∈ later.node ⟨1⟩, node.log =
          [⟨1, .configuration ⟨[⟨2⟩], some fiveVoters⟩⟩,
            ⟨1, .configuration ⟨[⟨2⟩], some [⟨2⟩]⟩⟩])
      (by decide +kernel)
  refine ⟨start, now, later, hboot, hrun, hrun', hopen, node, hnode, hlog, ?_⟩
  rw [hlog]
  simp [Rules.Chained, entryConfig, membership, configNext]

end Kurogane.Sim
