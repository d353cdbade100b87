import Kurogane.Sim.ElectionSafety
import Kurogane.Sim.Growth

/-!
A snapshot that arrives late. The handler recognises a snapshot it does not
need by the term it still knows at the snapshot's boundary. Above its own
boundary a node knows every term, so there it never goes back; below it knows
none, and takes any snapshot for a new one.
-/

namespace Kurogane.Raft

/-- Nothing that was settled at `node` is missing at `node'`. -/
structure NoRegress (node node' : Node) : Prop where
  boundary : node.snapshot.lastIncludedIndex ≤ node'.snapshot.lastIncludedIndex
  commit : node.commitIndex ≤ node'.commitIndex
  inside : node'.commitIndex ≤ node'.lastLogIndex
  held : ∀ index entry, index ≤ node.commitIndex →
    node.entryAt index = some entry →
      node'.entryAt index = some entry ∨
        index ≤ node'.snapshot.lastIncludedIndex
  covered : ∀ index, index ≤ node.commitIndex →
    index ≤ node.snapshot.lastIncludedIndex →
      (node'.entryAt index).isSome = true ∨
        index ≤ node'.snapshot.lastIncludedIndex

theorem NoRegress.of_same {node node' : Node}
    (hinside : node.commitIndex ≤ node.lastLogIndex)
    (hsnapshot : node'.snapshot = node.snapshot)
    (hlog : node'.log = node.log)
    (hcommit : node'.commitIndex = node.commitIndex) : NoRegress node node' where
  boundary := by rw [hsnapshot]
  commit := hcommit.ge
  inside := by
    rw [hcommit, Node.lastLogIndex, hsnapshot, hlog]
    exact hinside
  held index entry _ hentry := by
    refine Or.inl ?_
    rw [← hentry, Node.entryAt, Node.entryAt, Node.vecIndex, Node.vecIndex,
      hsnapshot, hlog]
  covered index _ hindex := Or.inr (by rw [hsnapshot]; exact hindex)

/-- Replacing the log by the snapshot is no step back exactly if the snapshot
reaches as far as the commit index. -/
theorem noRegress_install_iff {node follower : Node} {request : InstallSnapshot}
    (hboundary : node.snapshot.lastIncludedIndex ≤ node.commitIndex)
    (hcommit : follower.commitIndex = node.commitIndex) :
    NoRegress node (follower.install request) ↔
      node.commitIndex ≤ request.lastIncludedIndex := by
  have hlast : (follower.install request).lastLogIndex =
      request.lastIncludedIndex := rfl
  have hmax : (follower.install request).commitIndex =
      max node.commitIndex request.lastIncludedIndex := by
    rw [← hcommit]
    rfl
  constructor
  · intro h
    have hinside := h.inside
    rw [hlast, hmax] at hinside
    exact (le_max_left _ _).trans hinside
  · intro hle
    refine ⟨hboundary.trans hle, hmax ▸ le_max_left _ _, ?_, ?_, ?_⟩
    · rw [hlast, hmax, max_eq_right hle]
    · exact fun index entry hindex _ => Or.inr (hindex.trans hle)
    · exact fun index hindex _ => Or.inr (hindex.trans hle)

/-- A snapshot of a current term is no step back exactly if the node knows the
term at its boundary to be the same, or has not committed further. -/
theorem onInstallSnapshot_noRegress_iff {node node' : Node} {sender : NodeId}
    {request : InstallSnapshot} {effects : List Effect}
    (hboundary : node.snapshot.lastIncludedIndex ≤ node.commitIndex)
    (hinside : node.commitIndex ≤ node.lastLogIndex)
    (hterm : node.currentTerm ≤ request.term)
    (h : node.onInstallSnapshot sender request = some (node', effects)) :
    NoRegress node node' ↔ node.alreadyCovered request = true ∨
      node.commitIndex ≤ request.lastIncludedIndex := by
  have hfollow : (node.followLeader request.term).1.snapshot = node.snapshot ∧
      (node.followLeader request.term).1.log = node.log ∧
      (node.followLeader request.term).1.commitIndex = node.commitIndex := by
    unfold Node.followLeader
    dsimp only
    split
    · exact ⟨rfl, rfl, rfl⟩
    split <;> exact ⟨rfl, rfl, rfl⟩
  unfold Node.onInstallSnapshot at h
  rw [if_neg (Nat.not_lt.mpr hterm)] at h
  generalize node.followLeader request.term = followed at *
  obtain ⟨follower, persistTerm⟩ := followed
  obtain ⟨hsnapshot, hlog, hcommit⟩ := hfollow
  dsimp only at h hsnapshot hlog hcommit
  have hknows : follower.alreadyCovered request = node.alreadyCovered request := by
    unfold Node.alreadyCovered Node.termAt Node.entryAt Node.vecIndex
    rw [hsnapshot, hlog]
  have hsame := NoRegress.of_same hinside hsnapshot hlog hcommit
  split at h
  · rename_i halready
    cases h
    exact ⟨fun _ => Or.inl (hknows ▸ halready), fun _ => hsame⟩
  · rename_i hmissing
    cases h
    rw [noRegress_install_iff hboundary hcommit, ← hknows]
    exact ⟨Or.inr, fun h => h.resolve_left hmissing⟩

end Kurogane.Raft

namespace Kurogane.Sim

open Kurogane.Raft Kurogane.Runtime Kurogane.Consensus

variable {initial : ClusterConfig} {h : Ghost} {node : Node}

/-- What a leader's snapshot covers agrees with what the node has committed,
so from its own boundary on the node knows the snapshot's last term. -/
theorem knows_covered_snapshot (s : h.Sound (membership initial))
    (hrel : NodeRel initial h node) {sender : NodeId}
    {request : InstallSnapshot}
    (hmessage : MessageRel initial h sender node.id (.installSnapshot request))
    (hlow : node.snapshot.lastIncludedIndex ≤ request.lastIncludedIndex)
    (hcommit : request.lastIncludedIndex < node.commitIndex) :
    node.alreadyCovered request = true := by
  obtain ⟨-, hpos, covered, -, hlength, hlast, -, hcovered⟩ := hmessage
  have hle := hrel.commit_le_length s
  have hheld : covered <+: h.log node.id := by
    rcases s.covered_comparable hcovered (hrel.committed_covered s) with
      hin | hin
    · exact hin.trans (List.take_prefix _ _)
    · have hlonger := hin.length_le
      rw [List.length_take] at hlonger
      omega
  have hknown := hrel.termAt hpos hlow (by omega)
  rw [← hlength, ← List.prefix_iff_eq_take.mp hheld, hlast] at hknown
  rw [Node.alreadyCovered, ← hlength, hknown]
  exact decide_eq_true rfl

/-- In an orderly run of a growing cluster, delivering a snapshot of a current
term takes the receiver, member or not, back exactly if the snapshot ends below
the receiver's own boundary. -/
theorem late_snapshot_noRegress_iff {peers : List NodeId}
    {members : List (NodeId × Nat × Nat)} {start now : Cluster}
    {past : List Cluster} {id : NodeId}
    {sender : NodeId} {request : InstallSnapshot} {node' : Node}
    {effects : List Effect}
    (hboot : Cluster.boot peers members = .ok start)
    (hrun : Growth Cluster.Orderly start (now :: past))
    (hnode : now.node id = some node)
    (hsent : ⟨sender, id, .installSnapshot request⟩ ∈ now.network)
    (hterm : node.currentTerm ≤ request.term)
    (hinstall : node.onInstallSnapshot sender request =
      some (node', effects)) :
    NoRegress node node' ↔
      node.snapshot.lastIncludedIndex ≤ request.lastIncludedIndex := by
  obtain ⟨h, hrel, -⟩ := (boot_grown hboot).run hrun
  obtain ⟨rfl, hnodeRel⟩ := hrel.of_node hnode
  have hboundary := hnodeRel.boundary_le_commit
  have hinside : node.commitIndex ≤ node.lastLogIndex := by
    rw [hnodeRel.lastLogIndex hrel.sound]
    exact hnodeRel.commit_le_length hrel.sound
  rw [onInstallSnapshot_noRegress_iff hboundary hinside hterm hinstall]
  constructor
  · rintro (hknown | hle)
    · have hknown : node.termAt request.lastIncludedIndex =
          some request.lastIncludedTerm := by
        simpa [Node.alreadyCovered] using hknown
      exact (Node.termAt_range hknown).2.1
    · exact hboundary.trans hle
  · intro hlow
    rcases Nat.lt_or_ge request.lastIncludedIndex node.commitIndex with
      hlt | hge
    · exact Or.inl (knows_covered_snapshot hrel.sound hnodeRel
        (hrel.network _ hsent) hlow hlt)
    · exact Or.inr hge

/-- What the leader of term one sends once it has compacted its first entry. -/
def firstSnapshot : InstallSnapshot where
  term := 1
  leaderId := ⟨1⟩
  lastIncludedIndex := 1
  lastIncludedTerm := 1
  data := [7]
  config := ⟨[⟨1⟩, ⟨2⟩, ⟨3⟩], none⟩

/-- Node one is elected by node three, commits an entry with it and compacts. -/
def compactsFirst : List Move :=
  [.act (.perform ⟨1⟩ (.tick 1)),
    .act (.perform ⟨3⟩ (.receive ⟨1⟩ (.requestVote ⟨1, ⟨1⟩, 0, 0⟩))),
    .act (.perform ⟨1⟩ (.receive ⟨3⟩ (.requestVoteResponse ⟨1, true⟩))),
    .act (.perform ⟨1⟩ (.propose [7])),
    .act (.perform ⟨1⟩ (.tick 1)),
    .act (.perform ⟨3⟩ (.receive ⟨1⟩ (.appendEntries
      ⟨1, ⟨1⟩, 0, 0, [⟨1, .command [7]⟩], 0⟩))),
    .act (.perform ⟨1⟩ (.receive ⟨3⟩ (.appendEntriesResponse ⟨1, true, 1⟩))),
    .act (.perform ⟨1⟩ (.compact 1 [7]))]

/-- Node two misses the first entry and catches up by a snapshot. -/
def catchesUp : List Move :=
  [.act (.perform ⟨1⟩ (.tick 1)),
    .act (.perform ⟨2⟩ (.receive ⟨1⟩ (.installSnapshot firstSnapshot)))]

/-- Node four joins as a learner and is brought up to date the same way. -/
def joinsByTheSnapshot : List Move :=
  [.start ⟨4⟩ ⟨[], 9, 1, true⟩,
    .act (.perform ⟨1⟩ (.addLearner ⟨4⟩)),
    .act (.perform ⟨1⟩ (.tick 1)),
    .act (.perform ⟨4⟩ (.receive ⟨1⟩ (.appendEntries ⟨1, ⟨1⟩, 1, 1, [], 1⟩))),
    .act (.perform ⟨1⟩ (.receive ⟨4⟩ (.appendEntriesResponse ⟨1, false, 0⟩))),
    .act (.perform ⟨4⟩ (.receive ⟨1⟩ (.installSnapshot firstSnapshot)))]

/-- Node two receives and commits a second entry and compacts it away. -/
def compactsFurther : List Move :=
  [.act (.perform ⟨1⟩ (.propose [8])),
    .act (.perform ⟨1⟩ (.receive ⟨2⟩ (.installSnapshotResponse ⟨1, 1⟩))),
    .act (.perform ⟨2⟩ (.receive ⟨1⟩ (.appendEntries
      ⟨1, ⟨1⟩, 1, 1, [⟨1, .command [8]⟩], 1⟩))),
    .act (.perform ⟨1⟩ (.receive ⟨2⟩ (.appendEntriesResponse ⟨1, true, 2⟩))),
    .act (.perform ⟨1⟩ (.tick 1)),
    .act (.perform ⟨2⟩ (.receive ⟨1⟩ (.appendEntries ⟨1, ⟨1⟩, 2, 1, [], 2⟩))),
    .act (.perform ⟨2⟩ (.compact 2 [7, 8]))]

/-- A second copy of the snapshot changes nothing at a node that has joined and
still knows its boundary. -/
theorem duplicate_snapshot_noRegress : ∃ start now past,
    Cluster.boot [⟨1⟩, ⟨2⟩, ⟨3⟩]
        [(⟨1⟩, 1, 1), (⟨2⟩, 9, 1), (⟨3⟩, 9, 1)] = .ok start ∧
      Growth Cluster.Orderly start (now :: past) ∧
      ∃ node ∈ now.node ⟨4⟩, node.snapshot.lastIncludedIndex = 1 ∧
        ∃ node' effects, node.onInstallSnapshot ⟨1⟩ firstSnapshot =
          some (node', effects) ∧ NoRegress node node' := by
  obtain ⟨start, now, past, hboot, hrun, node, hnode, hboundary, hsent, hterm,
      hinstall⟩ :=
    Growth.of_check Cluster.Orderly [⟨1⟩, ⟨2⟩, ⟨3⟩]
      [(⟨1⟩, 1, 1), (⟨2⟩, 9, 1), (⟨3⟩, 9, 1)] (compactsFirst ++ joinsByTheSnapshot)
      (fun now => ∃ node ∈ now.node ⟨4⟩,
        node.snapshot.lastIncludedIndex = 1 ∧
        ⟨⟨1⟩, ⟨4⟩, .installSnapshot firstSnapshot⟩ ∈ now.network ∧
        node.currentTerm ≤ firstSnapshot.term ∧
        (node.onInstallSnapshot ⟨1⟩ firstSnapshot).isSome)
      (by decide +kernel)
  obtain ⟨⟨node', effects⟩, hinstall⟩ := Option.isSome_iff_exists.mp hinstall
  exact ⟨start, now, past, hboot, hrun, node, hnode, hboundary, node', effects,
    hinstall, (late_snapshot_noRegress_iff hboot hrun hnode hsent hterm
      hinstall).mpr hboundary.le⟩

/-- Once it has compacted further, a copy takes node two's boundary back below
its commit index and empties its log. -/
theorem duplicate_snapshot_regresses : ∃ start now past later,
    Cluster.boot [⟨1⟩, ⟨2⟩, ⟨3⟩]
        [(⟨1⟩, 1, 1), (⟨2⟩, 9, 1), (⟨3⟩, 9, 1)] = .ok start ∧
      Growth Cluster.Orderly start (now :: past) ∧
      ∃ node ∈ now.node ⟨2⟩,
        ⟨⟨1⟩, ⟨2⟩, .installSnapshot firstSnapshot⟩ ∈ now.network ∧
        node.currentTerm ≤ firstSnapshot.term ∧
        now.step (.perform ⟨2⟩ (.receive ⟨1⟩ (.installSnapshot
          firstSnapshot))) = some later ∧
        ∃ node' ∈ later.node ⟨2⟩, ¬ NoRegress node node' ∧
          node'.snapshot.lastIncludedIndex < node.snapshot.lastIncludedIndex ∧
          node'.lastLogIndex < node'.commitIndex := by
  obtain ⟨start, now, past, hboot, hrun, later, hstep, node, hnode, hsent, hterm,
      node', hnode', hback, hinside⟩ :=
    Growth.of_check Cluster.Orderly [⟨1⟩, ⟨2⟩, ⟨3⟩]
      [(⟨1⟩, 1, 1), (⟨2⟩, 9, 1), (⟨3⟩, 9, 1)]
      (compactsFirst ++ catchesUp ++ compactsFurther)
      (fun now => ∃ later ∈ now.step (.perform ⟨2⟩ (.receive ⟨1⟩
          (.installSnapshot firstSnapshot))),
        ∃ node ∈ now.node ⟨2⟩,
          ⟨⟨1⟩, ⟨2⟩, .installSnapshot firstSnapshot⟩ ∈ now.network ∧
          node.currentTerm ≤ firstSnapshot.term ∧
          ∃ node' ∈ later.node ⟨2⟩, node'.snapshot.lastIncludedIndex <
              node.snapshot.lastIncludedIndex ∧
            node'.lastLogIndex < node'.commitIndex)
      (by decide +kernel)
  exact ⟨start, now, past, later, hboot, hrun, node, hnode, hsent, hterm, hstep,
    node', hnode', fun h => absurd h.boundary (Nat.not_le.mpr hback), hback, hinside⟩

end Kurogane.Sim
