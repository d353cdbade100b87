import Kurogane.Sim.Replication

/-!
Snapshots as protocol steps. Compaction moves the boundary inside the
committed part and is no step at all. Installing a snapshot adopts the
leader's log up to its boundary, provided the boundary does not move back: a
node that has compacted further than the snapshot no longer recognises it.
-/

namespace Kurogane.Raft.Node

/-- A snapshot of a current leader does not reach below the node's own. -/
def SnapshotReaches (node : Node) (request : InstallSnapshot) : Prop :=
  node.currentTerm ≤ request.term →
    node.snapshot.lastIncludedIndex ≤ request.lastIncludedIndex

instance (node : Node) (request : InstallSnapshot) :
    Decidable (node.SnapshotReaches request) :=
  inferInstanceAs (Decidable (_ → _))

end Kurogane.Raft.Node

namespace Kurogane.Sim

open Kurogane.Raft Kurogane.Consensus

variable {initial : ClusterConfig} {h : Ghost} {node node' : Node}
  {effects : List Effect}

/-- Moving the boundary anywhere inside the committed part. -/
theorem rebase_rel (hrel : NodeRel initial h node) (data : Bytes)
    {index term : Nat} {config : ClusterConfig} {log : List LogEntry}
    (hpos : 0 < index) (hindex : index ≤ node.commitIndex)
    (hterm : term = (membership initial).lastTerm
      ((h.log node.id).take index))
    (hconfig : config = (membership initial).latest initial
      ((h.log node.id).take index))
    (hlog : log = (h.log node.id).drop index) :
    NodeRel initial h { node with
      log
      snapshot := ⟨index, term⟩
      snapshotData := data
      snapshotConfig := config }.recomputeConfig where
  durable := ⟨hrel.term, hrel.durable.voted, hindex.trans_eq hrel.commit.symm,
    hlog, hterm, fun _ => hconfig⟩
  commit := hrel.commit
  informed _ := Or.inl (Or.inl hpos)
  config := rfl
  candidate := hrel.candidate
  leader := hrel.leader

/-- Between a snapshot and its splice nothing is settled. -/
theorem snapshot_batch_atomic {index term : Nat} {data : Bytes}
    {config : ClusterConfig} {splice : Effect} (written : Nat)
    (hlt : written < [Effect.persistSnapshot index term data config,
      splice].length)
    (hsettled : Settled ([Effect.persistSnapshot index term data config,
      splice].take written)) :
    [Effect.persistSnapshot index term data config, splice].take written =
      [] := by
  simp only [List.length_cons, List.length_nil] at hlt
  obtain rfl | rfl : written = 0 ∨ written = 1 := by omega
  · rfl
  · exact absurd rfl (hsettled index term data config)

theorem compact_simulates (s : h.Sound (membership initial))
    (hrel : NodeRel initial h node) {upToIndex : Nat} {snapshotData : Bytes}
    (hknows : node.snapshot.lastIncludedIndex < upToIndex →
      upToIndex ≤ node.commitIndex → node.KnowsBoundary initial upToIndex)
    (hcompact : node.compact upToIndex snapshotData =
      some (.ok (node', effects))) :
    ∃ h', Simulates initial h node effects h' node' := by
  have hpersists := Node.compact_persists hcompact
  rcases Node.compact_cases hcompact with ⟨-, rfl, rfl⟩ |
    ⟨term, config, log, habove, hcommitted, hterm, rfl, rfl, rfl, rfl⟩
  · exact ⟨h, .refl hrel⟩
  obtain ⟨-, hlow, hhigh, hlast⟩ := hrel.termAt_some s hterm
  refine ⟨h, .atomic hrel .refl (rebase_rel hrel _ (Nat.zero_lt_of_lt habove)
    hcommitted hlast.symm ?_ ?_) hpersists (fun written hlt hsettled =>
      snapshot_batch_atomic written hlt hsettled)⟩
  · have hdrained : node.log.take
        (upToIndex - node.snapshot.lastIncludedIndex) =
        ((h.log node.id).take upToIndex).drop
          node.snapshot.lastIncludedIndex := by
      rw [hrel.log, List.drop_take]
    have hlatest := hrel.latest_of_take (hknows habove hcommitted)
    have hsplit : (h.log node.id).take upToIndex =
        (h.log node.id).take node.snapshot.lastIncludedIndex ++
          node.log.take (upToIndex - node.snapshot.lastIncludedIndex) := by
      rw [hdrained]
      conv_lhs => rw [← List.take_append_drop node.snapshot.lastIncludedIndex
        ((h.log node.id).take upToIndex)]
      rw [List.take_take, Nat.min_eq_left hlow]
    rw [hsplit, ← hlatest]
  · rw [hrel.log, List.drop_drop, Nat.add_sub_cancel' hlow]

theorem install_simulates (s : h.Sound (membership initial))
    (hrel : NodeRel initial h node) (hrole : node.role ≠ .candidate)
    {request : InstallSnapshot} (hpos : 0 < request.lastIncludedIndex) {covered : List LogEntry}
    (helected : h.Elected node.currentTerm request.leaderId)
    (hinit : covered <+: h.leaderLog node.currentTerm request.leaderId)
    (hlength : covered.length = request.lastIncludedIndex)
    (hterm : (membership initial).lastTerm covered = request.lastIncludedTerm)
    (hconfig : (membership initial).latest initial covered = request.config)
    (hcovered : h.Covered node.currentTerm h.clock covered)
    (hnot : ¬ covered <+: h.log node.id)
    (hlow : node.snapshot.lastIncludedIndex ≤ request.lastIncludedIndex) :
    ∃ h', Simulates initial h node
        [.persistSnapshot request.lastIncludedIndex request.lastIncludedTerm
            request.data request.config,
          .persistLog (request.lastIncludedIndex + 1) []] h'
        (node.install request) ∧
      h'.log node.id = covered := by
  obtain ⟨h₁, hstep, hlog, hkept, hrel₁⟩ := adopt_rel s hrel hrole helected
    hinit hnot
  have ext := hstep.extends
  have hcommit : node.commitIndex ≤ request.lastIncludedIndex := by
    have hle := hkept.length_le
    rw [List.length_take, Nat.min_eq_left (hrel.commit_le_length s)] at hle
    omega
  have hwhole : (h₁.log node.id).take request.lastIncludedIndex = covered := by
    rw [hlog, ← hlength, List.take_length]
  obtain ⟨h₂, hsettle, hlog₂⟩ := settle_rel hrel₁ hlow
    (by
      show request.lastIncludedIndex ≤ (h₁.log node.id).length
      rw [hlog, hlength])
    (by
      show h₁.Covered node.currentTerm h₁.clock
        ((h₁.log node.id).take request.lastIncludedIndex)
      rw [hwhole]
      exact ext.covered hcovered le_rfl ext.clock)
  have hwhole₂ : (h₂.log node.id).take request.lastIncludedIndex = covered := by
    rw [hlog₂, hwhole]
  have hrebased := rebase_rel hsettle.rel request.data hpos le_rfl
    (by
      show request.lastIncludedTerm = _
      rw [← hterm, ← hwhole₂]
      rfl)
    (by
      show request.config = _
      rw [← hconfig, ← hwhole₂]
      rfl)
    (by
      show [] = (h₂.log node.id).drop request.lastIncludedIndex
      rw [hlog₂, hlog, ← hlength, List.drop_length])
  refine ⟨h₂, .atomic hrel ((Relation.ReflTransGen.single hstep).trans
    hsettle.steps) ?_ (node.install_persists request)
    (fun written hlt hsettled => snapshot_batch_atomic written hlt hsettled),
    ?_⟩
  · unfold Node.install
    rw [Nat.max_eq_right hcommit]
    exact hrebased
  · rw [hlog₂, hlog]

theorem onInstallSnapshot_simulates (s : h.Sound (membership initial))
    (hrel : NodeRel initial h node) {sender : NodeId}
    {request : InstallSnapshot}
    (hmessage : MessageRel initial h sender node.id (.installSnapshot request))
    (hleader : request.leaderId = sender)
    (hreaches : node.SnapshotReaches request)
    (hstep : node.onInstallSnapshot sender request = some (node', effects)) :
    ∃ h', Simulates initial h node effects h' node' := by
  unfold Node.onInstallSnapshot at hstep
  split at hstep
  · cases hstep
    refine ⟨h, (Simulates.refl hrel).reply (Or.inr ⟨_, ?_,
      hrel.snapshot_covered s⟩)⟩
    simpa using hrel.boundary_le_length s
  rename_i hcurrent
  have hlow := hreaches (Nat.le_of_not_lt hcurrent)
  obtain ⟨h₁, hfollow, hterm₁, hrole₁, hsnapshot₁⟩ := followLeader_simulates s
    hrel (Nat.le_of_not_lt hcurrent)
  have ext₁ := hfollow.steps.extends
  have s₁ := hfollow.steps.sound s
  generalize node.followLeader request.term = followed at *
  obtain ⟨follower, persistTerm⟩ := followed
  dsimp only at *
  have hrel₁ := hfollow.rel
  rw [← hsnapshot₁] at hlow
  obtain ⟨helected, hpos, covered, hinit, hlength, hlast, hconfig,
    hcommitted⟩ := hmessage.extends ext₁
  rw [← hterm₁] at helected hinit hcommitted
  -- Either way the node ends up holding the covered part and says so.
  have hanswer : ∀ {h₂ : Ghost} {last : Node} {written : List Effect},
      Simulates initial h node written h₂ last → h₁.Extends h₂ →
      last.currentTerm = follower.currentTerm →
      covered <+: h₂.log last.id →
      ∃ h', Simulates initial h node (written ++
        [last.snapshotReply sender request.lastIncludedIndex]) h' last := by
    intro h₂ last written hsim ext hterm hheld
    obtain ⟨h₃, hack, a, ha, havoter, haterm, haleader, halog⟩ :=
      ack_rel (hsim.steps.sound s) hsim.rel covered
        (by rw [hterm]; exact ext.elected helected)
        (by rw [hterm]; exact hinit.trans (ext.leaderLog _ _ helected)) hheld
    have hwhole := hsim.append hack
    rw [List.append_nil] at hwhole
    exact ⟨h₃, hwhole.reply (Or.inl ⟨a, ha, havoter, haterm,
      haleader.trans hleader, halog ▸ hlength⟩)⟩
  split at hstep
  · rename_i halready
    cases hstep
    refine hanswer hfollow (.refl h₁) rfl ?_
    refine held_of_termAt s₁ hrel₁ helected hinit ?_
    rw [hlength, hlast]
    simpa [Node.alreadyCovered] using halready
  · rename_i hmissing
    cases hstep
    have hnot : ¬ covered <+: h₁.log follower.id := by
      intro hheld
      have hhigh := hheld.length_le
      rw [hlength] at hhigh
      have htake := List.prefix_iff_eq_take.mp hheld
      rw [hlength] at htake
      have hterm := hrel₁.termAt hpos hlow hhigh
      rw [← htake, hlast] at hterm
      exact hmissing (by simp [Node.alreadyCovered, hterm])
    obtain ⟨h₂, hinstall, hlog⟩ := install_simulates s₁ hrel₁ hrole₁ hpos helected
      hinit hlength hlast hconfig hcommitted hnot hlow
    obtain ⟨h', hsim⟩ := hanswer (hfollow.append hinstall)
      hinstall.steps.extends rfl (by
        rw [hinstall.id, hlog])
    refine ⟨h', ?_⟩
    simpa using hsim

end Kurogane.Sim
