import Kurogane.Raft.Configurations

/-!
Progress a leader keeps of its peers. A message to a peer can be built as long
as the peer's next index is known and not beyond the end of the log.
-/

namespace Kurogane.Raft

theorem foldl_insert_const (targets : List NodeId) (value : Nat)
    (progress : Progress) {peer : NodeId} {found : Nat}
    (hfound : (targets.foldl (fun progress peer =>
      progress.insert peer value) progress)[peer]? = some found) :
    found = value ∨ progress[peer]? = some found := by
  induction targets generalizing progress with
  | nil => exact Or.inr hfound
  | cons target rest ih =>
      rcases ih _ hfound with heq | hmem
      · exact Or.inl heq
      · rw [Std.ExtTreeMap.getElem?_insert] at hmem
        split at hmem
        · exact Or.inl (Option.some.inj hmem).symm
        · exact Or.inr hmem

/-- Every target is inserted. -/
theorem getElem?_foldl_insert {targets : List NodeId} {peer : NodeId}
    (hpeer : peer ∈ targets) (value : Nat) (progress : Progress) :
    (targets.foldl (fun progress peer =>
      progress.insert peer value) progress)[peer]? = some value := by
  have hkeep : ∀ (rest : List NodeId) (progress : Progress),
      progress[peer]? = some value →
      (rest.foldl (fun progress peer =>
        progress.insert peer value) progress)[peer]? = some value := by
    intro rest
    induction rest with
    | nil => exact fun _ hfound => hfound
    | cons target rest ih =>
        intro progress hfound
        apply ih
        rw [Std.ExtTreeMap.getElem?_insert]
        split
        · rfl
        · exact hfound
  induction targets generalizing progress with
  | nil => cases hpeer
  | cons target rest ih =>
      rcases List.mem_cons.mp hpeer with rfl | hrest
      · exact hkeep rest _ Std.ExtTreeMap.getElem?_insert_self
      · exact ih hrest _

theorem mapM_some {α β : Type} {f : α → Option β} {xs : List α}
    (h : ∀ x ∈ xs, ∃ y, f x = some y) : ∃ ys, xs.mapM f = some ys := by
  induction xs with
  | nil => exact ⟨[], rfl⟩
  | cons x rest ih =>
      obtain ⟨hfirst, hrest⟩ := List.forall_mem_cons.mp h
      obtain ⟨y, hy⟩ := hfirst
      obtain ⟨ys, hys⟩ := ih hrest
      exact ⟨y :: ys, by rw [List.mapM_cons, hy, hys]; rfl⟩

namespace Node

variable {node : Node}

theorem replicateTo_some {peer : NodeId} {next : Nat}
    (hnext : node.nextIndex[peer]? = some next)
    (hle : next ≤ node.lastLogIndex + 1) :
    ∃ effect, node.replicateTo peer = some effect := by
  unfold replicateTo
  rw [hnext, Option.bind_eq_bind, Option.bind_some]
  split
  · exact ⟨_, rfl⟩
  · have hslice : node.vecIndex next ≤ node.log.length := by
      unfold vecIndex
      unfold lastLogIndex at hle
      omega
    simp only [entriesFrom, if_pos hslice]
    exact ⟨_, rfl⟩

theorem broadcastReplication_some (node : Node)
    (h : ∀ peer ∈ node.replicationTargets, ∃ next,
      node.nextIndex[peer]? = some next ∧ next ≤ node.lastLogIndex + 1) :
    ∃ effects, node.broadcastReplication = some effects := by
  apply mapM_some
  intro peer hpeer
  obtain ⟨next, hnext, hle⟩ := h peer (Std.ExtTreeSet.mem_toList.mp hpeer)
  exact replicateTo_some hnext hle

/-- A winner never panics, whatever its log and configuration. -/
theorem becomeLeader_some (node : Node) :
    ∃ leader effects, node.becomeLeader = some (leader, effects) ∧
      leader.role = .leader ∧ leader.currentTerm = node.currentTerm := by
  unfold becomeLeader
  obtain ⟨effects, heffects⟩ := broadcastReplication_some
    { node with
      role := .leader
      heartbeatElapsed := 0
      nextIndex := node.replicationTargets.toList.foldl (fun progress peer =>
        progress.insert peer (node.lastLogIndex + 1)) ∅
      matchIndex := node.replicationTargets.toList.foldl (fun progress peer =>
        progress.insert peer 0) ∅ }
    (fun peer hpeer => ⟨_, getElem?_foldl_insert
      (Std.ExtTreeSet.mem_toList.mpr hpeer) _ _, le_rfl⟩)
  exact ⟨_, effects, Option.bind_eq_some_iff.mpr ⟨effects, heffects, rfl⟩,
    rfl, rfl⟩

end Node

end Kurogane.Raft
