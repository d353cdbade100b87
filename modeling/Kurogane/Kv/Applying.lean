import Kurogane.Kv.Replica
import Kurogane.Raft.CommitMoves
import Kurogane.Raft.Lockstep

/-!
What a replica applies, and when. Peers may take the commit index and the snapshot
boundary back as they like; the index applied last stays ahead of both, and what is
committed beyond it is in the log. So entries are applied one by one, in order, and
an index is left out only for a snapshot that reaches beyond it.
-/

namespace Kurogane.Kv

open Kurogane.Raft (Bytes Node NodeId Effect Event LogEntry
  bind_eq_ok bind_eq_error ok_of_toOption exists_of_any)
open Kurogane.Raft.Node (Built CommitsInside Installs)

/-- Bytes that `restore` accepts. -/
def Restorable (bytes : Bytes) : Prop :=
  ((readEntries bytes.length (ByteReader.new bytes) ∅).bind Except.toOption).isSome = true

instance : DecidablePred Restorable :=
  fun _ => inferInstanceAs (Decidable (_ = _))

/-- A snapshot in a peer's message is well formed. -/
def Request.WellFormed : Request → Prop
  | .step (.step _ (.installSnapshot request)) => Restorable request.data
  | _ => True

def Delivery.index : Delivery → Nat
  | .restored boundary => boundary
  | .applied index _ _ => index
  | .skipped index => index

/-- From `first` to `last` every index is delivered, but for those a snapshot jumps
over. -/
inductive Consecutive : Nat → List Delivery → Nat → Prop
  | nil {first : Nat} : Consecutive first [] first
  | restored {first boundary last : Nat} {rest : List Delivery} : first < boundary →
      Consecutive boundary rest last → Consecutive first (.restored boundary :: rest) last
  | applied {first last : Nat} {command : Command} {result : ApplyResult}
      {rest : List Delivery} : Consecutive (first + 1) rest last →
      Consecutive first (.applied (first + 1) command result :: rest) last
  | skipped {first last : Nat} {rest : List Delivery} : Consecutive (first + 1) rest last →
      Consecutive first (.skipped (first + 1) :: rest) last

/-- Every result is of a command applied at its index, and no later jump went as
far. -/
def Recorded (results : Results) (deliveries : List Delivery) : Prop :=
  ∀ (index : Nat) (result : ApplyResult), results[index]? = some result →
    ∃ before command after, deliveries = before ++ .applied index command result :: after ∧
      ∀ boundary, .restored boundary ∈ after → boundary < index

namespace Consecutive

variable {first middle last : Nat} {deliveries later : List Delivery}

theorem le (h : Consecutive first deliveries last) : first ≤ last := by
  induction h with
  | nil => exact Nat.le_refl _
  | restored hlt _ ih => exact hlt.le.trans ih
  | applied _ ih => omega
  | skipped _ ih => omega

theorem append (h : Consecutive first deliveries middle)
    (hlater : Consecutive middle later last) :
    Consecutive first (deliveries ++ later) last := by
  induction h with
  | nil => exact hlater
  | restored hlt _ ih => exact .restored hlt (ih hlater)
  | applied _ ih => exact .applied (ih hlater)
  | skipped _ ih => exact .skipped (ih hlater)

/-- Each index comes at most once, and in order. -/
theorem increasing (h : Consecutive first deliveries last) :
    (deliveries.map Delivery.index).Pairwise (· < ·) ∧
      ∀ delivery ∈ deliveries, first < delivery.index := by
  have hcons : ∀ {start : Nat} {delivery : Delivery} {rest : List Delivery},
      start < delivery.index →
      (rest.map Delivery.index).Pairwise (· < ·) ∧
        (∀ other ∈ rest, delivery.index < other.index) →
      ((delivery :: rest).map Delivery.index).Pairwise (· < ·) ∧
        ∀ other ∈ delivery :: rest, start < other.index := by
    rintro start delivery rest hstart ⟨hpairwise, hbeyond⟩
    refine ⟨?_, ?_⟩
    · rw [List.map_cons, List.pairwise_cons]
      refine ⟨?_, hpairwise⟩
      rintro index hmem
      obtain ⟨other, hother, rfl⟩ := List.mem_map.mp hmem
      exact hbeyond other hother
    · rw [List.forall_mem_cons]
      exact ⟨hstart, fun other hother => hstart.trans (hbeyond other hother)⟩
  induction h with
  | nil => exact ⟨.nil, nofun⟩
  | restored hlt _ ih => exact hcons hlt ih
  | applied _ ih => exact hcons (Nat.lt_succ_self _) ih
  | skipped _ ih => exact hcons (Nat.lt_succ_self _) ih

end Consecutive

namespace Recorded

variable {results : Results} {deliveries : List Delivery} {index : Nat}

theorem empty : Recorded ∅ deliveries := by
  intro index result hresult
  rw [Std.ExtTreeMap.getElem?_empty] at hresult
  cases hresult

/-- A delivery that is no jump takes nothing away. -/
theorem snoc (h : Recorded results deliveries) (delivery : Delivery)
    (hstays : ∀ boundary, delivery ≠ .restored boundary) :
    Recorded results (deliveries ++ [delivery]) := by
  intro index result hresult
  obtain ⟨before, command, after, rfl, hafter⟩ := h index result hresult
  refine ⟨before, command, after ++ [delivery], by simp, fun boundary hmem => ?_⟩
  rcases List.mem_append.mp hmem with hold | hnew
  · exact hafter boundary hold
  · exact absurd (List.mem_singleton.mp hnew).symm (hstays boundary)

theorem applied (h : Recorded results deliveries) (command : Command)
    (result : ApplyResult) :
    Recorded (results.insert index result)
      (deliveries ++ [.applied index command result]) := by
  intro found other hresult
  rw [Std.ExtTreeMap.getElem?_insert] at hresult
  split at hresult
  · rename_i hsame
    obtain rfl := Std.LawfulEqCmp.eq_of_compare hsame
    cases hresult
    exact ⟨deliveries, command, [], rfl, nofun⟩
  · exact h.snoc (.applied index command result) (fun boundary => nofun) found other hresult

theorem restored (h : Recorded results deliveries) (boundary : Nat) :
    Recorded (results.filter (fun index _ => boundary < index))
      (deliveries ++ [.restored boundary]) := by
  intro index result hresult
  rw [Std.ExtTreeMap.getElem?_filter', Option.filter_eq_some_iff] at hresult
  obtain ⟨hheld, habove⟩ := hresult
  obtain ⟨before, command, after, rfl, hafter⟩ := h index result hheld
  refine ⟨before, command, after ++ [.restored boundary], by simp, fun other hmem => ?_⟩
  rcases List.mem_append.mp hmem with hold | hnew
  · exact hafter other hold
  · cases List.mem_singleton.mp hnew
    exact of_decide_eq_true habove

end Recorded

section Restoring

variable {machine restored : StateMachine} {lastApplied : Nat} {bytes : Bytes}

theorem mustRestore_ok (machine : StateMachine) (lastApplied : Nat)
    (h : Restorable bytes) :
    ∃ restored, machine.mustRestore lastApplied bytes = .ok restored := by
  obtain ⟨entries, hentries⟩ := Option.isSome_iff_exists.mp h
  obtain ⟨outcome, hread, hok⟩ := Option.bind_eq_some_iff.mp hentries
  rw [ok_of_toOption hok] at hread
  refine ⟨⟨entries, lastApplied⟩, ?_⟩
  unfold StateMachine.mustRestore StateMachine.restore
  rw [hread]

theorem mustRestore_lastApplied
    (h : machine.mustRestore lastApplied bytes = .ok restored) :
    restored.lastApplied = lastApplied := by
  unfold StateMachine.mustRestore at h
  split at h
  · rename_i next hrestore
    cases h
    rcases StateMachine.restore_cases hrestore with ⟨error, herror, -⟩ | ⟨-, happlied⟩
    · cases herror
    · exact happlied
  · cases h

theorem mustRestore_error {panic : Panic}
    (h : machine.mustRestore lastApplied bytes = .error panic) : panic = .snapshotBytes := by
  unfold StateMachine.mustRestore at h
  split at h
  · cases h
  · cases h
    rfl

end Restoring

namespace Replica

variable {replica next : Replica} {deliveries : List Delivery} {request : Request}
  {panic : Panic}

/-- All that a replica has committed it has applied, and no snapshot is ahead of it. -/
structure Drained (replica : Replica) : Prop where
  boundary : replica.node.snapshot.lastIncludedIndex ≤ replica.lastApplied
  commit : replica.node.commitIndex ≤ replica.lastApplied

/-! ### Draining -/

theorem jump_cases (h : replica.jump = .ok (next, deliveries)) :
    (replica.node.snapshot.lastIncludedIndex ≤ replica.lastApplied ∧ next = replica ∧
        deliveries = []) ∨
      (replica.lastApplied < replica.node.snapshot.lastIncludedIndex ∧ ∃ machine,
        replica.stateMachine.mustRestore replica.node.snapshot.lastIncludedIndex
          replica.node.snapshotData = .ok machine ∧
        next = { replica with
          stateMachine := machine
          results := replica.results.filter
            (fun index _ => replica.node.snapshot.lastIncludedIndex < index) } ∧
        deliveries = [.restored replica.node.snapshot.lastIncludedIndex]) := by
  unfold jump at h
  dsimp only at h
  split at h
  · rename_i hahead
    obtain ⟨machine, hmachine, h⟩ := bind_eq_ok h
    cases h
    exact Or.inr ⟨hahead, machine, hmachine, rfl, rfl⟩
  · rename_i hbehind
    cases h
    exact Or.inl ⟨Nat.not_lt.mp hbehind, rfl, rfl⟩

/-- After the jump no snapshot is ahead. -/
theorem jump_spec (h : replica.jump = .ok (next, deliveries)) :
    next.node = replica.node ∧
      next.node.snapshot.lastIncludedIndex ≤ next.lastApplied ∧
      Consecutive replica.lastApplied deliveries next.lastApplied ∧
      ∀ past, Recorded replica.results past → Recorded next.results (past ++ deliveries) := by
  rcases jump_cases h with ⟨hle, rfl, rfl⟩ | ⟨hlt, machine, hmachine, rfl, rfl⟩
  · refine ⟨rfl, hle, .nil, fun past hpast => ?_⟩
    rw [List.append_nil]
    exact hpast
  · have happlied := mustRestore_lastApplied hmachine
    refine ⟨rfl, happlied.ge, ?_, fun past hpast => hpast.restored _⟩
    unfold lastApplied at hlt ⊢
    rw [happlied]
    exact .restored hlt .nil

theorem Applies.spec (h : Applies replica deliveries next) :
    next.node = replica.node ∧
      Consecutive replica.lastApplied deliveries next.lastApplied ∧
      ∀ past, Recorded replica.results past → Recorded next.results (past ++ deliveries) := by
  induction h with
  | done =>
      refine ⟨rfl, .nil, fun past hpast => ?_⟩
      rw [List.append_nil]
      exact hpast
  | next hbehind hnext _ ih =>
      obtain ⟨hnode, hconsecutive, hrecorded⟩ := ih
      obtain ⟨hsame, happlied⟩ := applyNext_lastApplied hnext
      rw [happlied] at hconsecutive
      obtain ⟨entry, -, ⟨bytes, command, -, -, rfl, rfl⟩ | ⟨-, rfl, rfl⟩⟩ :=
        applyNext_cases hnext
      · refine ⟨hnode.trans hsame, .applied hconsecutive, fun past hpast => ?_⟩
        rw [List.append_cons]
        exact hrecorded _ (hpast.applied command _)
      · refine ⟨hnode.trans hsame, .skipped hconsecutive, fun past hpast => ?_⟩
        rw [List.append_cons]
        exact hrecorded _ (hpast.snoc _ (fun boundary => nofun))

/-- No more is applied than is committed. -/
theorem Applies.reached (h : Applies replica deliveries next) :
    next.lastApplied = replica.lastApplied ∨ next.lastApplied ≤ next.node.commitIndex := by
  induction h with
  | done => exact Or.inl rfl
  | next hbehind hnext happlies ih =>
      obtain ⟨hnode, happlied⟩ := applyNext_lastApplied hnext
      refine Or.inr (ih.elim (fun hsame => ?_) id)
      rw [hsame, happlies.spec.1, hnode, happlied]
      exact hbehind

theorem drainCommitted_spec (h : replica.drainCommitted = .ok (next, deliveries)) :
    next.node = replica.node ∧ next.Drained ∧
      Consecutive replica.lastApplied deliveries next.lastApplied ∧
      ∀ past, Recorded replica.results past → Recorded next.results (past ++ deliveries) := by
  obtain ⟨⟨middle, jumped⟩, hjump, h⟩ := bind_eq_ok h
  obtain ⟨⟨last, applied⟩, hloop, h⟩ := bind_eq_ok h
  cases h
  obtain ⟨hnode, hboundary, hjumped, hrecorded⟩ := jump_spec hjump
  obtain ⟨happlies, hends⟩ := applyCommitted_applies hloop
  obtain ⟨hnode', happlied, hrecorded'⟩ := happlies.spec
  refine ⟨hnode'.trans hnode, ⟨?_, hends (Nat.le_refl _)⟩, hjumped.append happlied,
    fun past hpast => ?_⟩
  · rw [hnode']
    exact hboundary.trans happlied.le
  · rw [← List.append_assoc]
    exact hrecorded' _ (hrecorded past hpast)

/-- Draining panics of a command at most, if the snapshot it jumps to is well formed
and what is committed beyond it is in the log. -/
theorem drainCommitted_error
    (hjumps : replica.lastApplied < replica.node.snapshot.lastIncludedIndex →
      Restorable replica.node.snapshotData)
    (hheld : ∀ index, replica.lastApplied < index →
      replica.node.snapshot.lastIncludedIndex < index →
      index ≤ replica.node.commitIndex → ∃ entry, replica.node.entryAt index = some entry)
    (h : replica.drainCommitted = .error panic) : panic = .commandBytes := by
  rcases bind_eq_error h with hjump | ⟨⟨middle, jumped⟩, hjump, h⟩
  · unfold jump at hjump
    dsimp only at hjump
    split at hjump
    · rename_i hahead
      obtain ⟨restored, hrestored⟩ := mustRestore_ok replica.stateMachine
        replica.node.snapshot.lastIncludedIndex (hjumps hahead)
      rw [hrestored] at hjump
      cases hjump
    · cases hjump
  · obtain ⟨hnode, hboundary, hjumped, -⟩ := jump_spec hjump
    rcases bind_eq_error h with hloop | ⟨⟨last, applied⟩, -, h⟩
    · refine applyCommitted_error (fun index hlow hhigh => ?_) hloop
      rw [hnode] at hboundary hhigh ⊢
      exact hheld index (hjumped.le.trans_lt hlow) (hboundary.trans_lt hlow) hhigh
    · cases h

/-! ### Requests -/

/-- The node's own transition for a request, where the node takes one. -/
inductive Serves (replica : Replica) : Request → Node → Prop
  | step {event : Event} {node : Node} {effects : List Effect} :
      replica.node.step event = some (node, effects) → Serves replica (.step event) node
  | propose {command : Command} {node : Node} {index : Nat} {effects : List Effect} :
      replica.node.propose command.encode = some (some (node, index, effects)) →
      Serves replica (.propose command) node
  | proposeConfigChange {newVoters : List NodeId} {node : Node} {index : Nat}
      {effects : List Effect} :
      replica.node.proposeConfigChange newVoters = some (some (node, index, effects)) →
      Serves replica (.proposeConfigChange newVoters) node
  | addLearner {id : NodeId} : Serves replica (.addLearner id) (replica.node.addLearner id).1
  | removeLearner {id : NodeId} :
      Serves replica (.removeLearner id) (replica.node.removeLearner id).1

/-- What compaction makes of a replica: the map as it is, at a boundary it has
applied. -/
inductive Compacts (replica next : Replica) (retain : Nat) : Prop
  | mk {node : Node} {effects : List Effect} :
      replica.node.snapshot.lastIncludedIndex < replica.lastApplied - retain →
      replica.node.compact (replica.lastApplied - retain) replica.stateMachine.snapshot =
        some (.ok (node, effects)) →
      next = { replica with node } → Compacts replica next retain

theorem compact_compacts {retain : Nat} {answer : Option (List Effect)}
    (h : replica.compact retain = .ok (next, answer)) :
    (next = replica ∧ answer = none) ∨ Compacts replica next retain := by
  unfold compact at h
  dsimp only at h
  split at h
  · cases h
    exact Or.inl ⟨rfl, rfl⟩
  rename_i hdue
  split at h
  · cases h
  · cases h
  · rename_i node effects hcompact
    cases h
    exact Or.inr (.mk (by omega) hcompact rfl)

/-- A request is drained after, declined, or a compaction. -/
theorem perform_cases (h : replica.perform request = .ok (next, deliveries)) :
    (∃ node, replica.Serves request node ∧
        { replica with node }.drainCommitted = .ok (next, deliveries)) ∨
      (deliveries = [] ∧ (next = replica ∨ ∃ retain, request = .compact retain ∧
        Compacts replica next retain)) := by
  cases request with
  | step event =>
      obtain ⟨⟨last, effects, delivered⟩, hstep, h⟩ := bind_eq_ok h
      cases h
      unfold step at hstep
      split at hstep
      · cases hstep
      · rename_i node effects' hnode
        obtain ⟨⟨last, delivered⟩, hdrain, hstep⟩ := bind_eq_ok hstep
        cases hstep
        exact Or.inl ⟨node, .step hnode, hdrain⟩
  | propose command =>
      obtain ⟨⟨last, effects, delivered⟩, hstep, h⟩ := bind_eq_ok h
      cases h
      unfold propose at hstep
      split at hstep
      · cases hstep
      · cases hstep
        exact Or.inr ⟨rfl, Or.inl rfl⟩
      · rename_i node index effects' hnode
        obtain ⟨⟨last, delivered⟩, hdrain, hstep⟩ := bind_eq_ok hstep
        cases hstep
        exact Or.inl ⟨node, .propose hnode, hdrain⟩
  | proposeConfigChange newVoters =>
      obtain ⟨⟨last, effects, delivered⟩, hstep, h⟩ := bind_eq_ok h
      cases h
      unfold proposeConfigChange at hstep
      split at hstep
      · cases hstep
      · cases hstep
        exact Or.inr ⟨rfl, Or.inl rfl⟩
      · rename_i node index effects' hnode
        obtain ⟨⟨last, delivered⟩, hdrain, hstep⟩ := bind_eq_ok hstep
        cases hstep
        exact Or.inl ⟨node, .proposeConfigChange hnode, hdrain⟩
  | addLearner id =>
      obtain ⟨⟨last, effects, delivered⟩, hstep, h⟩ := bind_eq_ok h
      cases h
      obtain ⟨⟨last, delivered⟩, hdrain, hstep⟩ := bind_eq_ok hstep
      cases hstep
      exact Or.inl ⟨_, .addLearner, hdrain⟩
  | removeLearner id =>
      obtain ⟨⟨last, effects, delivered⟩, hstep, h⟩ := bind_eq_ok h
      cases h
      obtain ⟨⟨last, delivered⟩, hdrain, hstep⟩ := bind_eq_ok hstep
      cases hstep
      exact Or.inl ⟨_, .removeLearner, hdrain⟩
  | compact retain =>
      obtain ⟨⟨last, answer⟩, hcompact, h⟩ := bind_eq_ok h
      cases h
      rcases compact_compacts hcompact with ⟨rfl, -⟩ | hcompacts
      · exact Or.inr ⟨rfl, Or.inl rfl⟩
      · exact Or.inr ⟨rfl, Or.inr ⟨retain, rfl, hcompacts⟩⟩

/-- What has been applied stays applied. -/
theorem lastApplied_le (h : replica.perform request = .ok (next, deliveries)) :
    replica.lastApplied ≤ next.lastApplied := by
  rcases perform_cases h with ⟨node, -, hdrain⟩ | ⟨-, rfl | ⟨retain, -, -, -, rfl⟩⟩
  · exact (drainCommitted_spec hdrain).2.2.1.le
  · exact Nat.le_refl _
  · exact Nat.le_refl _

/-- A panic that is not the node's, nor that of a compaction, comes from draining. -/
theorem perform_error (h : replica.perform request = .error panic)
    (hnode : panic ≠ .node) (hcompact : panic ≠ .indexNotCommitted) :
    ∃ node, replica.Serves request node ∧
      { replica with node }.drainCommitted = .error panic := by
  cases request with
  | step event =>
      rcases bind_eq_error h with hstep | ⟨served, -, h⟩
      · unfold step at hstep
        split at hstep
        · cases hstep
          exact absurd rfl hnode
        · rename_i node effects hserved
          rcases bind_eq_error hstep with hdrain | ⟨drained, -, hstep⟩
          · exact ⟨node, .step hserved, hdrain⟩
          · cases hstep
      · cases h
  | propose command =>
      rcases bind_eq_error h with hstep | ⟨served, -, h⟩
      · unfold propose at hstep
        split at hstep
        · cases hstep
          exact absurd rfl hnode
        · cases hstep
        · rename_i node index effects hserved
          rcases bind_eq_error hstep with hdrain | ⟨drained, -, hstep⟩
          · exact ⟨node, .propose hserved, hdrain⟩
          · cases hstep
      · cases h
  | proposeConfigChange newVoters =>
      rcases bind_eq_error h with hstep | ⟨served, -, h⟩
      · unfold proposeConfigChange at hstep
        split at hstep
        · cases hstep
          exact absurd rfl hnode
        · cases hstep
        · rename_i node index effects hserved
          rcases bind_eq_error hstep with hdrain | ⟨drained, -, hstep⟩
          · exact ⟨node, .proposeConfigChange hserved, hdrain⟩
          · cases hstep
      · cases h
  | addLearner id =>
      rcases bind_eq_error h with hstep | ⟨served, -, h⟩
      · rcases bind_eq_error hstep with hdrain | ⟨drained, -, hstep⟩
        · exact ⟨_, .addLearner, hdrain⟩
        · cases hstep
      · cases h
  | removeLearner id =>
      rcases bind_eq_error h with hstep | ⟨served, -, h⟩
      · rcases bind_eq_error hstep with hdrain | ⟨drained, -, hstep⟩
        · exact ⟨_, .removeLearner, hdrain⟩
        · cases hstep
      · cases h
  | compact retain =>
      rcases bind_eq_error h with hstep | ⟨served, -, h⟩
      · unfold compact at hstep
        dsimp only at hstep
        split at hstep
        · cases hstep
        split at hstep
        · cases hstep
          exact absurd rfl hnode
        · cases hstep
          exact absurd rfl hcompact
        · cases hstep
      · cases h

/-- The request of a replica that its node serves. -/
theorem step_served {event : Event} {effects : List Effect}
    {deliveries : List Delivery} (h : replica.step event = .ok (next, effects, deliveries)) :
    replica.node.step event = some (next.node, effects) ∧
      replica.perform (.step event) = .ok (next, deliveries) := by
  refine ⟨?_, by rw [perform, h]; rfl⟩
  unfold step at h
  split at h
  · cases h
  rename_i node emitted hnode
  obtain ⟨⟨last, delivered⟩, hdrain, h⟩ := bind_eq_ok h
  cases h
  rw [hnode, (drainCommitted_spec hdrain).1]

/-- The proposal of a replica that its node takes in. -/
theorem propose_served {command : Command} {index : Nat}
    {effects : List Effect} {deliveries : List Delivery}
    (h : replica.propose command = .ok (next, some (index, effects), deliveries)) :
    replica.node.propose command.encode = some (some (next.node, index, effects)) ∧
      replica.perform (.propose command) = .ok (next, deliveries) := by
  refine ⟨?_, by rw [perform, h]; rfl⟩
  unfold propose at h
  split at h
  · cases h
  · cases h
  rename_i node emitted hnode
  obtain ⟨⟨last, delivered⟩, hdrain, h⟩ := bind_eq_ok h
  cases h
  rw [hnode, (drainCommitted_spec hdrain).1]

theorem propose_declined {command : Command}
    {deliveries : List Delivery} (h : replica.propose command = .ok (next, none, deliveries)) :
    next = replica := by
  unfold propose at h
  split at h
  · cases h
  · cases h
    rfl
  · obtain ⟨drained, -, h⟩ := bind_eq_ok h
    cases h

theorem Serves.inside {node : Node} (h : replica.Serves request node) :
    (node.snapshot = replica.node.snapshot ∧ replica.node.CommitsInside node) ∨
      ∃ event, request = .step event ∧ replica.node.Installs node event := by
  cases h with
  | step hstep =>
      rcases Kurogane.Raft.Node.step_inside hstep with hinside | hinstalls
      · exact Or.inl hinside
      · exact Or.inr ⟨_, rfl, hinstalls⟩
  | propose hpropose =>
      obtain ⟨-, more, happends, -⟩ := Kurogane.Raft.Node.propose_appends hpropose
      exact Or.inl ⟨happends.snapshot, Kurogane.Raft.Node.propose_inside hpropose⟩
  | proposeConfigChange hpropose =>
      obtain ⟨-, -, -, more, happends, -⟩ :=
        Kurogane.Raft.Node.proposeConfigChange_appends hpropose
      exact Or.inl ⟨happends.snapshot, Kurogane.Raft.Node.proposeConfigChange_inside hpropose⟩
  | addLearner =>
      unfold Node.addLearner
      split <;> exact Or.inl ⟨rfl, Or.inl rfl⟩
  | removeLearner =>
      unfold Node.removeLearner
      split <;> exact Or.inl ⟨rfl, Or.inl rfl⟩

/-- The index of the last entry in the log is found in it, and all below it that are
above the boundary. -/
theorem entry_held {node : Node} {index : Nat}
    (hlow : node.snapshot.lastIncludedIndex < index) (hhigh : index ≤ node.lastLogIndex) :
    ∃ entry, node.entryAt index = some entry := by
  obtain ⟨hlt, hentry⟩ := Kurogane.Raft.Node.entryAt_above hlow hhigh
  exact ⟨_, hentry⟩

namespace Drained

/-- Whatever a request has done to the node, what is newly committed is there to be
applied. -/
theorem perform_error (h : replica.Drained) (hformed : request.WellFormed)
    (hperform : replica.perform request = .error panic) :
    panic = .node ∨ panic = .indexNotCommitted ∨ panic = .commandBytes := by
  by_cases hnode : panic = .node
  · exact Or.inl hnode
  by_cases hcompact : panic = .indexNotCommitted
  · exact Or.inr (Or.inl hcompact)
  obtain ⟨node, hserves, hdrain⟩ := Replica.perform_error hperform hnode hcompact
  have hboundary := h.boundary
  have hcommit := h.commit
  refine Or.inr (Or.inr (drainCommitted_error ?_ ?_ hdrain))
  · intro hahead
    show Restorable node.snapshotData
    have hahead' : replica.lastApplied < node.snapshot.lastIncludedIndex := hahead
    rcases hserves.inside with ⟨hsnapshot, -⟩ | ⟨event, rfl, hinstalls⟩
    · rw [hsnapshot] at hahead'
      omega
    · obtain ⟨-, hdata, -⟩ := hinstalls
      rw [hdata]
      exact hformed
  · intro index hlow hbeyond hhigh
    have hlow' : replica.lastApplied < index := hlow
    have hbeyond' : node.snapshot.lastIncludedIndex < index := hbeyond
    have hhigh' : index ≤ node.commitIndex := hhigh
    rcases hserves.inside with ⟨-, hsame | hinside⟩ | ⟨event, rfl, hinstalls⟩
    · omega
    · exact entry_held hbeyond' (hhigh'.trans hinside)
    · obtain ⟨hindex, -, hmax⟩ := hinstalls
      omega

theorem perform (h : replica.Drained)
    (hperform : replica.perform request = .ok (next, deliveries)) :
    next.Drained ∧ Consecutive replica.lastApplied deliveries next.lastApplied ∧
      ∀ past, Recorded replica.results past → Recorded next.results (past ++ deliveries) := by
  rcases perform_cases hperform with ⟨node, -, hdrain⟩ | ⟨rfl, hrest⟩
  · obtain ⟨-, hdrained, hconsecutive, hrecorded⟩ := drainCommitted_spec hdrain
    exact ⟨hdrained, hconsecutive, hrecorded⟩
  · have hsame : next.stateMachine = replica.stateMachine ∧
        next.results = replica.results ∧ next.Drained := by
      rcases hrest with rfl | ⟨retain, -, ⟨habove, hcompact, rfl⟩⟩
      · exact ⟨rfl, rfl, h⟩
      · refine ⟨rfl, rfl, ?_⟩
        rcases Kurogane.Raft.Node.compact_cases hcompact with ⟨-, rfl, -⟩ |
          ⟨term, config, log, -, -, -, -, -, rfl, -⟩
        · exact h
        · exact ⟨Nat.sub_le _ _, h.commit⟩
    obtain ⟨hmachine, hresults, hdrained⟩ := hsame
    have happlied : next.lastApplied = replica.lastApplied :=
      congrArg StateMachine.lastApplied hmachine
    refine ⟨hdrained, ?_, fun past hpast => ?_⟩
    · rw [happlied]
      exact .nil
    · rw [hresults, List.append_nil]
      exact hpast

theorem performAll {requests : List Request} (h : replica.Drained)
    (hrun : replica.performAll requests = .ok (next, deliveries)) :
    next.Drained ∧ Consecutive replica.lastApplied deliveries next.lastApplied ∧
      ∀ past, Recorded replica.results past → Recorded next.results (past ++ deliveries) := by
  induction requests generalizing replica deliveries with
  | nil =>
      cases hrun
      refine ⟨h, .nil, fun past hpast => ?_⟩
      rw [List.append_nil]
      exact hpast
  | cons request rest ih =>
      obtain ⟨⟨middle, first⟩, hfirst, hrun⟩ := bind_eq_ok hrun
      obtain ⟨⟨last, later⟩, hlater, hrun⟩ := bind_eq_ok hrun
      cases hrun
      obtain ⟨hmiddle, hconsecutive, hrecorded⟩ := h.perform hfirst
      obtain ⟨hlast, hconsecutive', hrecorded'⟩ := ih hmiddle hlater
      refine ⟨hlast, hconsecutive.append hconsecutive', fun past hpast => ?_⟩
      rw [← List.append_assoc]
      exact hrecorded' _ (hrecorded past hpast)

end Drained

/-- A node that has just been built has committed as far as its snapshot reaches. -/
theorem built_commitIndex {node : Node} (h : Built node) :
    node.commitIndex = node.snapshot.lastIncludedIndex := by
  have hrecovered : ∀ {id peers electionTimeout heartbeatInterval hardState log snapshot
      learners}, Node.recover id peers electionTimeout heartbeatInterval hardState log
        snapshot learners = .ok node →
      node.commitIndex = node.snapshot.lastIncludedIndex := by
    intro id peers electionTimeout heartbeatInterval hardState log snapshot learners hbuilt
    obtain ⟨-, -, -, -, hcommit, hdurable, -⟩ := Kurogane.Raft.Node.recover_ok hbuilt
    have hsnapshot : node.snapshot = snapshot.metadata :=
      congrArg (fun durable => durable.snapshot.metadata) hdurable
    rw [hcommit, hsnapshot]
  cases h with
  | new hnew => exact hrecovered hnew
  | recover hbuilt => exact hrecovered hbuilt
  | newLearner hlearner =>
      unfold Node.newLearner at hlearner
      split at hlearner
      · cases hlearner
      split at hlearner
      · cases hlearner
      split at hlearner
      · cases hlearner
      cases hlearner
      rfl

theorem recover_drained {node : Node} (hbuilt : Built node)
    (h : recover node = .ok replica) : replica.Drained ∧ replica.results = ∅ := by
  have hcommit := built_commitIndex hbuilt
  obtain ⟨machine, rfl, happlied⟩ : ∃ machine, replica = ⟨node, machine, ∅⟩ ∧
      machine.lastApplied = node.snapshot.lastIncludedIndex := by
    unfold recover at h
    split at h
    · obtain ⟨machine, hmachine, h⟩ := bind_eq_ok h
      cases h
      exact ⟨machine, rfl, mustRestore_lastApplied hmachine⟩
    · rename_i hnone
      cases h
      exact ⟨.new, rfl, (Nat.eq_zero_of_not_pos hnone).symm⟩
  rw [← happlied] at hcommit
  exact ⟨⟨happlied.ge, hcommit.le⟩, rfl⟩

/-- Whatever its peers send, a replica finds all that it has to apply; it applies
index after index, each once, and jumps only ahead; and the results it keeps are
those of commands it has applied above every later jump. -/
theorem committed_applied_once {node : Node} {start : Replica} {requests : List Request}
    (hbuilt : Built node) (hrecover : recover node = .ok start)
    (hrun : start.performAll requests = .ok (replica, deliveries)) :
    Consecutive start.lastApplied deliveries replica.lastApplied ∧
      (deliveries.map Delivery.index).Pairwise (· < ·) ∧
      replica.node.snapshot.lastIncludedIndex ≤ replica.lastApplied ∧
      Recorded replica.results deliveries ∧
      ∀ request : Request,
        (request.WellFormed → replica.perform request ≠ .error .entryMissing ∧
          replica.perform request ≠ .error .snapshotBytes) ∧
        ∀ next later, replica.perform request = .ok (next, later) →
          replica.lastApplied ≤ next.lastApplied ∧
            next.node.snapshot.lastIncludedIndex ≤ next.lastApplied := by
  obtain ⟨hstart, hempty⟩ := recover_drained hbuilt hrecover
  obtain ⟨hdrained, hconsecutive, hrecorded⟩ := hstart.performAll hrun
  refine ⟨hconsecutive, hconsecutive.increasing.1, hdrained.boundary, ?_,
    fun request => ⟨fun hformed => ?_, fun next later hperform => ?_⟩⟩
  · have hnone : Recorded start.results [] := by
      rw [hempty]
      exact .empty
    exact hrecorded [] hnone
  · have hnever : ∀ panic, replica.perform request = .error panic →
        panic = .node ∨ panic = .indexNotCommitted ∨ panic = .commandBytes :=
      fun panic hpanic => hdrained.perform_error hformed hpanic
    exact ⟨fun hpanic => by simpa using hnever _ hpanic,
      fun hpanic => by simpa using hnever _ hpanic⟩
  · obtain ⟨hnext, happlied, -⟩ := hdrained.perform hperform
    exact ⟨happlied.le, hnext.boundary⟩

/-- A command applied; then a newer leader replaces its entry, and at last sends a
snapshot. -/
def disturbances : List Request :=
  [.step (.step ⟨1⟩ (.appendEntries
      ⟨1, ⟨1⟩, 0, 0, [⟨1, .command (Command.set [7] [8]).encode⟩], 1⟩)),
    .step (.step ⟨3⟩ (.appendEntries
      ⟨2, ⟨3⟩, 0, 0, [⟨2, .command (Command.delete [7]).encode⟩], 1⟩)),
    .step (.step ⟨3⟩ (.installSnapshot
      ⟨2, ⟨3⟩, 3, 2, encodeEntry ([7], [9]), ⟨[⟨1⟩, ⟨2⟩, ⟨3⟩], none⟩⟩))]

theorem disturbed_replica_applies_once : ∃ node start replica deliveries,
    Node.new ⟨2⟩ [⟨1⟩, ⟨2⟩, ⟨3⟩] 1 1 = .ok node ∧ recover node = .ok start ∧
      start.performAll disturbances = .ok (replica, deliveries) ∧
      deliveries = [.applied 1 (.set [7] [8]) (.set none), .restored 3] ∧
      Consecutive 0 deliveries 3 ∧ Recorded replica.results deliveries ∧
      ∀ event, replica.perform (.step (.tick event)) ≠ .error .entryMissing := by
  have hrun : (((Node.new ⟨2⟩ [⟨1⟩, ⟨2⟩, ⟨3⟩] 1 1).toOption.bind (fun node =>
      (recover node).toOption.bind (fun start =>
        (start.performAll disturbances).toOption.map (fun last => (node, start, last))))).any
      (fun found => decide (found.2.1.lastApplied = 0 ∧ found.2.2.1.lastApplied = 3 ∧
        found.2.2.2 = [.applied 1 (.set [7] [8]) (.set none), .restored 3]))) = true := by
    decide +kernel
  obtain ⟨⟨node, start, replica, deliveries⟩, hfound, hfirst, hlast, hdeliveries⟩ :=
    exists_of_any hrun
  obtain ⟨node, hnew, hfound⟩ := Option.bind_eq_some_iff.mp hfound
  obtain ⟨start, hrecover, hfound⟩ := Option.bind_eq_some_iff.mp hfound
  obtain ⟨last, hrun, hfound⟩ := Option.map_eq_some_iff.mp hfound
  cases hfound
  have hbuilt := ok_of_toOption hnew
  have hstart := ok_of_toOption hrecover
  have hperformed := ok_of_toOption hrun
  obtain ⟨hconsecutive, -, -, hrecorded, hnever⟩ :=
    committed_applied_once (.new hbuilt) hstart hperformed
  rw [hfirst, hlast] at hconsecutive
  exact ⟨node, start, replica, deliveries, hbuilt, hstart, hperformed, hdeliveries,
    hconsecutive, hrecorded, fun event => ((hnever (.step (.tick event))).1 trivial).1⟩

end Replica

end Kurogane.Kv
