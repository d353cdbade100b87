import Kurogane.Runtime.Storage

/-!
Batches of effects. `Persists` says that a list of writes takes the durable
state of one node to that of another, `WriteAhead` that a batch is such a list
of writes followed by messages. Both compose.
-/

namespace Kurogane.Raft

/-- `effects` are writes that take the durable state of `node` to the one of
`node'`. -/
structure Persists (node : Node) (effects : List Effect) (node' : Node) :
    Prop where
  recorded : node.durable.recordAll effects = some node'.durable
  persists : ∀ effect ∈ effects, effect.isSend = false
  id : node'.id = node.id

/-- A batch of writes followed by messages. -/
def WriteAhead (node : Node) (effects : List Effect) (node' : Node) : Prop :=
  ∃ persists sends, effects = persists ++ sends ∧
    Persists node persists node' ∧ ∀ effect ∈ sends, effect.isSend = true

namespace Persists

theorem of_durable {node node' : Node} (hid : node'.id = node.id)
    (hdurable : node'.durable = node.durable) : Persists node [] node' :=
  ⟨by rw [hdurable, Durable.recordAll_nil], by simp, hid⟩

theorem refl (node : Node) : Persists node [] node :=
  of_durable rfl rfl

theorem single {node node' : Node} {effect : Effect}
    (hrecord : node.durable.record effect = some node'.durable)
    (hpersist : effect.isSend = false) (hid : node'.id = node.id) :
    Persists node [effect] node' := by
  refine ⟨?_, by simpa using hpersist, hid⟩
  rw [Durable.recordAll_cons, hrecord]
  rfl

theorem append {node node₁ node₂ : Node} {first second : List Effect}
    (h₁ : Persists node first node₁) (h₂ : Persists node₁ second node₂) :
    Persists node (first ++ second) node₂ := by
  refine ⟨?_, ?_, h₂.id.trans h₁.id⟩
  · rw [Durable.recordAll_append, h₁.recorded]
    exact h₂.recorded
  · intro effect heffect
    rcases List.mem_append.mp heffect with h | h
    · exact h₁.persists effect h
    · exact h₂.persists effect h

theorem cons {node node₁ node₂ : Node} {effect : Effect}
    {rest : List Effect} (h₁ : Persists node [effect] node₁)
    (h₂ : Persists node₁ rest node₂) : Persists node (effect :: rest) node₂ :=
  h₁.append h₂

theorem then_volatile {node node₁ node₂ : Node} {effects : List Effect}
    (h : Persists node effects node₁) (hid : node₂.id = node₁.id)
    (hdurable : node₂.durable = node₁.durable) :
    Persists node effects node₂ := by
  simpa using h.append (of_durable hid hdurable)

theorem of_volatile {node node₁ node' : Node} {effects : List Effect}
    (h : Persists node₁ effects node') (hid : node₁.id = node.id)
    (hdurable : node₁.durable = node.durable) :
    Persists node effects node' :=
  (of_durable hid hdurable).append h

theorem hardState {node node' : Node} (hid : node'.id = node.id)
    (hdurable : node'.durable = { node.durable with
      hardState := ⟨node'.currentTerm, node'.votedFor⟩ }) :
    Persists node [node'.persistHardState] node' :=
  single (by rw [hdurable]; rfl) rfl hid

theorem writeAhead {node node' : Node} {effects : List Effect}
    (h : Persists node effects node') : WriteAhead node effects node' :=
  ⟨effects, [], by simp, h, by simp⟩

theorem sends {node node' : Node} {effects sends : List Effect}
    (h : Persists node effects node')
    (hsends : ∀ effect ∈ sends, effect.isSend = true) :
    WriteAhead node (effects ++ sends) node' :=
  ⟨effects, sends, rfl, h, hsends⟩

end Persists

namespace WriteAhead

variable {node node' : Node} {effects : List Effect}

theorem recorded (h : WriteAhead node effects node') :
    node.durable.recordAll effects = some node'.durable := by
  obtain ⟨persists, sends, rfl, hpersists, hsends⟩ := h
  rw [Durable.recordAll_append, hpersists.recorded]
  exact Durable.recordAll_sends _ hsends

theorem id (h : WriteAhead node effects node') : node'.id = node.id := by
  obtain ⟨_, _, -, hpersists, -⟩ := h
  exact hpersists.id

/-- All writes of a batch precede all its messages. -/
theorem ordered (h : WriteAhead node effects node') :
    effects.Pairwise (fun first second =>
      first.isSend = true → second.isSend = true) := by
  obtain ⟨persists, sends, rfl, hpersists, hsends⟩ := h
  refine List.pairwise_append.mpr ⟨?_, ?_, ?_⟩
  · refine List.Pairwise.imp_of_mem ?_ (List.pairwise_of_forall (fun _ _ => trivial))
    intro first second hfirst _ _ hsend
    rw [hpersists.persists first hfirst] at hsend
    cases hsend
  · refine List.Pairwise.imp_of_mem ?_ (List.pairwise_of_forall (fun _ _ => trivial))
    intro first second _ hsecond _ _
    exact hsends second hsecond
  · intro first hfirst second hsecond _
    exact hsends second hsecond

theorem refl (node : Node) : WriteAhead node [] node :=
  (Persists.refl node).writeAhead

theorem of_durable (hid : node'.id = node.id)
    (hdurable : node'.durable = node.durable)
    (hsends : ∀ effect ∈ effects, effect.isSend = true) :
    WriteAhead node effects node' :=
  (Persists.of_durable hid hdurable).sends hsends

end WriteAhead

theorem Persists.then {node node₁ node₂ : Node} {first second : List Effect}
    (h₁ : Persists node first node₁) (h₂ : WriteAhead node₁ second node₂) :
    WriteAhead node (first ++ second) node₂ := by
  obtain ⟨persists, sends, rfl, hpersists, hsends⟩ := h₂
  exact ⟨first ++ persists, sends, by simp, h₁.append hpersists, hsends⟩

theorem WriteAhead.of_volatile {node node₁ node' : Node}
    {effects : List Effect} (h : WriteAhead node₁ effects node')
    (hid : node₁.id = node.id) (hdurable : node₁.durable = node.durable) :
    WriteAhead node effects node' :=
  (Persists.of_durable hid hdurable).then h

end Kurogane.Raft
