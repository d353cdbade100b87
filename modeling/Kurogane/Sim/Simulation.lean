import Kurogane.Sim.Relation

/-!
When a batch of effects is a sequence of protocol steps. `Simulates` covers
the whole batch and every crash inside it: whatever has been written by then
stands for a history the protocol passes through. A crash between a new
snapshot and the log splice that belongs to it is left out: the log stored
then is read against the wrong boundary.
-/

namespace Kurogane.Sim

open Kurogane.Raft Kurogane.Consensus

/-- The last effect written is not a snapshot still waiting for its splice. -/
def Settled (effects : List Effect) : Prop :=
  ∀ index term data config,
    effects.getLast? ≠ some (.persistSnapshot index term data config)

instance : DecidablePred Settled := fun effects =>
  match h : effects.getLast? with
  | some (.persistSnapshot index term data config) =>
      isFalse (fun hsettled => hsettled index term data config h)
  | none | some (.send _ _) | some (.persistHardState _ _)
  | some (.persistLog _ _) | some (.persistLearners _) =>
      isTrue (fun index term data config hlast => by simp [h] at hlast)

theorem settled_nil : Settled [] := by
  simp [Settled]

theorem Settled.of_append {first second : List Effect}
    (h : Settled (first ++ second)) (hne : second ≠ []) : Settled second := by
  intro index term data config hlast
  refine h index term data config ?_
  rw [List.getLast?_append_of_ne_nil _ hne]
  exact hlast

variable (initial : ClusterConfig)

structure Simulates (h : Ghost) (node : Node) (effects : List Effect)
    (h' : Ghost) (node' : Node) : Prop where
  steps : History.Steps (membership initial) node.id h h'
  rel : NodeRel initial h' node'
  id : node'.id = node.id
  recorded : node.durable.recordAll effects = some node'.durable
  sent : ∀ receiver message, .send receiver message ∈ effects →
    MessageRel initial h' node.id receiver message
  crash : ∀ written durable, Settled (effects.take written) →
    node.durable.recordAll (effects.take written) = some durable →
    ∃ h'', History.Steps (membership initial) node.id h h'' ∧
      DurableRel initial h'' node.id durable ∧
      ∀ receiver message, .send receiver message ∈ effects.take written →
        MessageRel initial h'' node.id receiver message

variable {initial} {h h₁ h₂ h' : Ghost} {node node₁ node₂ node' : Node}
  {effects first second : List Effect}

namespace Simulates

theorem append (a : Simulates initial h node first h₁ node₁)
    (b : Simulates initial h₁ node₁ second h₂ node₂) :
    Simulates initial h node (first ++ second) h₂ node₂ := by
  have hsteps : History.Steps (membership initial) node.id h₁ h₂ :=
    a.id ▸ b.steps
  have hrecord : ∀ more, node.durable.recordAll (first ++ more) =
      node₁.durable.recordAll more := by
    intro more
    rw [Durable.recordAll_append, a.recorded]
    rfl
  refine ⟨a.steps.trans hsteps, b.rel, b.id.trans a.id, ?_, ?_, ?_⟩
  · rw [hrecord]
    exact b.recorded
  · intro receiver message hmem
    rcases List.mem_append.mp hmem with hmem | hmem
    · exact (a.sent receiver message hmem).extends hsteps.extends
    · exact a.id ▸ b.sent receiver message hmem
  · intro written durable hsettled hdurable
    rcases Nat.le_total written first.length with hle | hle
    · rw [List.take_append_of_le_length hle] at hsettled hdurable ⊢
      exact a.crash written durable hsettled hdurable
    · rw [List.take_append, List.take_of_length_le hle] at hsettled hdurable ⊢
      generalize hmore : second.take (written - first.length) = more at *
      by_cases hnil : more = []
      · subst hnil
        rw [List.append_nil] at hsettled hdurable ⊢
        have hwhole := a.crash first.length durable
        rw [List.take_length] at hwhole
        exact hwhole hsettled hdurable
      · rw [hrecord] at hdurable
        have hinner := b.crash (written - first.length) durable
        rw [hmore] at hinner
        obtain ⟨h'', hinside, hrel, hsent⟩ :=
          hinner (hsettled.of_append hnil) hdurable
        rw [a.id] at hinside hrel hsent
        refine ⟨h'', a.steps.trans hinside, hrel, ?_⟩
        intro receiver message hmem
        rcases List.mem_append.mp hmem with hmem | hmem
        · exact (a.sent receiver message hmem).extends hinside.extends
        · exact hsent receiver message hmem

/-- A batch of writes none of whose proper parts may be all that is left. -/
theorem atomic (hrel : NodeRel initial h node)
    (hsteps : History.Steps (membership initial) node.id h h')
    (hrel' : NodeRel initial h' node') (hpersists : Persists node effects node')
    (hatomic : ∀ written < effects.length,
      Settled (effects.take written) → effects.take written = []) :
    Simulates initial h node effects h' node' := by
  have hnone : ∀ receiver message, .send receiver message ∉ effects := by
    intro receiver message hmem
    have hsend := hpersists.persists _ hmem
    cases hsend
  refine ⟨hsteps, hrel', hpersists.id, hpersists.recorded, ?_, ?_⟩
  · intro receiver message hmem
    exact absurd hmem (hnone receiver message)
  · intro written durable hsettled hdurable
    rcases Nat.lt_or_ge written effects.length with hlt | hge
    · rw [hatomic written hlt hsettled] at hdurable ⊢
      cases hdurable
      exact ⟨h, .refl, hrel.durable, by simp⟩
    · rw [List.take_of_length_le hge] at hdurable ⊢
      rw [hpersists.recorded] at hdurable
      cases hdurable
      refine ⟨h', hsteps, hpersists.id ▸ hrel'.durable, ?_⟩
      intro receiver message hmem
      exact absurd hmem (hnone receiver message)

theorem quiet (hrel : NodeRel initial h node)
    (hsteps : History.Steps (membership initial) node.id h h')
    (hrel' : NodeRel initial h' node') (hid : node'.id = node.id)
    (hdurable : node'.durable = node.durable) :
    Simulates initial h node [] h' node' :=
  atomic hrel hsteps hrel' (.of_durable hid hdurable) (by simp)

theorem refl (hrel : NodeRel initial h node) :
    Simulates initial h node [] h node :=
  quiet hrel .refl hrel rfl rfl

theorem write {effect : Effect} (hrel : NodeRel initial h node)
    (hsteps : History.Steps (membership initial) node.id h h')
    (hrel' : NodeRel initial h' node')
    (hpersists : Persists node [effect] node') :
    Simulates initial h node [effect] h' node' := by
  refine atomic hrel hsteps hrel' hpersists ?_
  intro written hlt _
  obtain rfl : written = 0 := by simpa using hlt
  rfl

theorem messages (hrel : NodeRel initial h node)
    (hsends : ∀ effect ∈ effects, ∃ receiver message,
      effect = .send receiver message ∧
        MessageRel initial h node.id receiver message) :
    Simulates initial h node effects h node := by
  have hsent : ∀ receiver message, .send receiver message ∈ effects →
      MessageRel initial h node.id receiver message := by
    intro receiver message hmem
    obtain ⟨receiver', message', heq, hmessage⟩ := hsends _ hmem
    cases heq
    exact hmessage
  have hisSend : ∀ effect ∈ effects, effect.isSend = true := by
    intro effect hmem
    obtain ⟨_, _, rfl, -⟩ := hsends effect hmem
    rfl
  refine ⟨.refl, hrel, rfl, Durable.recordAll_sends _ hisSend, hsent, ?_⟩
  intro written durable _ hdurable
  have hsub : ∀ effect ∈ effects.take written, effect ∈ effects :=
    fun _ hmem => List.mem_of_mem_take hmem
  rw [Durable.recordAll_sends _ (fun e he => hisSend e (hsub e he))] at hdurable
  cases hdurable
  exact ⟨h, .refl, hrel.durable, fun r m hmem => hsent r m (hsub _ hmem)⟩

theorem reply {receiver : NodeId} {message : Message}
    (a : Simulates initial h node effects h' node')
    (hmessage : MessageRel initial h' node'.id receiver message) :
    Simulates initial h node (effects ++ [.send receiver message]) h' node' := by
  refine a.append (messages a.rel ?_)
  intro effect hmem
  rw [List.mem_singleton.mp hmem]
  exact ⟨receiver, message, rfl, hmessage⟩

end Simulates

end Kurogane.Sim
