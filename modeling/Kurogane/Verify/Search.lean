import Kurogane.Verify.Checker

/-!
What the checker's search decides. The pending set of a mask is a set of
labelled operations; the search answers whether it can be linearized, as long
as no two of the states it hashes collide.
-/

namespace Kurogane.Verify

open Kurogane.Kv

/-- The operations of a history, labelled by their bits, on the sequential
object. -/
def task : Task StateMachine (Op × Nat) where
  optional x := x.1.optional
  precedes x y := precedes x.1 y.1
  replay machine x :=
    if x.1.expected.all (fun expected => (machine.apply x.1.command).2 = expected) then
      some (machine.apply x.1.command).1
    else none
  definite x y hprecedes hoptional := by
    simp [precedes, hoptional] at hprecedes

def pendingOf (ops : List Op) (mask : Mask) : Finset (Op × Nat) :=
  (ops.zipIdx.filter (fun x => mask.getLsbD x.2)).toFinset

/-- No bit of `mask` is without an operation. -/
def Fits (ops : List Op) (mask : Mask) : Prop :=
  ∀ i, mask.getLsbD i → i < ops.length

variable {ops : List Op} {mask : Mask}

theorem replay_eq_some {machine next : StateMachine} {x : Op × Nat} :
    task.replay machine x = some next ↔
      x.1.expected.all (fun expected => (machine.apply x.1.command).2 = expected) = true ∧
        (machine.apply x.1.command).1 = next := by
  simp only [task, Option.ite_none_right_eq_some, Option.some.injEq]

theorem mem_pendingOf {x : Op × Nat} :
    x ∈ pendingOf ops mask ↔ x ∈ ops.zipIdx ∧ mask.getLsbD x.2 := by
  simp only [pendingOf, List.mem_toFinset, List.mem_filter]

theorem eq_of_mem_zipIdx {x y : Op × Nat} (hx : x ∈ ops.zipIdx) (hy : y ∈ ops.zipIdx)
    (hlabel : x.2 = y.2) : x = y := by
  have hx' := List.mem_zipIdx_iff_getElem?.mp hx
  have hy' := List.mem_zipIdx_iff_getElem?.mp hy
  rw [hlabel] at hx'
  exact Prod.ext (Option.some.inj (hx'.symm.trans hy')) hlabel

theorem lt_of_mem_zipIdx {x : Op × Nat} (hx : x ∈ ops.zipIdx) : x.2 < ops.length :=
  (List.getElem?_eq_some_iff.mp (List.mem_zipIdx_iff_getElem?.mp hx)).1

theorem pendingOf_eq_empty (hfits : Fits ops mask) :
    pendingOf ops mask = ∅ ↔ mask = 0#128 := by
  constructor
  · intro hempty
    apply BitVec.eq_of_getLsbD_eq
    intro i _
    by_contra hset
    have hi : mask.getLsbD i := by simpa using hset
    have hmem : (ops.get ⟨i, hfits i hi⟩, i) ∈ pendingOf ops mask :=
      mem_pendingOf.mpr ⟨List.mem_zipIdx_iff_getElem?.mpr (by simp), hi⟩
    rw [hempty] at hmem
    cases hmem
  · rintro rfl
    simp [pendingOf]

theorem pendingOf_clear (hsize : ops.length ≤ 128) {x : Op × Nat} (hx : x ∈ ops.zipIdx) :
    pendingOf ops (mask &&& ~~~(bit x.2)) = (pendingOf ops mask).erase x := by
  have hlt := Nat.lt_of_lt_of_le (lt_of_mem_zipIdx hx) hsize
  ext y
  simp only [mem_pendingOf, Finset.mem_erase, getLsbD_clear hlt, Bool.and_eq_true,
    Bool.not_eq_true', decide_eq_false_iff_not]
  constructor
  · rintro ⟨hy, hset, hne⟩
    exact ⟨fun heq => hne (congrArg Prod.snd heq.symm), hy, hset⟩
  · rintro ⟨hne, hy, hset⟩
    exact ⟨hy, hset, fun heq => hne (eq_of_mem_zipIdx hy hx heq.symm)⟩

theorem Fits.clear (hfits : Fits ops mask) {i : Nat} (hi : i < 128) :
    Fits ops (mask &&& ~~~(bit i)) := by
  intro j hj
  rw [getLsbD_clear hi, Bool.and_eq_true] at hj
  exact hfits j hj.1

theorem not_blocked (hsize : ops.length ≤ 128) {x : Op × Nat} (hx : x ∈ ops.zipIdx) :
    ¬ blocked ops mask x.2 x.1 = true ↔
      ∀ y ∈ pendingOf ops mask, y ≠ x → ¬ task.precedes y x := by
  simp only [blocked, List.any_eq_true, not_exists, not_and, Bool.and_eq_true,
    decide_eq_true_eq, and_imp]
  constructor
  · intro hfree y hy hne hprecedes
    obtain ⟨hmem, hset⟩ := mem_pendingOf.mp hy
    have hlt := Nat.lt_of_lt_of_le (lt_of_mem_zipIdx hmem) hsize
    refine hfree y hmem (fun heq => hne (eq_of_mem_zipIdx hmem hx heq)) ?_ hprecedes
    rw [ne_eq, and_bit_eq_zero hlt]
    simpa using hset
  · intro hfree y hmem hne hset hprecedes
    have hlt := Nat.lt_of_lt_of_le (lt_of_mem_zipIdx hmem) hsize
    rw [ne_eq, and_bit_eq_zero hlt] at hset
    refine hfree y (mem_pendingOf.mpr ⟨hmem, by simpa using hset⟩) ?_ hprecedes
    exact fun heq => hne (congrArg Prod.snd heq)

/-! ### The search -/

section Search

variable (hashModel : StateMachine → UInt64) (ops : List Op)

/-- Every failed pair is the hash of an explored state from which the pending
operations cannot be linearized. -/
def Memo.Sound (memo : Memo) : Prop :=
  ∀ pair ∈ memo.failed, ∃ model ∈ memo.explored,
    hashModel model = pair.1 ∧ ¬ task.Solvable (pendingOf ops pair.2) model

/-- A search from `memo` ends in `outcome` and decides `Answer`, if all it has
explored is among `states`. -/
structure Settles (states : List StateMachine) (Answer : Prop) (memo : Memo)
    (outcome : Bool × Memo) : Prop where
  grows : memo.explored ⊆ outcome.2.explored
  correct : memo.Sound hashModel ops → outcome.2.explored ⊆ states →
    (outcome.1 = true ↔ Answer) ∧ outcome.2.Sound hashModel ops

variable {hashModel ops} {states : List StateMachine} {memo : Memo} {Answer Other : Prop}

theorem Settles.done {answer : Bool} (hanswer : answer = true ↔ Answer) :
    Settles hashModel ops states Answer memo (answer, memo) where
  grows := List.Subset.refl _
  correct hsound _ := ⟨hanswer, hsound⟩

theorem Settles.congr {outcome : Bool × Memo} (hiff : Answer ↔ Other)
    (h : Settles hashModel ops states Answer memo outcome) :
    Settles hashModel ops states Other memo outcome where
  grows := h.grows
  correct hsound hstates := by
    obtain ⟨hanswer, hsound'⟩ := h.correct hsound hstates
    exact ⟨hanswer.trans hiff, hsound'⟩

theorem Settles.andAlso {allowed : Bool} {call : Memo → Bool × Memo}
    (h : Settles hashModel ops states Answer memo (call memo)) :
    Settles hashModel ops states (allowed = true ∧ Answer) memo
      (andAlso allowed call memo) := by
  cases allowed with
  | false => exact Settles.done (by simp)
  | true => exact h.congr (by simp)

theorem Settles.orElse {first second : Bool × Memo}
    (hfirst : Settles hashModel ops states Answer memo first)
    (hsecond : Settles hashModel ops states Other first.2 second) :
    Settles hashModel ops states (Answer ∨ Other) memo
      (if first.1 then first else second) := by
  cases hanswer : first.1 with
  | true =>
      refine ⟨hfirst.grows, fun hsound hstates => ?_⟩
      obtain ⟨hiff, hsound'⟩ := hfirst.correct hsound hstates
      exact ⟨⟨fun _ => Or.inl (hiff.mp hanswer), fun _ => hanswer⟩, hsound'⟩
  | false =>
      refine ⟨List.Subset.trans hfirst.grows hsecond.grows, fun hsound hstates => ?_⟩
      obtain ⟨hiff, hsound'⟩ :=
        hfirst.correct hsound (List.Subset.trans hsecond.grows hstates)
      obtain ⟨hiff', hsound''⟩ := hsecond.correct hsound' hstates
      have hno : ¬ Answer := fun h => by simp [hiff.mpr h] at hanswer
      exact ⟨hiff'.trans ⟨Or.inr, fun h => h.resolve_left hno⟩, hsound''⟩

/-- What the loop asks of one operation. -/
def Leads (ops : List Op) (remaining : Mask) (model : StateMachine) (x : Op × Nat) : Prop :=
  (∀ y ∈ pendingOf ops remaining, y ≠ x → ¬ task.precedes y x) ∧
    (task.optional x ∧ task.Solvable ((pendingOf ops remaining).erase x) model ∨
      ∃ next, task.replay model x = some next ∧
        task.Solvable ((pendingOf ops remaining).erase x) next)

theorem tryEach_settles {next : Mask → StateMachine → Memo → Bool × Memo}
    {remaining : Mask} (model : StateMachine) {depth : Nat}
    (hsize : ops.length ≤ 128) (hfits : Fits ops remaining)
    (hdepth : (pendingOf ops remaining).card ≤ depth + 1)
    (hnext : ∀ mask machine memo, Fits ops mask → (pendingOf ops mask).card ≤ depth →
      Settles hashModel ops states (task.Solvable (pendingOf ops mask) machine) memo
        (next mask machine memo)) :
    ∀ (rest : List (Op × Nat)) (memo : Memo), (∀ x ∈ rest, x ∈ ops.zipIdx) →
      Settles hashModel ops states
        (∃ x ∈ rest, x ∈ pendingOf ops remaining ∧ Leads ops remaining model x)
        memo (tryEach next ops remaining model rest memo) := by
  intro rest
  induction rest with
  | nil =>
      intro memo _
      exact Settles.done (by simp)
  | cons x rest ih =>
      intro memo hmem
      obtain ⟨hx, hrest⟩ := List.forall_mem_cons.mp hmem
      have hlt := Nat.lt_of_lt_of_le (lt_of_mem_zipIdx hx) hsize
      obtain ⟨op, i⟩ := x
      -- An operation passed over leads nowhere.
      have hpass : ¬ ((op, i) ∈ pendingOf ops remaining ∧
          Leads ops remaining model (op, i)) →
          Settles hashModel ops states
            (∃ x ∈ (op, i) :: rest, x ∈ pendingOf ops remaining ∧
              Leads ops remaining model x)
            memo (tryEach next ops remaining model rest memo) := by
        intro hnot
        refine (ih memo hrest).congr ?_
        rw [List.exists_mem_cons_iff]
        exact ⟨Or.inr, fun h => h.resolve_left hnot⟩
      rw [tryEach]
      split
      next hclear =>
        apply hpass
        intro hleads
        have hset := (mem_pendingOf.mp hleads.1).2
        simp only [(and_bit_eq_zero hlt).mp hclear] at hset
        cases hset
      next hset =>
        split
        next hblocked =>
          apply hpass
          intro hleads
          exact (not_blocked hsize hx).mpr hleads.2.1 hblocked
        next hfree =>
          have hpending : (op, i) ∈ pendingOf ops remaining := by
            refine mem_pendingOf.mpr ⟨hx, ?_⟩
            rw [and_bit_eq_zero hlt] at hset
            simpa using hset
          have hclear := @pendingOf_clear ops remaining hsize (op, i) hx
          have hcard : (pendingOf ops (remaining &&& ~~~(bit i))).card ≤ depth := by
            rw [hclear, Finset.card_erase_of_mem hpending]
            omega
          have hcall := fun machine memo =>
            hnext (remaining &&& ~~~(bit i)) machine memo (hfits.clear hlt) hcard
          simp only [hclear] at hcall
          refine Settles.congr ?_ ((hcall model memo).andAlso.orElse
            ((hcall _ _).andAlso.orElse (ih _ hrest)))
          rw [List.exists_mem_cons_iff, ← or_assoc]
          refine or_congr ?_ Iff.rfl
          simp only [hpending, true_and, Leads]
          have hrule := (not_blocked hsize hx).mp hfree
          have hreplay : ∀ P : StateMachine → Prop,
              (∃ next, task.replay model (op, i) = some next ∧ P next) ↔
                op.expected.all (fun expected => (model.apply op.command).2 = expected) =
                  true ∧ P (model.apply op.command).1 := by
            intro P
            simp only [replay_eq_some, and_assoc, exists_and_left, exists_eq_left']
          rw [hreplay, and_iff_right hrule]
          exact Iff.rfl

/-- The search answers whether the pending operations can be linearized. -/
theorem search_settles (hsize : ops.length ≤ 128)
    (hcollide : ∀ model ∈ states, ∀ other ∈ states,
      hashModel model = hashModel other → model = other) :
    ∀ (depth : Nat) (remaining : Mask) (model : StateMachine) (memo : Memo),
      Fits ops remaining → (pendingOf ops remaining).card ≤ depth →
      Settles hashModel ops states (task.Solvable (pendingOf ops remaining) model) memo
        (search hashModel ops depth remaining model memo) := by
  intro depth
  induction depth with
  | zero =>
      intro remaining model memo hfits hcard
      have hempty := Finset.card_eq_zero.mp (Nat.le_zero.mp hcard)
      have hzero := (pendingOf_eq_empty hfits).mp hempty
      rw [search, hempty]
      exact Settles.done ⟨fun _ => Task.solvable_empty model, fun _ => by simp [hzero]⟩
  | succ depth ih =>
      intro remaining model memo hfits hcard
      rw [search]
      split
      next hzero =>
        rw [(pendingOf_eq_empty hfits).mpr hzero]
        exact Settles.done ⟨fun _ => Task.solvable_empty model, fun _ => rfl⟩
      next hnonzero =>
        have hnonempty : (pendingOf ops remaining).Nonempty :=
          Finset.nonempty_iff_ne_empty.mpr
            (fun h => hnonzero ((pendingOf_eq_empty hfits).mp h))
        -- The memo with `model` among the explored states.
        have hadd : ∀ memo : Memo, memo.Sound hashModel ops →
            Memo.Sound hashModel ops { memo with explored := model :: memo.explored } := by
          intro memo hsound pair hpair
          obtain ⟨other, hother, hrest⟩ := hsound pair hpair
          exact ⟨other, List.mem_cons_of_mem _ hother, hrest⟩
        dsimp only
        split
        next hfailed =>
          refine ⟨List.subset_cons_self _ _, fun hsound hstates => ⟨?_, hadd memo hsound⟩⟩
          have hpair : (hashModel model, remaining) ∈ memo.failed := by simpa using hfailed
          obtain ⟨other, hother, hhash, hunsolvable⟩ := hsound _ hpair
          have heq := hcollide other (hstates (List.mem_cons_of_mem _ hother)) model
            (hstates List.mem_cons_self) hhash
          subst heq
          exact ⟨Bool.noConfusion, fun h => (hunsolvable h).elim⟩
        next =>
          have hloop := tryEach_settles model hsize hfits hcard ih ops.zipIdx
            { memo with explored := model :: memo.explored } (fun _ h => h)
          have hrule : (∃ x ∈ ops.zipIdx, x ∈ pendingOf ops remaining ∧
              Leads ops remaining model x) ↔
              task.Solvable (pendingOf ops remaining) model := by
            rw [Task.solvable_iff hnonempty]
            refine exists_congr fun x => ?_
            exact ⟨fun h => h.2, fun h => ⟨(mem_pendingOf.mp h.1).1, h⟩⟩
          have hadded := fun hsound => hadd memo hsound
          have hkept : memo.explored ⊆ model :: memo.explored := List.subset_cons_self _ _
          split
          next memo' hloop' =>
            rw [hloop'] at hloop
            refine ⟨List.Subset.trans hkept hloop.grows, fun hsound hstates => ?_⟩
            obtain ⟨hiff, hsound'⟩ := hloop.correct (hadded hsound) hstates
            exact ⟨hiff.trans hrule, hsound'⟩
          next memo' hloop' =>
            rw [hloop'] at hloop
            refine ⟨List.Subset.trans hkept hloop.grows, fun hsound hstates => ?_⟩
            obtain ⟨hiff, hsound'⟩ := hloop.correct (hadded hsound) hstates
            refine ⟨hiff.trans hrule, ?_⟩
            -- The failure that is recorded is the one just found.
            intro pair hpair
            obtain rfl | hpair := List.mem_cons.mp hpair
            · refine ⟨model, hloop.grows List.mem_cons_self, rfl, fun hsolvable => ?_⟩
              cases (hiff.trans hrule).mpr hsolvable
            · exact hsound' pair hpair

end Search

end Kurogane.Verify
