import Kurogane.Verify.Search
import Mathlib.Algebra.GroupWithZero.Nat

/-!
The checker's answer about a history of client operations, in terms of the
history alone: an operation is an entry together with its position.
-/

namespace Kurogane.Verify

open Kurogane.Kv

/-- Operation `a` was answered before `b` was invoked. -/
def HistoryEntry.PrecedesInTime (a b : HistoryEntry) : Prop :=
  (∃ result, a.outcome = .applied result) ∧
    ∃ finish, a.returnTick = some finish ∧ finish ≤ b.invokeTick

/-- Each applied operation gets its recorded result when the commands are
replayed on `machine` in this order. -/
def Answers : StateMachine → List HistoryEntry → Prop
  | _, [] => True
  | machine, entry :: rest =>
      (∀ result, entry.outcome = .applied result →
        (machine.apply entry.command).2 = result) ∧
      Answers (machine.apply entry.command).1 rest

/-- `order` explains the history: it has every applied operation once, each
indeterminate one at most once and no rejected one. -/
structure Linearization (history : List HistoryEntry)
    (order : List (HistoryEntry × Nat)) : Prop where
  nodup : order.Nodup
  subset : ∀ x ∈ order, x ∈ history.zipIdx
  unrejected : ∀ x ∈ order, x.1.outcome ≠ .rejected
  complete : ∀ x ∈ history.zipIdx, (∃ result, x.1.outcome = .applied result) → x ∈ order
  realTime : order.Pairwise (fun first second => ¬ second.1.PrecedesInTime first.1)
  answers : Answers .new (order.map Prod.fst)

/-- The operations of a history on the sequential object. -/
def entryTask : Task StateMachine (HistoryEntry × Nat) where
  optional x := x.1.outcome = .indeterminate
  precedes x y := x.1.PrecedesInTime y.1
  replay machine x :=
    if x.1.outcome = .applied (machine.apply x.1.command).2 ∨
        x.1.outcome = .indeterminate then
      some (machine.apply x.1.command).1
    else none
  definite x y hprecedes hoptional := by
    obtain ⟨⟨result, happlied⟩, -⟩ := hprecedes
    rw [hoptional] at happlied
    cases happlied

/-- The operations that may have had an effect, in order of their positions. -/
def located (history : List HistoryEntry) : List (HistoryEntry × Nat) :=
  history.zipIdx.filter (fun x => (Op.ofEntry x.1).isSome)

variable {history : List HistoryEntry}

theorem isSome_ofEntry {entry : HistoryEntry} :
    (Op.ofEntry entry).isSome ↔ entry.outcome ≠ .rejected := by
  cases houtcome : entry.outcome <;> simp [Op.ofEntry, houtcome]

/-- The two kinds of entries that the checker looks at. -/
theorem ofEntry_eq_some {entry : HistoryEntry} {op : Op}
    (hop : Op.ofEntry entry = some op) :
    (∃ result, entry.outcome = .applied result ∧
      op = ⟨entry.invokeTick, entry.returnTick, entry.command, some result, false⟩) ∨
    (entry.outcome = .indeterminate ∧
      op = ⟨entry.invokeTick, none, entry.command, none, true⟩) := by
  rw [Op.ofEntry] at hop
  split at hop
  next => cases hop
  next result houtcome => exact Or.inl ⟨result, houtcome, (Option.some.inj hop).symm⟩
  next houtcome => exact Or.inr ⟨houtcome, (Option.some.inj hop).symm⟩

theorem precedes_ofEntry {a b : HistoryEntry} {x y : Op} (hx : Op.ofEntry a = some x)
    (hy : Op.ofEntry b = some y) : precedes x y ↔ a.PrecedesInTime b := by
  have hinvoke : y.invoke = b.invokeTick := by
    obtain ⟨_, -, rfl⟩ | ⟨-, rfl⟩ := ofEntry_eq_some hy <;> rfl
  obtain ⟨result, houtcome, rfl⟩ | ⟨houtcome, rfl⟩ := ofEntry_eq_some hx
  · cases hreturn : a.returnTick <;>
      simp [precedes, HistoryEntry.PrecedesInTime, houtcome, hreturn, hinvoke]
  · simp [precedes, HistoryEntry.PrecedesInTime, houtcome]

theorem mem_located {x : HistoryEntry × Nat} :
    x ∈ located history ↔ x ∈ history.zipIdx ∧ x.1.outcome ≠ .rejected := by
  rw [located, List.mem_filter, isSome_ofEntry]

theorem nodup_located : (located history).Nodup := by
  apply List.Nodup.filter
  apply List.Nodup.of_map Prod.snd
  rw [List.zipIdx_map_snd]
  exact List.nodup_range'

/-- The k-th operation of the checker comes from the k-th located entry. -/
theorem ofEntry_located (history : List HistoryEntry) :
    (located history).map (fun x => Op.ofEntry x.1) =
      (history.filterMap Op.ofEntry).map some := by
  have hgeneral : ∀ entries : List (HistoryEntry × Nat),
      (entries.filter (fun x => (Op.ofEntry x.1).isSome)).map (fun x => Op.ofEntry x.1) =
        ((entries.map Prod.fst).filterMap Op.ofEntry).map some := by
    intro entries
    induction entries with
    | nil => rfl
    | cons x rest ih =>
        cases hop : Op.ofEntry x.1 with
        | none => simpa [hop] using ih
        | some op => simpa [hop] using ih
  have hall := hgeneral history.zipIdx
  rwa [List.zipIdx_map_fst] at hall

/-- Bit `x.2` of the checker stands for the entry `y`. -/
def StandsFor (history : List HistoryEntry) (x : Op × Nat) (y : HistoryEntry × Nat) : Prop :=
  (located history)[x.2]? = some y ∧ Op.ofEntry y.1 = some x.1

theorem standsFor_of_mem {x : Op × Nat}
    (hx : x ∈ (history.filterMap Op.ofEntry).zipIdx) :
    ∃ y, StandsFor history x y := by
  have hop := List.mem_zipIdx_iff_getElem?.mp hx
  have hget := congrArg (fun ops => ops[x.2]?) (ofEntry_located history)
  simp only [List.getElem?_map, hop, Option.map_some, Option.map_eq_some_iff] at hget
  exact hget

theorem exists_standsFor {y : HistoryEntry × Nat} (hy : y ∈ located history) :
    ∃ x ∈ (history.filterMap Op.ofEntry).zipIdx, StandsFor history x y := by
  obtain ⟨k, hk⟩ := List.mem_iff_getElem?.mp hy
  have hget := congrArg (fun ops => ops[k]?) (ofEntry_located history)
  simp only [List.getElem?_map, hk, Option.map_some] at hget
  obtain ⟨op, hop, heq⟩ := Option.map_eq_some_iff.mp hget.symm
  exact ⟨(op, k), List.mem_zipIdx_iff_getElem?.mpr hop, hk, heq.symm⟩

theorem alike (hsize : (history.filterMap Op.ofEntry).length ≤ 128) :
    task.Alike entryTask (StandsFor history)
      (pendingOf (history.filterMap Op.ofEntry)
        (fullMask (history.filterMap Op.ofEntry).length))
      (located history).toFinset where
  total x hx := by
    obtain ⟨y, hy⟩ := standsFor_of_mem (mem_pendingOf.mp hx).1
    exact ⟨y, List.mem_toFinset.mpr (List.mem_of_getElem? hy.1), hy⟩
  onto y hy := by
    obtain ⟨x, hx, hxy⟩ := exists_standsFor (List.mem_toFinset.mp hy)
    refine ⟨x, mem_pendingOf.mpr ⟨hx, ?_⟩, hxy⟩
    rw [getLsbD_fullMask hsize]
    exact decide_eq_true (lt_of_mem_zipIdx hx)
  unique x y x' y' hxy hxy' := by
    constructor
    · rintro rfl
      exact Option.some.inj (hxy.1.symm.trans hxy'.1)
    · rintro rfl
      have hlt := (List.getElem?_eq_some_iff.mp hxy.1).1
      have hlabel := (List.getElem?_inj hlt nodup_located).mp (hxy.1.trans hxy'.1.symm)
      exact Prod.ext (Option.some.inj (hxy.2.symm.trans hxy'.2)) hlabel
  optional x y hxy := by
    obtain ⟨op, i⟩ := x
    obtain ⟨result, houtcome, rfl⟩ | ⟨houtcome, rfl⟩ := ofEntry_eq_some hxy.2 <;>
      simp [task, entryTask, houtcome]
  precedes x y x' y' hxy hxy' := precedes_ofEntry hxy.2 hxy'.2
  replay x y machine hxy := by
    obtain ⟨op, i⟩ := x
    obtain ⟨result, houtcome, rfl⟩ | ⟨houtcome, rfl⟩ := ofEntry_eq_some hxy.2
    · have hflip : (machine.apply y.1.command).2 = result ↔
          result = (machine.apply y.1.command).2 := eq_comm
      simp [task, entryTask, houtcome, hflip]
    · simp [task, entryTask, houtcome]

/-- Replaying the operations is getting the recorded results. -/
theorem replays_iff (order : List (HistoryEntry × Nat)) (machine : StateMachine)
    (hunrejected : ∀ x ∈ order, x.1.outcome ≠ .rejected) :
    entryTask.Replays machine order ↔ Answers machine (order.map Prod.fst) := by
  induction order generalizing machine with
  | nil => exact Iff.rfl
  | cons x rest ih =>
      obtain ⟨hx, hrest⟩ := List.forall_mem_cons.mp hunrejected
      have hreplay : ∀ next, entryTask.replay machine x = some next ↔
          (∀ result, x.1.outcome = .applied result →
            (machine.apply x.1.command).2 = result) ∧
          (machine.apply x.1.command).1 = next := by
        intro next
        cases houtcome : x.1.outcome with
        | applied result => simp [entryTask, houtcome, eq_comm]
        | rejected => exact (hx houtcome).elim
        | indeterminate => simp [entryTask, houtcome]
      simp only [Task.Replays, hreplay, List.map_cons, Answers, and_assoc,
        exists_and_left, exists_eq_left', ih _ hrest]

theorem solvable_located :
    entryTask.Solvable (located history).toFinset .new ↔
      ∃ order, Linearization history order := by
  have hoptional : ∀ x : HistoryEntry × Nat, x.1.outcome ≠ .rejected →
      (¬ entryTask.optional x ↔ ∃ result, x.1.outcome = .applied result) := by
    intro x hx
    cases houtcome : x.1.outcome <;> simp_all [entryTask]
  refine exists_congr fun order => ?_
  constructor
  · intro h
    have hmem : ∀ x ∈ order, x ∈ history.zipIdx ∧ x.1.outcome ≠ .rejected :=
      fun x hx => mem_located.mp (List.mem_toFinset.mp (h.subset x hx))
    refine ⟨h.nodup, fun x hx => (hmem x hx).1, fun x hx => (hmem x hx).2, ?_, h.ordered,
      (replays_iff order _ fun x hx => (hmem x hx).2).mp h.replays⟩
    rintro x hx ⟨result, happlied⟩
    have hunrejected : x.1.outcome ≠ .rejected := by simp [happlied]
    refine h.complete x (List.mem_toFinset.mpr (mem_located.mpr ⟨hx, hunrejected⟩)) ?_
    exact (hoptional x hunrejected).mpr ⟨result, happlied⟩
  · intro h
    refine ⟨h.nodup, fun x hx => ?_, fun x hx hdefinite => ?_, h.realTime,
      (replays_iff order _ h.unrejected).mpr h.answers⟩
    · exact List.mem_toFinset.mpr (mem_located.mpr ⟨h.subset x hx, h.unrejected x hx⟩)
    · obtain ⟨hmem, hunrejected⟩ := mem_located.mp (List.mem_toFinset.mp hx)
      exact h.complete x hmem ((hoptional x hunrejected).mp hdefinite)

theorem fits_fullMask {ops : List Op} (hsize : ops.length ≤ 128) :
    Fits ops (fullMask ops.length) := by
  intro i hi
  rw [getLsbD_fullMask hsize] at hi
  exact of_decide_eq_true hi

/-- A history of at most 128 operations is accepted exactly if some order of
its operations explains it, unless two of the states hashed on the way collide. -/
theorem isLinearizable_iff (hashModel : StateMachine → UInt64)
    (history : List HistoryEntry)
    (hsize : (history.filter (fun entry => entry.outcome ≠ .rejected)).length ≤ 128)
    (hcollide : ∀ model ∈ (searchHistory hashModel history).2.explored,
      ∀ other ∈ (searchHistory hashModel history).2.explored,
        hashModel model = hashModel other → model = other) :
    ∃ answer, isLinearizable hashModel history = some answer ∧
      (answer = true ↔ ∃ order, Linearization history order) := by
  have hlength : (history.filterMap Op.ofEntry).length =
      (history.filter (fun entry => entry.outcome ≠ .rejected)).length := by
    rw [List.length_filterMap_eq_countP, List.countP_eq_length_filter]
    congr 2
    funext entry
    rw [Bool.eq_iff_iff, isSome_ofEntry, decide_eq_true_iff]
  rw [← hlength] at hsize
  refine ⟨(searchHistory hashModel history).1, if_pos hsize, ?_⟩
  rw [← solvable_located, ← (alike hsize).solvable_iff]
  have hcard : (pendingOf (history.filterMap Op.ofEntry)
      (fullMask (history.filterMap Op.ofEntry).length)).card ≤
      (history.filterMap Op.ofEntry).length := by
    refine (List.toFinset_card_le _).trans ((List.length_filter_le _ _).trans_eq ?_)
    exact List.length_zipIdx
  have hsettles := search_settles hsize hcollide _ _ StateMachine.new ⟨[], []⟩
    (fits_fullMask hsize) hcard
  refine (hsettles.correct ?_ (List.Subset.refl _)).1
  intro pair hpair
  cases hpair

/-- A read sees the value of a write that was never answered. -/
def unansweredWrite : List HistoryEntry := [
  ⟨⟨1⟩, 0, some 2, .set [107] [1], .applied (.set none)⟩,
  ⟨⟨2⟩, 1, none, .set [107] [2], .indeterminate⟩,
  ⟨⟨3⟩, 1, some 2, .delete [107], .rejected⟩,
  ⟨⟨1⟩, 3, some 4, .get [107], .applied (.get (some [2]))⟩]

/-- A hash that tells the states with few and short values apart. -/
def sumHash (model : StateMachine) : UInt64 :=
  UInt64.ofNat (model.entries.toList.foldl
    (fun sum pair => sum * 64 + pair.1.length + (pair.2.map UInt8.toNat).sum)
    model.lastApplied)

theorem unansweredWrite_linearizable :
    isLinearizable sumHash unansweredWrite = some true ∧
      ∃ order, Linearization unansweredWrite order := by
  obtain ⟨answer, hanswer, hiff⟩ := isLinearizable_iff sumHash unansweredWrite
    (by decide) (by decide +kernel)
  have haccepted : isLinearizable sumHash unansweredWrite = some true := by
    decide +kernel
  refine ⟨haccepted, hiff.mp ?_⟩
  exact Option.some.inj (hanswer.symm.trans haccepted)

end Kurogane.Verify
