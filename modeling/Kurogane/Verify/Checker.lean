import Kurogane.Kv.StateMachine
import Kurogane.Verify.Linearization
import Mathlib.Data.Finset.Range

/-!
The linearizability checker. It tries the pending operations one after the
other, keeps the pending set as a mask of 128 bits, and remembers by hash the
states from which a pending set has failed.
-/

namespace Kurogane.Verify

open Kurogane.Kv

structure ClientId where
  id : Nat
deriving DecidableEq, Repr

inductive Outcome where
  | applied (result : ApplyResult)
  | rejected
  | indeterminate
deriving DecidableEq, Repr

/-- The lifecycle of one operation; `returnTick` is missing if the run ended
before it was resolved. -/
structure HistoryEntry where
  client : ClientId
  invokeTick : Nat
  returnTick : Option Nat
  command : Command
  outcome : Outcome
deriving DecidableEq, Repr

/-- An operation as the checker sees it. -/
structure Op where
  invoke : Nat
  finish : Option Nat
  command : Command
  expected : Option ApplyResult
  optional : Bool
deriving DecidableEq

def Op.ofEntry (entry : HistoryEntry) : Option Op :=
  match entry.outcome with
  | .rejected => none
  | .applied result => some {
      invoke := entry.invokeTick
      finish := entry.returnTick
      command := entry.command
      expected := some result
      optional := false }
  | .indeterminate => some {
      invoke := entry.invokeTick
      finish := none
      command := entry.command
      expected := none
      optional := true }

def precedes (a b : Op) : Bool :=
  if a.optional then false
  else
    match a.finish with
    | some finish => finish ≤ b.invoke
    | none => false

abbrev Mask := BitVec 128

def bit (i : Nat) : Mask := 1#128 <<< i

/-- What a search remembers: the failed pairs, and, for no purpose of its own,
the states it has hashed. -/
structure Memo where
  failed : List (UInt64 × Mask)
  explored : List StateMachine

def blocked (ops : List Op) (remaining : Mask) (i : Nat) (op : Op) : Bool :=
  ops.zipIdx.any (fun (other, j) =>
    j ≠ i && remaining &&& bit j ≠ 0#128 && precedes other op)

/-- `allowed && call(memo)`: the call is made only where it is allowed. -/
def andAlso (allowed : Bool) (call : Memo → Bool × Memo) (memo : Memo) :
    Bool × Memo :=
  if allowed then call memo else (false, memo)

/-- The loop of `search` over the operations, with `next` for its recursive
call. -/
def tryEach (next : Mask → StateMachine → Memo → Bool × Memo) (ops : List Op)
    (remaining : Mask) (model : StateMachine) :
    List (Op × Nat) → Memo → Bool × Memo
  | [], memo => (false, memo)
  | (op, i) :: rest, memo =>
      if remaining &&& bit i = 0#128 then
        tryEach next ops remaining model rest memo
      else if blocked ops remaining i op then
        tryEach next ops remaining model rest memo
      else
        let nextRemaining := remaining &&& ~~~(bit i)
        let skipped := andAlso op.optional (next nextRemaining model) memo
        if skipped.1 then skipped
        else
          let nextModel := (model.apply op.command).1
          let result := (model.apply op.command).2
          let applied := andAlso (op.expected.all (fun expected => result = expected))
            (next nextRemaining nextModel) skipped.2
          if applied.1 then applied
          else tryEach next ops remaining model rest applied.2

/-- Every call clears a bit of `remaining`, so as many nested calls as there
are operations are enough. -/
def search (hashModel : StateMachine → UInt64) (ops : List Op) :
    Nat → Mask → StateMachine → Memo → Bool × Memo
  | 0, remaining, _, memo => (remaining = 0#128, memo)
  | depth + 1, remaining, model, memo =>
      if remaining = 0#128 then (true, memo)
      else
        let stateHash := hashModel model
        let memo := { memo with explored := model :: memo.explored }
        if memo.failed.contains (stateHash, remaining) then (false, memo)
        else
          match tryEach (search hashModel ops depth) ops remaining model
              ops.zipIdx memo with
          | (true, memo) => (true, memo)
          | (false, memo) =>
              (false, { memo with failed := (stateHash, remaining) :: memo.failed })

def fullMask (count : Nat) : Mask :=
  if count = 0 then 0#128
  else if count = 128 then BitVec.allOnes 128
  else bit count - 1#128

/-- The whole search for `history`, and what it leaves in the memo. -/
def searchHistory (hashModel : StateMachine → UInt64)
    (history : List HistoryEntry) : Bool × Memo :=
  let ops := history.filterMap Op.ofEntry
  search hashModel ops ops.length (fullMask ops.length) .new ⟨[], []⟩

/-- `none` is the panic on more than 128 operations. -/
def isLinearizable (hashModel : StateMachine → UInt64)
    (history : List HistoryEntry) : Option Bool :=
  if (history.filterMap Op.ofEntry).length ≤ 128 then
    some (searchHistory hashModel history).1
  else none

/-! ### Masks as sets -/

theorem getLsbD_bit {i j : Nat} (hi : i < 128) :
    (bit i).getLsbD j = decide (i = j) := by
  simp only [bit, BitVec.getLsbD_shiftLeft, BitVec.getLsbD_one]
  by_cases hij : i = j
  · subst hij
    simp [hi]
  · simp only [hij, decide_false]
    by_cases hlt : j < i
    · simp [hlt]
    · have hne : ¬ (j - i = 0) := by omega
      simp [hne]

theorem and_bit_eq_zero {remaining : Mask} {i : Nat} (hi : i < 128) :
    remaining &&& bit i = 0#128 ↔ remaining.getLsbD i = false := by
  constructor
  · intro hzero
    have hbit := congrArg (fun mask : Mask => mask.getLsbD i) hzero
    simpa [getLsbD_bit hi] using hbit
  · intro hclear
    apply BitVec.eq_of_getLsbD_eq
    intro j hj
    rw [BitVec.getLsbD_and, getLsbD_bit hi]
    by_cases hij : i = j
    · subst hij
      simp [hclear]
    · simp [hij]

theorem getLsbD_clear {remaining : Mask} {i j : Nat} (hi : i < 128) :
    (remaining &&& ~~~(bit i)).getLsbD j =
      (remaining.getLsbD j && !decide (i = j)) := by
  rw [BitVec.getLsbD_and, BitVec.getLsbD_not, getLsbD_bit hi]
  by_cases hj : j < 128
  · simp [hj]
  · rw [BitVec.getLsbD_of_ge _ _ (Nat.not_lt.mp hj)]
    simp

theorem getLsbD_fullMask {count i : Nat} (hcount : count ≤ 128) :
    (fullMask count).getLsbD i = decide (i < count) := by
  have hmask : fullMask count = BitVec.ofNat 128 (2 ^ count - 1) := by
    simp only [fullMask]
    split
    next hzero =>
      subst hzero
      rfl
    next =>
      split
      next hfull =>
        subst hfull
        rfl
      next hpartial =>
        have hlt : 2 ^ count < 2 ^ 128 := Nat.pow_lt_pow_right (by decide) (by omega)
        have hpos : 0 < 2 ^ count := Nat.two_pow_pos count
        apply BitVec.eq_of_toNat_eq
        simp only [bit, BitVec.toNat_sub, BitVec.toNat_shiftLeft, BitVec.toNat_ofNat,
          Nat.shiftLeft_eq]
        omega
  rw [hmask, BitVec.getLsbD_ofNat, Nat.testBit_two_pow_sub_one]
  by_cases hi : i < count
  · simp [hi, Nat.lt_of_lt_of_le hi hcount]
  · simp [hi]

end Kurogane.Verify
