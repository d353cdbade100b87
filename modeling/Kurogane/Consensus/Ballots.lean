import Mathlib.Data.List.Sort
import Mathlib.Tactic.Common

/-!
One voter that survives crashes. Its record holds the latest term it has seen
and whom it voted for there; it states nothing but what the record, once
durable, vouches for. Whatever it states then, its terms never decrease and it
names one candidate in a term.
-/

namespace Kurogane.Consensus

variable {ν : Type*}

structure VoteRecord (ν : Type*) where
  term : Nat
  vote : Option ν

/-- What a voter says aloud: a term, and a candidate if it votes. -/
structure Statement (ν : Type*) where
  term : Nat
  vote : Option ν

namespace VoteRecord

/-- The term does not fall, and a vote cast in it stands. -/
def Advances (record next : VoteRecord ν) : Prop :=
  record.term < next.term ∨
    next.term = record.term ∧ ∀ c, record.vote = some c → next.vote = some c

theorem Advances.refl (record : VoteRecord ν) : record.Advances record :=
  Or.inr ⟨rfl, fun _ h => h⟩

theorem Advances.trans {record middle next : VoteRecord ν}
    (hfirst : record.Advances middle) (hsecond : middle.Advances next) :
    record.Advances next := by
  rcases hfirst with hlt | ⟨heq, hvote⟩
  · rcases hsecond with hlt' | ⟨heq', -⟩
    · exact Or.inl (hlt.trans hlt')
    · exact Or.inl (hlt.trans_eq heq'.symm)
  · rcases hsecond with hlt' | ⟨heq', hvote'⟩
    · exact Or.inl (heq ▸ hlt')
    · exact Or.inr ⟨heq'.trans heq, fun c hc => hvote' c (hvote c hc)⟩

theorem Advances.le {record next : VoteRecord ν} (h : record.Advances next) :
    record.term ≤ next.term := by
  rcases h with hlt | ⟨heq, -⟩
  · exact hlt.le
  · exact heq.ge

def Vouches (record : VoteRecord ν) (statement : Statement ν) : Prop :=
  statement.term = record.term ∧
    ∀ c, statement.vote = some c → record.vote = some c

/-- All that has been stated agrees with itself and with the record. -/
structure Keeps (record : VoteRecord ν) (spoken : List (Statement ν)) : Prop where
  ordered : spoken.Pairwise (fun first second => first.term ≤ second.term)
  bounded : ∀ s ∈ spoken, s.term ≤ record.term
  held : ∀ s ∈ spoken, s.term = record.term →
    ∀ c, s.vote = some c → record.vote = some c
  single : ∀ s ∈ spoken, ∀ s' ∈ spoken, s.term = s'.term →
    ∀ c c', s.vote = some c → s'.vote = some c' → c = c'

namespace Keeps

variable {record next : VoteRecord ν} {spoken more : List (Statement ν)}

theorem nil (record : VoteRecord ν) : record.Keeps [] := by
  constructor <;> simp

theorem advance (h : record.Keeps spoken) (hnext : record.Advances next) :
    next.Keeps spoken where
  ordered := h.ordered
  bounded s hs := (h.bounded s hs).trans hnext.le
  held s hs hterm c hc := by
    rcases hnext with hlt | ⟨heq, hvote⟩
    · have hle := h.bounded s hs
      omega
    · exact hvote c (h.held s hs (hterm.trans heq) c hc)
  single := h.single

theorem speak (h : record.Keeps spoken)
    (hmore : ∀ s ∈ more, record.Vouches s) : record.Keeps (spoken ++ more) := by
  constructor
  · refine List.pairwise_append.mpr ⟨h.ordered, ?_, ?_⟩
    · refine List.pairwise_iff_forall_sublist.mpr (fun {first second} hsub => ?_)
      have hfirst := hmore first (hsub.subset (by simp))
      have hsecond := hmore second (hsub.subset (by simp))
      exact hfirst.1.trans_le hsecond.1.ge
    · intro first hfirst second hsecond
      rw [(hmore second hsecond).1]
      exact h.bounded first hfirst
  · intro s hs
    rcases List.mem_append.mp hs with hs | hs
    · exact h.bounded s hs
    · exact (hmore s hs).1.le
  · intro s hs hterm c hc
    rcases List.mem_append.mp hs with hs | hs
    · exact h.held s hs hterm c hc
    · exact (hmore s hs).2 c hc
  · intro s hs s' hs' hterm c c' hc hc'
    -- A vote stated now is the one on record, which every earlier one of this
    -- term agrees with.
    have hrecord : ∀ t ∈ spoken ++ more, t.term = record.term →
        ∀ d, t.vote = some d → record.vote = some d := by
      intro t ht htterm d hd
      rcases List.mem_append.mp ht with ht | ht
      · exact h.held t ht htterm d hd
      · exact (hmore t ht).2 d hd
    by_cases hnow : s.term = record.term
    · have hd := hrecord s hs hnow c hc
      have hd' := hrecord s' hs' (hterm ▸ hnow) c' hc'
      rw [hd] at hd'
      exact Option.some.inj hd'
    · rcases List.mem_append.mp hs with hs | hs
      · rcases List.mem_append.mp hs' with hs' | hs'
        · exact h.single s hs s' hs' hterm c c' hc hc'
        · exact (hnow (hterm.trans (hmore s' hs').1)).elim
      · exact (hnow (hmore s hs).1).elim

end Keeps

end VoteRecord

end Kurogane.Consensus
