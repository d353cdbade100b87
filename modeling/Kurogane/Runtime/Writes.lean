import Kurogane.Runtime.Agreement
import Kurogane.Runtime.ClientService

/-!
The writes of clients in a deployment. The service knows a client's entry by its index and
its term: no two entries of a run have both in common. What it has so confirmed is in the
log of every later leader.
-/

namespace Kurogane.Raft.Node

variable {node node' : Node} {emitted : List Effect}

theorem above_of_entryAt {index : Nat} {entry : LogEntry} (h : node.entryAt index = some entry) :
    node.snapshot.lastIncludedIndex < index := by
  unfold entryAt at h
  split at h
  · cases h
  · omega

/-- Compaction leaves the entries above the new boundary where they are. -/
theorem compacted_entryAt {upToIndex index : Nat} {data : Bytes}
    (h : node.perform (.compact upToIndex data) = some (node', emitted))
    (habove : node'.snapshot.lastIncludedIndex < index) :
    node'.entryAt index = node.entryAt index := by
  obtain ⟨answer, hanswer, h⟩ := Option.bind_eq_some_iff.mp h
  rcases answer with _ | ⟨last, rest⟩
  · cases h
    rfl
  cases h
  rcases compact_cases hanswer with ⟨-, rfl, -⟩ | ⟨_, _, _, hbeyond, -, -, rfl, -, rfl, -⟩
  · rfl
  have habove' : upToIndex < index := habove
  unfold entryAt vecIndex
  show (if index = 0 ∨ index ≤ upToIndex then none else
    (node.log.drop (upToIndex - node.snapshot.lastIncludedIndex))[index - upToIndex - 1]?) = _
  rw [if_neg (by omega), if_neg (by omega), List.getElem?_drop]
  congr 1
  omega

end Kurogane.Raft.Node

namespace Kurogane.Runtime

open Kurogane.Raft
open Kurogane.Kv (Command)
open Kurogane.Sim (Ghost)

/-- `Propose` has left its entry where it says, unless it is compacted away at once. -/
theorem Actor.accepted_entry {actor proposed : Actor} {command : Command} {index term : Nat}
    (h : actor.serve (.propose command) = .ok (proposed, .proposed (.accepted index)))
    (hread : proposed.entryTerm index = some term) :
    proposed.replica.node.entryAt index = some (actor.proposal command) ∧
      term = actor.replica.node.currentTerm := by
  obtain ⟨entry, hentry, hterm⟩ := entryTerm_eq_some hread
  obtain ⟨node, effects, hpropose, hown⟩ := accepted_appends h
  obtain ⟨-, ⟨hnone, -⟩ | ⟨operation, replica, written, _, hoperation, -, hperforms, hends⟩⟩ :=
    serve_performs h
  · cases hnone
  cases hoperation
  have hperformed := hperforms.node
  simp only [Node.perform, hpropose, Option.bind_eq_bind, Option.bind_some, Option.some.injEq,
    Prod.mk.injEq] at hperformed
  obtain ⟨rfl, -⟩ := hperformed
  have hkept : proposed.replica.node.entryAt index = some (actor.proposal command) := by
    rcases hends with ⟨hreplica, -⟩ | ⟨upToIndex, data, more, -, hcompacts, -⟩
    · rw [hreplica, hown]
    · rw [Node.compacted_entryAt hcompacts.node (Node.above_of_entryAt hentry), hown]
  refine ⟨hkept, ?_⟩
  rw [hkept] at hentry
  cases hentry
  exact hterm.symm

namespace Deployment

variable {now later last : Deployment} {founders : List NodeId} {token : String}
  {actions more rest : List Action}
  {id other third : NodeId} {actor reader leader : Actor} {index : Nat}
  {h h' : Ghost} {log log' : List LogEntry} {seen seen' : Nat}

/-- Up to an entry that two processes have of one term, one now and one later, their logs
are the same. -/
theorem Tracked.matching (hnow : now.Tracked founders h log seen)
    (hlater : later.Tracked founders h' log' seen') (hext : h.Extends h')
    (hactor : now.actor id = some actor)
    (hreader : later.actor other = some reader) {first second : LogEntry}
    (hfirst : actor.replica.node.entryAt index = some first)
    (hsecond : reader.replica.node.entryAt index = some second)
    (hterm : first.term = second.term) : (h.log id).take index = (h'.log other).take index := by
  obtain ⟨rfl, hrel, -⟩ := hnow.actor hactor
  obtain ⟨rfl, hrel', -⟩ := hlater.actor hreader
  have hlow := Node.above_of_entryAt hfirst
  have hlow' := Node.above_of_entryAt hsecond
  rw [hrel.entryAt hlow] at hfirst
  rw [hrel'.entryAt hlow'] at hsecond
  have hmatching := hlater.sound.backed_matching
    (hext.backed (hnow.sound.node_backed actor.replica.node.id))
    (hlater.sound.node_backed reader.replica.node.id) hfirst hsecond hterm
  rw [Nat.sub_add_cancel (by omega)] at hmatching
  exact hmatching

end Deployment

end Kurogane.Runtime
