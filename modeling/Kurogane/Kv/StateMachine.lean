import Kurogane.Raft.Types
import Std.Data.ExtTreeMap
import Std.Data.ExtTreeMap.Lemmas

/-!
The replicated key/value map: the commands of its clients and what they answer.
A `BTreeMap` of byte strings is the ordered map of the standard library.
-/

namespace Kurogane.Kv

open Kurogane.Raft (Bytes)

inductive Command where
  | set (key value : Bytes)
  | delete (key : Bytes)
  | get (key : Bytes)
deriving DecidableEq, Repr

inductive ApplyResult where
  | set (previous : Option Bytes)
  | delete (previous : Option Bytes)
  | get (value : Option Bytes)
deriving DecidableEq, Repr

abbrev Entries := Std.ExtTreeMap Bytes Bytes

structure StateMachine where
  entries : Entries
  lastApplied : Nat
deriving DecidableEq

namespace StateMachine

def new : StateMachine := ⟨∅, 0⟩

/-- Applies `command` as the next entry in order. -/
def apply (machine : StateMachine) : Command → StateMachine × ApplyResult
  | .set key value =>
      (⟨machine.entries.insert key value, machine.lastApplied + 1⟩,
        .set machine.entries[key]?)
  | .delete key =>
      (⟨machine.entries.erase key, machine.lastApplied + 1⟩,
        .delete machine.entries[key]?)
  | .get key =>
      (⟨machine.entries, machine.lastApplied + 1⟩, .get machine.entries[key]?)

end StateMachine

end Kurogane.Kv
