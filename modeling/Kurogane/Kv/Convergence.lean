import Kurogane.Consensus.Overwrites
import Kurogane.Kv.Applying

/-!
A snapshot is taken of the map as it is, for a boundary that may be behind it. Who
starts from it applies the entries in between a second time. A command writes
blindly, so that does no harm: the map is ahead of its index by what had been
applied when the snapshot was taken, and right once the index has got there.
-/

namespace Kurogane.Kv

open Kurogane.Consensus
open Kurogane.Raft (Bytes Node NodeId Effect Event
  LogEntry bind_eq_ok ok_of_toOption exists_of_any)

/-- What a command writes. A key without a value is not in the map. -/
def Command.write : Command → Write Bytes (Option Bytes)
  | .set key value => some (key, some value)
  | .delete key => some (key, none)
  | .get _ => none

def writeOf (entry : LogEntry) : Write Bytes (Option Bytes) :=
  match entry.payload with
  | .command bytes =>
      match Command.decode bytes with
      | .error _ => none
      | .ok command => command.write
  | .configuration _ => none

namespace StateMachine

/-- One committed entry. `none` if its command does not decode. -/
def applyEntry (machine : StateMachine) (entry : LogEntry) : Option StateMachine :=
  match entry.payload with
  | .command bytes =>
      match Command.decode bytes with
      | .error _ => none
      | .ok command => some (machine.apply command).1
  | .configuration _ => some machine.skip

/-- The entries of a log, one after another. -/
def replay (machine : StateMachine) : List LogEntry → Option StateMachine
  | [] => some machine
  | entry :: rest => (machine.applyEntry entry).bind (fun next => next.replay rest)

def contents (machine : StateMachine) (key : Bytes) : Option Bytes :=
  machine.entries[key]?

end StateMachine

/-! ### The abstract map -/

namespace StateMachine

variable {machine next state : StateMachine} {entry : LogEntry} {log rest : List LogEntry}

theorem ext_contents (hcontents : machine.contents = next.contents)
    (happlied : machine.lastApplied = next.lastApplied) : machine = next := by
  obtain ⟨entries, lastApplied⟩ := machine
  obtain ⟨entries', lastApplied'⟩ := next
  obtain rfl : entries = entries' :=
    Std.ExtTreeMap.ext_getElem? (fun key => congrFun hcontents key)
  obtain rfl : lastApplied = lastApplied' := happlied
  rfl

theorem fits_iff : machine.Fits ↔ ∀ key value, machine.contents key = some value →
    key.length < 4294967296 ∧ value.length < 4294967296 := by
  constructor
  · intro hfits key value hheld
    exact hfits (key, value) (Std.ExtTreeMap.mem_toList_iff_getElem?_eq_some.mpr hheld)
  · rintro hfits ⟨key, value⟩ hmem
    exact hfits key value (Std.ExtTreeMap.mem_toList_iff_getElem?_eq_some.mp hmem)

theorem apply_contents (machine : StateMachine) (command : Command) :
    (machine.apply command).1.contents = overwrite machine.contents command.write := by
  funext key
  cases command with
  | set written value =>
      show (machine.entries.insert written value)[key]? =
        Function.update machine.contents written (some value) key
      rw [Std.ExtTreeMap.getElem?_insert, Function.update_apply]
      simp only [Std.LawfulEqCmp.compare_eq_iff_eq, eq_comm (a := written)]
      rfl
  | delete written =>
      show (machine.entries.erase written)[key]? =
        Function.update machine.contents written none key
      rw [Std.ExtTreeMap.getElem?_erase, Function.update_apply]
      simp only [Std.LawfulEqCmp.compare_eq_iff_eq, eq_comm (a := written)]
      rfl
  | get read => rfl

/-- A command that could be read keeps the lengths within their prefixes. -/
theorem Fits.apply {command : Command} (h : machine.Fits) (hcommand : command.Fits) :
    (machine.apply command).1.Fits := by
  rw [fits_iff] at h ⊢
  intro key value hheld
  rw [apply_contents] at hheld
  by_cases htouches : command.write.Touches key
  · obtain ⟨found, hwrite⟩ := htouches
    rw [hwrite] at hheld
    have hfound : found = some value := by
      simpa only [overwrite, Function.update_self] using hheld
    cases command <;> cases hwrite
    · cases hfound
      exact hcommand
    · cases hfound
  · rw [overwrite_of_not_touches htouches] at hheld
    exact h key value hheld

theorem applyEntry_spec (h : machine.applyEntry entry = some next) :
    next.contents = overwrite machine.contents (writeOf entry) ∧
      next.lastApplied = machine.lastApplied + 1 ∧ (machine.Fits → next.Fits) ∧
      ∀ other : StateMachine, (other.applyEntry entry).isSome = true := by
  unfold applyEntry at h
  unfold writeOf applyEntry
  split at h
  · split at h
    · cases h
    · rename_i command hdecode
      cases h
      refine ⟨apply_contents machine command, ?_,
        fun hfits => hfits.apply (Command.start_of_decode hdecode).1, fun other => rfl⟩
      cases command <;> rfl
  · cases h
    exact ⟨rfl, rfl, id, fun other => rfl⟩

theorem replay_append (machine : StateMachine) (log rest : List LogEntry) :
    machine.replay (log ++ rest) =
      (machine.replay log).bind (fun next => next.replay rest) := by
  induction log generalizing machine with
  | nil => rfl
  | cons entry log ih =>
      show (machine.applyEntry entry).bind _ = ((machine.applyEntry entry).bind _).bind _
      rw [Option.bind_assoc]
      exact Option.bind_congr (fun next _ => ih next)

theorem replay_succ {reached : Nat} (h : log[reached]? = some entry) :
    machine.replay (log.take (reached + 1)) =
      (machine.replay (log.take reached)).bind (fun next => next.applyEntry entry) := by
  rw [List.take_add_one, h, replay_append]
  refine Option.bind_congr (fun next _ => ?_)
  show (next.applyEntry entry).bind some = next.applyEntry entry
  exact Option.bind_fun_some _

/-- The map after a log is what the writes of its entries leave. -/
theorem replay_contents (h : machine.replay log = some state) :
    state.contents = replayWrites machine.contents (log.map writeOf) ∧
      state.lastApplied = machine.lastApplied + log.length := by
  induction log generalizing machine with
  | nil =>
      cases h
      exact ⟨rfl, rfl⟩
  | cons entry log ih =>
      obtain ⟨next, hnext, h⟩ := Option.bind_eq_some_iff.mp h
      obtain ⟨hcontents, happlied, -, -⟩ := applyEntry_spec hnext
      obtain ⟨hrest, hlast⟩ := ih h
      rw [hcontents] at hrest
      refine ⟨hrest, ?_⟩
      rw [hlast, happlied, List.length_cons]
      omega

/-- The map is ahead of its index by at most what had been applied up to `taken`. -/
structure StandsFor (machine : StateMachine) (log : List LogEntry) (taken : Nat) :
    Prop where
  held : machine.lastApplied ≤ log.length
  readable : (new.replay (log.take machine.lastApplied)).isSome = true
  ahead : Ahead new.contents (log.map writeOf) machine.lastApplied taken machine.contents
  fits : machine.Fits

theorem contents_new (key : Bytes) : new.contents key = none :=
  Std.ExtTreeMap.getElem?_empty

theorem fits_new : new.Fits := by
  rw [fits_iff]
  intro key value hheld
  rw [contents_new] at hheld
  cases hheld

namespace StandsFor

variable {taken boundary : Nat}

theorem initial (log : List LogEntry) : StandsFor new log 0 where
  held := Nat.zero_le _
  readable := rfl
  ahead := .initial
  fits := fits_new

theorem applied (h : machine.StandsFor log taken) (hentry : log[machine.lastApplied]? = some entry)
    (happly : machine.applyEntry entry = some next) : next.StandsFor log taken := by
  obtain ⟨hcontents, happlied, hfits, happlies⟩ := applyEntry_spec happly
  refine ⟨?_, ?_, ?_, hfits h.fits⟩
  · rw [happlied]
    exact (List.getElem?_eq_some_iff.mp hentry).1
  · obtain ⟨state, hstate⟩ := Option.isSome_iff_exists.mp h.readable
    rw [happlied, replay_succ hentry, hstate]
    exact happlies state
  · rw [happlied, hcontents]
    apply h.ahead.next
    rw [List.getElem?_map, hentry]
    rfl

/-- The map as it is, for fewer entries. -/
theorem back (h : machine.StandsFor log taken) (hle : boundary ≤ machine.lastApplied) :
    StandsFor ⟨machine.entries, boundary⟩ log (max taken machine.lastApplied) where
  held := hle.trans h.held
  readable := by
    obtain ⟨state, hstate⟩ := Option.isSome_iff_exists.mp h.readable
    have hsplit : log.take machine.lastApplied =
        log.take boundary ++ (log.drop boundary).take (machine.lastApplied - boundary) := by
      rw [← List.take_add, Nat.add_sub_cancel' hle]
    rw [hsplit, replay_append] at hstate
    obtain ⟨early, hearly, -⟩ := Option.bind_eq_some_iff.mp hstate
    exact Option.isSome_iff_exists.mpr ⟨early, hearly⟩
  ahead := h.ahead.back hle
  fits := h.fits

theorem caught_up (h : machine.StandsFor log taken) (hle : taken ≤ machine.lastApplied) :
    new.replay (log.take machine.lastApplied) = some machine := by
  obtain ⟨state, hstate⟩ := Option.isSome_iff_exists.mp h.readable
  obtain ⟨hcontents, happlied⟩ := replay_contents hstate
  rw [hstate]
  refine congrArg some (ext_contents ?_ ?_)
  · rw [hcontents, h.ahead.caught_up hle, List.map_take]
  · rw [happlied, List.length_take_of_le h.held]
    exact Nat.zero_add _

end StandsFor

end StateMachine

namespace Replica

/-- A snapshot that has been taken: its boundary, and what had been applied. -/
structure Taking where
  boundary : Nat
  applied : Nat
deriving DecidableEq, Repr

variable {replica next : Replica} {deliveries : List Delivery} {request : Request}
  {log : List LogEntry} {chain : List Taking} {taken : Nat}

/-- What is applied above `first` are entries of the log. -/
def AppliesFrom (replica : Replica) (log : List LogEntry) (first : Nat) : Prop :=
  ∀ index, first < index → index ≤ replica.lastApplied →
    replica.node.entryAt index = log[index - 1]?

instance (replica : Replica) (log : List LogEntry) (first : Nat) :
    Decidable (replica.AppliesFrom log first) :=
  decidable_of_iff (∀ index < replica.lastApplied + 1, first < index →
      replica.node.entryAt index = log[index - 1]?)
    ⟨fun h index hlow hhigh => h index (Nat.lt_succ_of_le hhigh) hlow,
      fun h index hhigh hlow => h index hlow (Nat.le_of_lt_succ hhigh)⟩

/-- `compact` emits the snapshot `data` at `boundary`. -/
def Takes (replica : Replica) (boundary : Nat) (data : Bytes) : Prop :=
  ∃ retain compacted effects term config,
    replica.compact retain = .ok (compacted, some effects) ∧
      .persistSnapshot boundary term data config ∈ effects

/-- Replicas of one log, each started with nothing or from a snapshot that one of
them has taken; with the snapshots that the map comes from, the last one first. -/
inductive Lineage (log : List LogEntry) : Replica → List Taking → Prop
  | started {node : Node} {replica : Replica} : node.snapshot.lastIncludedIndex = 0 →
      recover node = .ok replica → Lineage log replica []
  | recovered {source replica : Replica} {chain : List Taking} {node : Node} :
      Lineage log source chain →
      source.Takes node.snapshot.lastIncludedIndex node.snapshotData →
      recover node = .ok replica →
      Lineage log replica (⟨node.snapshot.lastIncludedIndex, source.lastApplied⟩ :: chain)
  | served {replica next : Replica} {chain : List Taking} {request : Request}
      {deliveries : List Delivery} : Lineage log replica chain →
      replica.perform request = .ok (next, deliveries) →
      next.node.snapshot.lastIncludedIndex ≤ replica.lastApplied →
      next.AppliesFrom log replica.lastApplied → Lineage log next chain
  | installed {source replica next : Replica} {chain before : List Taking}
      {request : Request} {deliveries : List Delivery} : Lineage log source chain →
      Lineage log replica before → replica.perform request = .ok (next, deliveries) →
      replica.lastApplied < next.node.snapshot.lastIncludedIndex →
      source.Takes next.node.snapshot.lastIncludedIndex next.node.snapshotData →
      next.AppliesFrom log next.node.snapshot.lastIncludedIndex →
      Lineage log next
        (⟨next.node.snapshot.lastIncludedIndex, source.lastApplied⟩ :: chain)

/-- Requests of an owner one after the other, as long as what they apply is in the
log and no snapshot is jumped to. -/
def follows (log : List LogEntry) (replica : Replica) (requests : List Request) :
    Option Replica :=
  requests.foldlM (fun replica request =>
    (replica.perform request).toOption.bind (fun (next, _) =>
      if next.node.snapshot.lastIncludedIndex ≤ replica.lastApplied ∧
          next.AppliesFrom log replica.lastApplied then some next
      else none)) replica

theorem Lineage.follows {requests : List Request} (h : Lineage log replica chain)
    (hfollows : replica.follows log requests = some next) : Lineage log next chain := by
  induction requests generalizing replica with
  | nil =>
      cases hfollows
      exact h
  | cons request rest ih =>
      obtain ⟨middle, hmiddle, hrest⟩ := Option.bind_eq_some_iff.mp hfollows
      obtain ⟨⟨served, deliveries⟩, hperform, hchecked⟩ := Option.bind_eq_some_iff.mp hmiddle
      obtain ⟨⟨hbehind, hfrom⟩, hsame⟩ := Option.ite_none_right_eq_some.mp hchecked
      cases hsame
      exact ih (.served h (ok_of_toOption hperform) hbehind hfrom) hrest

/-- The furthest any snapshot of a lineage had seen. -/
def furthest : List Taking → Nat
  | [] => 0
  | taking :: chain => max (furthest chain) taking.applied

theorem furthest_le {chain : List Taking} {bound : Nat}
    (h : ∀ taking ∈ chain, taking.applied ≤ bound) : furthest chain ≤ bound := by
  induction chain with
  | nil => exact Nat.zero_le _
  | cons taking chain ih =>
      rw [List.forall_mem_cons] at h
      exact Nat.max_le.mpr ⟨ih h.2, h.1⟩

theorem applyNext_applyEntry {delivery : Delivery}
    (h : replica.applyNext = .ok (next, delivery)) :
    ∃ entry, replica.node.entryAt (replica.lastApplied + 1) = some entry ∧
      replica.stateMachine.applyEntry entry = some next.stateMachine := by
  obtain ⟨entry, hentry, ⟨bytes, command, hpayload, hdecode, rfl, -⟩ |
    ⟨⟨config, hpayload⟩, rfl, -⟩⟩ := applyNext_cases h
  · refine ⟨entry, hentry, ?_⟩
    unfold StateMachine.applyEntry
    rw [hpayload]
    dsimp only
    rw [hdecode]
  · refine ⟨entry, hentry, ?_⟩
    unfold StateMachine.applyEntry
    rw [hpayload]

theorem Applies.standsFor (h : Applies replica deliveries next)
    (hfrom : next.AppliesFrom log replica.lastApplied)
    (hstands : replica.stateMachine.StandsFor log taken) :
    next.stateMachine.StandsFor log taken := by
  induction h with
  | done => exact hstands
  | @next replica middle last delivery deliveries hbehind hnext happlies ih =>
      obtain ⟨hnode, happlied⟩ := applyNext_lastApplied hnext
      obtain ⟨hlater, hconsecutive, -⟩ := happlies.spec
      have hreached := hconsecutive.le
      rw [happlied] at hreached ih
      obtain ⟨entry, hentry, happly⟩ := applyNext_applyEntry hnext
      have hlog := hfrom (replica.lastApplied + 1) (Nat.lt_succ_self _) hreached
      rw [hlater, hnode, hentry] at hlog
      apply ih (fun index hlow hhigh => hfrom index (by omega) hhigh)
      exact hstands.applied hlog.symm happly

/-- What is applied during a request starts from the map as it was, or from a
snapshot beyond it. -/
theorem perform_applies (h : replica.perform request = .ok (next, deliveries)) :
    ∃ middle applied, Applies middle applied next ∧
      ((middle.stateMachine = replica.stateMachine ∧ middle.results = replica.results ∧
          (replica.node.snapshot.lastIncludedIndex ≤ replica.lastApplied →
            next.node.snapshot.lastIncludedIndex ≤ replica.lastApplied)) ∨
        (replica.lastApplied < next.node.snapshot.lastIncludedIndex ∧
          replica.stateMachine.mustRestore next.node.snapshot.lastIncludedIndex
            next.node.snapshotData = .ok middle.stateMachine ∧
          middle.results = replica.results.filter
            (fun index _ => next.node.snapshot.lastIncludedIndex < index))) := by
  rcases perform_cases h with ⟨node, -, hdrain⟩ | ⟨-, rfl | ⟨retain, -, -, hcompact, rfl⟩⟩
  · obtain rfl : node = next.node := (drainCommitted_spec hdrain).1.symm
    obtain ⟨⟨middle, jumped⟩, hjump, hdrain⟩ := bind_eq_ok hdrain
    obtain ⟨⟨last, applied⟩, hloop, hdrain⟩ := bind_eq_ok hdrain
    cases hdrain
    refine ⟨middle, applied, (applyCommitted_applies hloop).1, ?_⟩
    rcases jump_cases hjump with ⟨hle, rfl, -⟩ | ⟨hahead, machine, hmachine, rfl, -⟩
    · exact Or.inl ⟨rfl, rfl, fun _ => hle⟩
    · exact Or.inr ⟨hahead, hmachine, rfl⟩
  · exact ⟨next, [], .done, Or.inl ⟨rfl, rfl, id⟩⟩
  · refine ⟨_, [], .done, Or.inl ⟨rfl, rfl, fun hle => ?_⟩⟩
    rcases Kurogane.Raft.Node.compact_cases hcompact with ⟨-, rfl, -⟩ |
      ⟨term, config, rest, -, -, -, -, -, rfl, -⟩
    · exact hle
    · exact Nat.sub_le _ _

/-- The bytes are those of the map as it is, whatever the boundary. -/
theorem Takes.spec {boundary : Nat} {data : Bytes} (h : replica.Takes boundary data) :
    0 < boundary ∧ boundary ≤ replica.lastApplied ∧
      data = replica.stateMachine.snapshot := by
  obtain ⟨retain, compacted, effects, term, config, hcompact, hmem⟩ := h
  unfold compact at hcompact
  dsimp only at hcompact
  split at hcompact
  · cases hcompact
  rename_i hdue
  split at hcompact
  · cases hcompact
  · cases hcompact
  · rename_i node emitted hnode
    cases hcompact
    rcases Kurogane.Raft.Node.compact_cases hnode with ⟨hle, -, -⟩ |
      ⟨taken, configuration, rest, -, -, -, -, -, -, rfl⟩
    · omega
    · rcases List.mem_cons.mp hmem with hsnapshot | hlog
      · cases hsnapshot
        exact ⟨by omega, Nat.sub_le _ _, rfl⟩
      · cases List.mem_singleton.mp hlog

/-- Whoever restores such a snapshot has the map it was taken of. -/
theorem Takes.restores {boundary : Nat} {data : Bytes} {machine restored : StateMachine}
    (h : replica.Takes boundary data) (hfits : replica.stateMachine.Fits)
    (hrestore : machine.mustRestore boundary data = .ok restored) :
    restored = ⟨replica.stateMachine.entries, boundary⟩ := by
  obtain ⟨-, -, rfl⟩ := h.spec
  unfold StateMachine.mustRestore at hrestore
  rw [StateMachine.restore_snapshot machine hfits] at hrestore
  cases hrestore
  rfl

theorem recover_spec {node : Node} (h : recover node = .ok replica) :
    replica.node = node ∧ replica.results = ∅ ∧
      (node.snapshot.lastIncludedIndex = 0 → replica.stateMachine = .new) ∧
      (0 < node.snapshot.lastIncludedIndex →
        StateMachine.new.mustRestore node.snapshot.lastIncludedIndex node.snapshotData =
          .ok replica.stateMachine) := by
  unfold recover at h
  split at h
  · rename_i hpos
    obtain ⟨machine, hmachine, h⟩ := bind_eq_ok h
    cases h
    exact ⟨rfl, rfl, fun hnone => absurd hpos (hnone ▸ Nat.lt_irrefl 0), fun _ => hmachine⟩
  · rename_i hnone
    cases h
    exact ⟨rfl, rfl, fun _ => rfl, fun hpos => absurd hpos hnone⟩

theorem Lineage.standsFor (h : Lineage log replica chain) :
    replica.stateMachine.StandsFor log (furthest chain) ∧
      replica.node.snapshot.lastIncludedIndex ≤ replica.lastApplied := by
  induction h with
  | @started node replica hnone hrecover =>
      obtain ⟨hnode, -, hnew, -⟩ := recover_spec hrecover
      rw [hnew hnone, hnode, hnone]
      exact ⟨.initial log, Nat.zero_le _⟩
  | @recovered source replica chain node _ htakes hrecover ih =>
      obtain ⟨hnode, -, -, hmachine⟩ := recover_spec hrecover
      obtain ⟨hpos, hle, -⟩ := htakes.spec
      have hrestored := htakes.restores ih.1.fits (hmachine hpos)
      rw [hrestored, hnode]
      exact ⟨ih.1.back hle, (congrArg StateMachine.lastApplied hrestored).ge⟩
  | served _ hperform hbehind hfrom ih =>
      obtain ⟨middle, applied, happlies, ⟨hsame, -, -⟩ | ⟨hahead, -, -⟩⟩ :=
        perform_applies hperform
      · have happlied := congrArg StateMachine.lastApplied hsame
        have hreached := happlies.spec.2.1.le
        refine ⟨happlies.standsFor ?_ (hsame ▸ ih.1), ?_⟩
        · exact fun index hlow hhigh => hfrom index (happlied.ge.trans_lt hlow) hhigh
        · exact hbehind.trans (happlied.ge.trans hreached)
      · exact absurd hahead (Nat.not_lt.mpr hbehind)
  | installed _ _ hperform hahead htakes hfrom ihsource ih =>
      obtain ⟨middle, applied, happlies, ⟨-, -, hkept⟩ | ⟨-, hmachine, -⟩⟩ :=
        perform_applies hperform
      · exact absurd hahead (Nat.not_lt.mpr (hkept ih.2))
      · have hrestored := htakes.restores ihsource.1.fits hmachine
        have hstands := hrestored ▸ ihsource.1.back htakes.spec.2.1
        have happlied : middle.lastApplied = _ :=
          congrArg StateMachine.lastApplied hrestored
        have hreached := happlies.spec.2.1.le
        rw [happlied] at hreached
        refine ⟨happlies.standsFor ?_ hstands, hreached⟩
        rw [happlied]
        exact hfrom

/-- Snapshots may have been taken ahead of their boundary, and others of maps started
from them: once a replica has applied as far as any of them had seen, its map is the
one the log leads to. -/
theorem replicas_converge (h : Lineage log replica chain)
    (hpast : ∀ taking ∈ chain, taking.applied ≤ replica.lastApplied) :
    StateMachine.new.replay (log.take replica.lastApplied) = some replica.stateMachine :=
  h.standsFor.1.caught_up (furthest_le hpast)

/-! ### A snapshot that is ahead -/

/-- Server 1 sends what is above `prev`, all of it committed. -/
def sendsAbove (log : List LogEntry) (prev : Nat) : Request :=
  .step (.step ⟨1⟩ (.appendEntries ⟨1, ⟨1⟩, prev, prev, log.drop prev, log.length⟩))

/-- Server 2 starts with nothing and hears of the whole log. -/
def hearsAll (log : List LogEntry) : Option (Node × Replica × Replica) := do
  let node ← (Node.new ⟨2⟩ [⟨1⟩, ⟨2⟩, ⟨3⟩] 1 1).toOption
  let start ← (recover node).toOption
  let (replica, _) ← (start.perform (sendsAbove log 0)).toOption
  some (node, start, replica)

/-- Server 3 starts from a snapshot of the first entry and hears of the rest. -/
def hearsRest (log : List LogEntry) (data : Bytes) : Option (Node × Replica × Replica) := do
  let node ← (Node.recover ⟨3⟩ [⟨1⟩, ⟨2⟩, ⟨3⟩] 1 1 ⟨1, none⟩ []
    ⟨⟨1, 1⟩, data, ⟨[⟨1⟩, ⟨2⟩, ⟨3⟩], none⟩⟩ []).toOption
  let start ← (recover node).toOption
  let (replica, _) ← (start.perform (sendsAbove log 1)).toOption
  some (node, start, replica)

/-- Of two entries server 2 has applied both when it compacts the first; server 3
starts from the snapshot. -/
theorem snapshot_of_first (log : List LogEntry) (data : Bytes) (first second : ApplyResult)
    (hall : (hearsAll log).any (fun found => decide
      (found.1.snapshot.lastIncludedIndex = 0 ∧
        found.2.2.node.snapshot.lastIncludedIndex ≤ found.2.1.lastApplied ∧
        found.2.2.AppliesFrom log found.2.1.lastApplied ∧ found.2.2.lastApplied = 2 ∧
        found.2.2.appliedResult 2 = some first ∧
        (found.2.2.compact 1).toOption.any (fun answer => decide (answer.2 = some
          [.persistSnapshot 1 1 data ⟨[⟨1⟩, ⟨2⟩, ⟨3⟩], none⟩,
            .persistLog 2 (log.drop 1)])) = true)) = true)
    (hrest : (hearsRest log data).any (fun found => decide
      (found.1.snapshot.lastIncludedIndex = 1 ∧ found.1.snapshotData = data ∧
        found.2.2.node.snapshot.lastIncludedIndex ≤ found.2.1.lastApplied ∧
        found.2.2.AppliesFrom log found.2.1.lastApplied ∧ found.2.2.lastApplied = 2 ∧
        found.2.2.appliedResult 2 = some second)) = true) :
    ∃ source replica : Replica, Lineage log source [] ∧ source.Takes 1 data ∧
      source.lastApplied = 2 ∧ source.appliedResult 2 = some first ∧
      Lineage log replica [⟨1, 2⟩] ∧ replica.lastApplied = 2 ∧
      replica.appliedResult 2 = some second := by
  obtain ⟨⟨node, start, source⟩, hrun, hnone, hbehind, hfrom, htwo, hfirst, hcompact⟩ :=
    exists_of_any hall
  simp only [hearsAll, Option.bind_eq_bind, Option.bind_eq_some_iff] at hrun
  obtain ⟨_, -, _, hstart, ⟨source, deliveries⟩, hserve, hrun⟩ := hrun
  cases hrun
  have hsource : Lineage log source [] :=
    .served (.started hnone (ok_of_toOption hstart))
      (ok_of_toOption hserve) hbehind hfrom
  obtain ⟨⟨compacted, _⟩, hcompacted, rfl⟩ := exists_of_any hcompact
  have htakes : source.Takes 1 data :=
    ⟨1, compacted, _, _, _, ok_of_toOption hcompacted, List.mem_cons_self⟩
  obtain ⟨⟨node', start', replica⟩, hrun', hone, hdata, hbehind', hfrom', htwo', hsecond⟩ :=
    exists_of_any hrest
  simp only [hearsRest, Option.bind_eq_bind, Option.bind_eq_some_iff] at hrun'
  obtain ⟨_, -, _, hstart', ⟨replica, deliveries'⟩, hserve', hrun'⟩ := hrun'
  cases hrun'
  have hrecovered : Lineage log start' [⟨1, 2⟩] := by
    rw [← hone, ← htwo]
    apply Lineage.recovered hsource _ (ok_of_toOption hstart')
    rw [hone, hdata]
    exact htakes
  exact ⟨source, replica, hsource, htakes, htwo, hfirst,
    .served hrecovered (ok_of_toOption hserve') hbehind' hfrom', htwo', hsecond⟩

def setThenDelete : List LogEntry :=
  [⟨1, .command (Command.set [7] [8]).encode⟩, ⟨1, .command (Command.delete [7]).encode⟩]

/-- No key is left in the snapshot, though the first entry sets one. -/
theorem late_snapshot_converges : ∃ source replica : Replica,
    Lineage setThenDelete source [] ∧ source.Takes 1 [] ∧
      Lineage setThenDelete replica [⟨1, 2⟩] ∧ replica.lastApplied = 2 ∧
      StateMachine.new.replay (setThenDelete.take 2) = some replica.stateMachine := by
  obtain ⟨source, replica, hsource, htakes, -, -, hreplica, htwo, -⟩ :=
    snapshot_of_first setThenDelete [] (.delete (some [8])) (.delete none)
      (by decide +kernel) (by decide +kernel)
  have hconverged := replicas_converge hreplica (by
    rw [List.forall_mem_singleton]
    exact htwo.ge)
  rw [htwo] at hconverged
  exact ⟨source, replica, hsource, htakes, hreplica, htwo, hconverged⟩

end Replica

end Kurogane.Kv
