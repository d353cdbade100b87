import Kurogane.Verify.Linearizability

/-!
The generator of runs: in every tick a fault may be injected, and each client that is
not waiting for an answer may submit its next operation. So the operations of one
client follow one another, while those of different clients overlap.
-/

namespace Kurogane.Verify

open Kurogane.Raft Kurogane.Kv
open Kurogane.Sim (Rng TraceEvent checked)

instance : LinearOrder ClientId :=
  LinearOrder.lift' ClientId.id (fun a b h => by
    cases a
    cases b
    exact congrArg ClientId.mk h)

instance : Std.LawfulEqOrd ClientId where
  eq_of_compare h := compare_eq_iff_eq.mp h

abbrev ClientSet := Std.ExtTreeSet ClientId

/-- Specifies a run, together with a seed. -/
structure RunConfig where
  peers : List NodeId
  electionTimeout : Nat
  heartbeatInterval : Nat
  minDelay : Nat
  maxDelay : Nat
  applyTimeoutTicks : Nat
  clientCount : Nat
  totalTicks : Nat
  submitChancePercent : Nat
  faultChancePercent : Nat
deriving DecidableEq, Repr

/-- `to_le_bytes` of a `u64`. -/
def leBytes (number : Nat) : Bytes :=
  [number.toUInt8, (number / 256).toUInt8, (number / 65536).toUInt8,
    (number / 16777216).toUInt8, (number / 4294967296).toUInt8,
    (number / 1099511627776).toUInt8, (number / 281474976710656).toUInt8,
    (number / 72057594037927936).toUInt8]

/-- The keys `a`, `b` and `c`. -/
def keys : List Bytes := [[97], [98], [99]]

/-- An element at a drawn position. -/
def pick {α : Type} (rng : Rng) (choices : List α) : Except Panic (α × Rng) :=
  if choices.isEmpty then .error (.schedule .arithmetic)
  else do
    let (position, rng) ← (rng.rangeInclusive 0 (choices.length - 1)).mapError .schedule
    match choices[position]? with
    | none => .error .outOfBounds
    | some choice => .ok (choice, rng)

def randomCommand (rng : Rng) (unique : Nat) : Except Panic (Command × Rng) := do
  let (key, rng) ← pick rng keys
  let (kind, rng) ← (rng.rangeInclusive 0 2).mapError .schedule
  match kind with
  | 0 => .ok (.set key (leBytes unique), rng)
  | 1 => .ok (.get key, rng)
  | _ => .ok (.delete key, rng)

/-- A client's cached leader hint, read off the replicas. -/
def Harness.currentLeader (harness : Harness) : Option NodeId :=
  (harness.replicas.toList.find? (fun (_, replica) => replica.node.role = .leader)).map
    Prod.fst

def Harness.injectRandomFault (harness : Harness) (rng : Rng) (peers : List NodeId) :
    Except Panic (Harness × Rng) := do
  let (target, rng) ← pick rng peers
  let (kind, rng) ← (rng.rangeInclusive 0 3).mapError .schedule
  match kind with
  | 0 => .ok (harness.isolate target, rng)
  | 1 => .ok (harness.heal target, rng)
  | 2 => .ok (harness.crash target, rng)
  | _ => do
      let harness ← harness.restart target
      .ok (harness, rng)

/-- The harness with what the generator knows of its clients. -/
structure Driver where
  harness : Harness
  rng : Rng
  busy : ClientSet
  historySeen : Nat
  keyCounter : Nat

namespace Driver

def new (seed : UInt64) (config : RunConfig) : Except Panic Driver := do
  let maxTimeout ← (checked (config.electionTimeout * 2)).mapError .schedule
  let harness ← Harness.new config.peers config.electionTimeout config.heartbeatInterval
    seed config.electionTimeout maxTimeout config.minDelay config.maxDelay
    config.applyTimeoutTicks
  .ok {
    harness
    rng := Rng.new (seed ^^^ 0xD1B54A32D192ED03)
    busy := ∅
    historySeen := 0
    keyCounter := 0 }

/-- Who has been answered is not busy any more. -/
def observe (driver : Driver) : Driver :=
  { driver with
    busy := (driver.harness.history.drop driver.historySeen).foldl
      (fun busy entry => busy.erase entry.client) driver.busy
    historySeen := driver.harness.history.length }

def disturb (config : RunConfig) (driver : Driver) : Except Panic Driver := do
  let (roll, rng) ← (driver.rng.rangeInclusive 0 99).mapError .schedule
  if roll < config.faultChancePercent then
    let (harness, rng) ← driver.harness.injectRandomFault rng config.peers
    .ok { driver with harness, rng }
  else .ok { driver with rng }

def target (config : RunConfig) (driver : Driver) (rng : Rng) :
    Except Panic (NodeId × Rng) :=
  match driver.harness.currentLeader with
  | some leader => .ok (leader, rng)
  | none => pick rng config.peers

/-- The turn of one client. -/
def consider (config : RunConfig) (driver : Driver) (clientIndex : Nat) :
    Except Panic Driver :=
  let client : ClientId := ⟨clientIndex⟩
  if driver.busy.contains client then .ok driver
  else do
    let (roll, rng) ← (driver.rng.rangeInclusive 0 99).mapError .schedule
    if config.submitChancePercent ≤ roll then .ok { driver with rng }
    else do
      let (target, rng) ← driver.target config rng
      let keyCounter ← (checked (driver.keyCounter + 1)).mapError .schedule
      let (command, rng) ← randomCommand rng keyCounter
      let harness ← driver.harness.submit client target command
      .ok { driver with harness, rng, busy := driver.busy.insert client, keyCounter }

def tick (config : RunConfig) (driver : Driver) : Except Panic Driver := do
  let harness ← driver.harness.step
  let driver ← { driver with harness }.observe.disturb config
  (List.range config.clientCount).foldlM (consider config) driver

end Driver

/-- Generates one concurrent, fault-injected run. -/
def run (seed : UInt64) (config : RunConfig) :
    Except Panic (List TraceEvent × List HistoryEntry × List FaultEvent) := do
  let driver ← Driver.new seed config
  let driver ← (List.range config.totalTicks).foldlM (fun driver _ => driver.tick config) driver
  .ok (driver.harness.trace, driver.harness.finish, driver.harness.faults)

/-! ### What the generator does to its harness -/

section

variable {harness middle harness' : Harness} {rng rng' : Rng}

theorem lt_of_checked {number result : Nat} (h : checked number = .ok result) :
    number < 2 ^ 64 := by
  unfold checked at h
  split at h
  · assumption
  · cases h

theorem pick_mem {α : Type} {choices : List α} {choice : α}
    (h : pick rng choices = .ok (choice, rng')) : choice ∈ choices := by
  unfold pick at h
  split at h
  · cases h
  obtain ⟨⟨position, drawn⟩, -, h⟩ := bind_eq_ok h
  dsimp only at h
  split at h
  · cases h
  · rename_i hfound
    cases h
    exact List.mem_of_getElem? hfound

/-- The value a command writes. -/
def written : Command → Option Bytes
  | .set _ value => some value
  | .get _ | .delete _ => none

theorem randomCommand_spec {unique : Nat} {command : Command}
    (h : randomCommand rng unique = .ok (command, rng')) :
    command.Fits ∧ ∀ value, written command = some value → value = leBytes unique := by
  obtain ⟨⟨key, rng₁⟩, hkey, h⟩ := bind_eq_ok h
  obtain ⟨⟨kind, rng₂⟩, -, h⟩ := bind_eq_ok h
  have hshort : key.length < 2 ^ 32 :=
    (show ∀ key ∈ keys, key.length < 2 ^ 32 by decide) key (pick_mem hkey)
  dsimp only at h
  split at h
  · cases h
    refine ⟨⟨hshort, by simp [leBytes]⟩, ?_⟩
    rintro value ⟨⟩
    rfl
  · cases h
    exact ⟨hshort, nofun⟩
  · cases h
    exact ⟨hshort, nofun⟩

/-- Calls with commands of small enough lengths lead from one harness to the other. -/
def Harness.Leads (harness harness' : Harness) : Prop :=
  ∃ calls : List Call, (∀ call ∈ calls, call.Fits) ∧ harness.run calls = .ok harness'

namespace Harness.Leads

theorem refl (harness : Harness) : harness.Leads harness := ⟨[], nofun, rfl⟩

theorem trans (h : harness.Leads middle) (h' : middle.Leads harness') :
    harness.Leads harness' := by
  obtain ⟨calls, hfits, hcalls⟩ := h
  obtain ⟨calls', hfits', hcalls'⟩ := h'
  refine ⟨calls ++ calls', List.forall_mem_append.mpr ⟨hfits, hfits'⟩, ?_⟩
  unfold Harness.run at hcalls hcalls' ⊢
  rw [List.foldlM_append, hcalls]
  exact hcalls'

theorem call {call : Call} (hfits : call.Fits) (hcall : harness.call call = .ok harness') :
    harness.Leads harness' := by
  refine ⟨[call], List.forall_mem_singleton.mpr hfits, ?_⟩
  show harness.call call >>= _ = _
  rw [hcall]
  rfl

end Harness.Leads

/-- The calls that inject a fault. -/
def Call.IsFault : Call → Prop
  | .isolate _ | .heal _ | .crash _ | .restart _ => True
  | .submit _ _ _ | .step => False

theorem Call.IsFault.fits {call : Call} (h : call.IsFault) : call.Fits := by
  cases call with
  | submit client target command => cases h
  | step | isolate id | heal id | crash id | restart id => trivial

theorem injectRandomFault_call {peers : List NodeId}
    (h : harness.injectRandomFault rng peers = .ok (harness', rng')) :
    ∃ call : Call, call.IsFault ∧ harness.call call = .ok harness' := by
  obtain ⟨⟨id, rng₁⟩, -, h⟩ := bind_eq_ok h
  obtain ⟨⟨kind, rng₂⟩, -, h⟩ := bind_eq_ok h
  dsimp only at h
  split at h
  · cases h
    exact ⟨.isolate id, trivial, rfl⟩
  · cases h
    exact ⟨.heal id, trivial, rfl⟩
  · cases h
    exact ⟨.crash id, trivial, rfl⟩
  · obtain ⟨last, hrestart, h⟩ := bind_eq_ok h
    cases h
    exact ⟨.restart id, trivial, hrestart⟩

end

namespace Driver

variable {config : RunConfig} {driver driver' : Driver}

theorem disturb_cases (h : driver.disturb config = .ok driver') :
    ∃ harness rng, driver' = { driver with harness, rng } ∧
      (harness = driver.harness ∨
        ∃ call : Call, call.IsFault ∧ driver.harness.call call = .ok harness) := by
  obtain ⟨⟨roll, rng⟩, -, h⟩ := bind_eq_ok h
  dsimp only at h
  split at h
  · obtain ⟨⟨harness, rng'⟩, hfault, h⟩ := bind_eq_ok h
    cases h
    exact ⟨harness, rng', rfl, Or.inr (injectRandomFault_call hfault)⟩
  · cases h
    exact ⟨_, rng, rfl, Or.inl rfl⟩

/-- A client waits, lets its turn pass, or submits an operation. -/
theorem consider_cases {clientIndex : Nat}
    (h : driver.consider config clientIndex = .ok driver') :
    (∃ rng, driver' = { driver with rng }) ∨
    ∃ target rng command harness, driver.busy.contains ⟨clientIndex⟩ = false ∧
      driver.keyCounter + 1 < 2 ^ 64 ∧ command.Fits ∧
      (∀ value, written command = some value → value = leBytes (driver.keyCounter + 1)) ∧
      driver.harness.submit ⟨clientIndex⟩ target command = .ok harness ∧
      driver' = { driver with
        harness
        rng
        busy := driver.busy.insert ⟨clientIndex⟩
        keyCounter := driver.keyCounter + 1 } := by
  unfold consider at h
  dsimp only at h
  split at h
  · cases h
    exact Or.inl ⟨_, rfl⟩
  rename_i hidle
  obtain ⟨⟨roll, rng⟩, -, h⟩ := bind_eq_ok h
  dsimp only at h
  split at h
  · cases h
    exact Or.inl ⟨rng, rfl⟩
  obtain ⟨⟨target, rng₁⟩, -, h⟩ := bind_eq_ok h
  obtain ⟨keyCounter, hcounter, h⟩ := bind_eq_ok h
  obtain ⟨⟨command, rng₂⟩, hcommand, h⟩ := bind_eq_ok h
  obtain ⟨harness, hsubmit, h⟩ := bind_eq_ok h
  cases h
  have hcounter := ok_of_mapError hcounter
  obtain rfl := Sim.checked_ok hcounter
  obtain ⟨hfits, hwritten⟩ := randomCommand_spec hcommand
  exact Or.inr ⟨target, rng₂, command, harness, Bool.not_eq_true _ ▸ hidle,
    lt_of_checked hcounter, hfits, hwritten, hsubmit, rfl⟩

theorem disturb_leads (h : driver.disturb config = .ok driver') :
    driver.harness.Leads driver'.harness := by
  obtain ⟨harness, rng, rfl, rfl | ⟨call, hfault, hcall⟩⟩ := disturb_cases h
  · exact .refl _
  · exact .call hfault.fits hcall

theorem consider_leads {clientIndex : Nat}
    (h : driver.consider config clientIndex = .ok driver') :
    driver.harness.Leads driver'.harness := by
  rcases consider_cases h with ⟨rng, rfl⟩ | ⟨target, rng, command, harness, -, -, hfits, -,
    hsubmit, rfl⟩
  · exact .refl _
  · have hcall : driver.harness.call (.submit ⟨clientIndex⟩ target command) = .ok harness :=
      hsubmit
    exact .call (by exact hfits) hcall

theorem tick_leads (h : driver.tick config = .ok driver') :
    driver.harness.Leads driver'.harness := by
  obtain ⟨harness, hstep, h⟩ := bind_eq_ok h
  obtain ⟨disturbed, hdisturb, h⟩ := bind_eq_ok h
  have hcall : driver.harness.call .step = .ok harness := hstep
  have hfirst : driver.harness.Leads harness := .call (by trivial) hcall
  have hdisturbed : driver.harness.Leads disturbed.harness :=
    hfirst.trans (disturb_leads hdisturb)
  refine Sim.foldlM_invariant (fun now : Driver => driver.harness.Leads now.harness) ?_
    hdisturbed h
  exact fun now client next hnow hconsider => hnow.trans (consider_leads hconsider)

end Driver

/-- The harness in the end is one that calls have led to. -/
theorem run_leads {seed : UInt64} {config : RunConfig} {trace : List TraceEvent}
    {history : List HistoryEntry} {faults : List FaultEvent}
    (hrun : run seed config = .ok (trace, history, faults)) :
    ∃ maxTimeout start last, Harness.new config.peers config.electionTimeout
        config.heartbeatInterval seed config.electionTimeout maxTimeout config.minDelay
        config.maxDelay config.applyTimeoutTicks = .ok start ∧
      start.Leads last ∧ history = last.finish := by
  obtain ⟨first, hfirst, hrun⟩ := bind_eq_ok hrun
  obtain ⟨last, hlast, hrun⟩ := bind_eq_ok hrun
  cases hrun
  obtain ⟨maxTimeout, -, hfirst⟩ := bind_eq_ok hfirst
  obtain ⟨start, hstart, hfirst⟩ := bind_eq_ok hfirst
  cases hfirst
  refine ⟨maxTimeout, start, last.harness, hstart, ?_, rfl⟩
  refine Sim.foldlM_invariant (fun now : Driver => start.Leads now.harness) ?_ (.refl start) hlast
  exact fun now _ next hnow htick => hnow.trans (Driver.tick_leads htick)

/-- Every generated history is linearizable, whatever the faults. -/
theorem generated_histories_linearizable {seed : UInt64} {config : RunConfig}
    {trace : List TraceEvent} {history : List HistoryEntry} {faults : List FaultEvent}
    (hrun : run seed config = .ok (trace, history, faults)) :
    ∃ order, Linearization history order := by
  obtain ⟨maxTimeout, start, last, hnew, ⟨calls, hfits, hcalls⟩, rfl⟩ := run_leads hrun
  exact ((Harness.new_inOrder hnew).run (Harness.takesOnly_of_fits hfits) hcalls).finish_fits

def faultyRun : RunConfig where
  peers := [⟨1⟩, ⟨2⟩, ⟨3⟩]
  electionTimeout := 3
  heartbeatInterval := 1
  minDelay := 1
  maxDelay := 1
  applyTimeoutTicks := 8
  clientCount := 2
  totalTicks := 24
  submitChancePercent := 30
  faultChancePercent := 10

/-- Two operations are answered and two time out: the leader has crashed while another
server is cut off. -/
theorem faultyRun_generates : ∃ trace history faults,
    run 8 faultyRun = .ok (trace, history, faults) ∧
    faults.map (fun fault => (fault.node, fault.kind)) =
      [(⟨3⟩, .isolated), (⟨2⟩, .crashed), (⟨3⟩, .healed), (⟨3⟩, .isolated),
        (⟨1⟩, .isolated)] ∧
    (history.filter (fun entry => entry.outcome ≠ .rejected)).map
      (fun entry => (entry.client, entry.command, entry.outcome)) =
      [(⟨1⟩, .get [97], .applied (.get none)),
        (⟨0⟩, .set [99] [7, 0, 0, 0, 0, 0, 0, 0], .applied (.set none)),
        (⟨1⟩, .get [99], .indeterminate), (⟨0⟩, .delete [97], .indeterminate)] := by
  have hplayed : (run 8 faultyRun).toOption.any (fun (_, history, faults) => decide (
      faults.map (fun fault => (fault.node, fault.kind)) =
        [(⟨3⟩, .isolated), (⟨2⟩, .crashed), (⟨3⟩, .healed), (⟨3⟩, .isolated),
          (⟨1⟩, .isolated)] ∧
      (history.filter (fun entry => entry.outcome ≠ .rejected)).map
        (fun entry => (entry.client, entry.command, entry.outcome)) =
        [(⟨1⟩, .get [97], .applied (.get none)),
          (⟨0⟩, .set [99] [7, 0, 0, 0, 0, 0, 0, 0], .applied (.set none)),
          (⟨1⟩, .get [99], .indeterminate), (⟨0⟩, .delete [97], .indeterminate)])) = true := by
    decide +kernel
  obtain ⟨⟨trace, history, faults⟩, hfound, hlike⟩ := exists_of_any hplayed
  exact ⟨trace, history, faults, ok_of_toOption hfound, hlike⟩

theorem faulty_run_linearizable : ∃ trace history faults,
    run 8 faultyRun = .ok (trace, history, faults) ∧ faults.length = 5 ∧
    ∃ order, Linearization history order := by
  obtain ⟨trace, history, faults, hrun, hfaults, -⟩ := faultyRun_generates
  refine ⟨trace, history, faults, hrun, ?_, generated_histories_linearizable hrun⟩
  have hlength := congrArg List.length hfaults
  rwa [List.length_map] at hlength

end Kurogane.Verify
