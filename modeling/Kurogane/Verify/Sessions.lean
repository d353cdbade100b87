import Kurogane.Verify.Driver

/-!
What is on record of the clients. Every operation that is submitted is answered once or
still outstanding in the end, and nothing else is. In a generated run a client has the
answer to one operation before it invokes the next, and no value is written twice.
-/

namespace Kurogane.Verify

open Kurogane.Raft Kurogane.Kv
open Kurogane.Sim (TraceEvent)

/-- What was asked for, by whom and when. -/
structure Asking where
  client : ClientId
  invokeTick : Nat
  command : Command
deriving DecidableEq

def HistoryEntry.asking (entry : HistoryEntry) : Asking :=
  ⟨entry.client, entry.invokeTick, entry.command⟩

def PendingOp.asking (op : PendingOp) : Asking := ⟨op.client, op.invokeTick, op.command⟩

/-- The operations among calls that begin at `clock`. -/
def submissions : Nat → List Call → List Asking
  | _, [] => []
  | clock, .submit client _ command :: rest =>
      ⟨client, clock, command⟩ :: submissions clock rest
  | clock, .step :: rest => submissions (clock + 1) rest
  | clock, .isolate _ :: rest | clock, .heal _ :: rest | clock, .crash _ :: rest
  | clock, .restart _ :: rest => submissions clock rest

namespace Harness

variable {harness harness' : Harness} {id : NodeId} {client : ClientId} {target : NodeId}
  {command : Command}

def asked (harness : Harness) : List Asking :=
  harness.history.map HistoryEntry.asking ++ harness.pending.map PendingOp.asking

/-! ### What calls leave on record -/

theorem applyEffects_records {effects : List Effect}
    (h : harness.applyEffects id effects = .ok harness') :
    harness.SameOperations harness' := by
  obtain ⟨middle, hpersist, h⟩ := bind_eq_ok h
  have hsame : harness.SameOperations middle := by
    unfold persist at hpersist
    split at hpersist
    · cases hpersist
      exact .refl _
    split at hpersist
    · cases hpersist
    · cases hpersist
      exact ⟨rfl, rfl, rfl⟩
  obtain ⟨_, _, _, rfl, -⟩ := foldlM_send_spec h
  exact hsame.trans ⟨rfl, rfl, rfl⟩

theorem serve_records {replica : Replica} {event : Event}
    (h : harness.serve id replica event = .ok harness') : harness.SameOperations harness' := by
  obtain ⟨⟨next, effects, deliveries⟩, -, h⟩ := bind_eq_ok h
  have hsame := applyEffects_records h
  exact ⟨hsame.clock, hsame.pending, hsame.history⟩

theorem deliver_records {envelope : Sim.Envelope} (h : harness.deliver envelope = .ok harness') :
    harness.SameOperations harness' := by
  unfold deliver at h
  split at h
  · cases h
    exact .refl _
  split at h
  · cases h
    exact .refl _
  · have hsame := serve_records h
    exact ⟨hsame.clock, hsame.pending, hsame.history⟩

theorem tick_records (h : harness.tick id = .ok harness') : harness.SameOperations harness' := by
  obtain ⟨⟨nextTimeout, rng⟩, -, h⟩ := bind_eq_ok h
  dsimp only at h
  split at h
  · cases h
  · have hsame := serve_records h
    exact ⟨hsame.clock, hsame.pending, hsame.history⟩

/-- A step moves time on and then looks at the operations. -/
theorem step_records (h : harness.step = .ok harness') :
    ∃ middle : Harness, middle.clock = harness.clock + 1 ∧ middle.pending = harness.pending ∧
      middle.history = harness.history ∧ harness' = middle.resolvePending := by
  obtain ⟨clock, hclock, h⟩ := bind_eq_ok h
  obtain rfl := Sim.checked_ok (ok_of_mapError hclock)
  obtain ⟨middle, hdeliver, h⟩ := bind_eq_ok h
  obtain ⟨last, htick, h⟩ := bind_eq_ok h
  cases h
  have hdelivered : ({ harness with
      clock := harness.clock + 1
      inbox := harness.inbox.erase (harness.clock + 1) } : Harness).SameOperations middle :=
    Sim.foldlM_invariant (SameOperations _)
      (fun _ _ _ hnow hnext => hnow.trans (deliver_records hnext)) (.refl _) hdeliver
  have hticked : middle.SameOperations last :=
    Sim.foldlM_invariant (SameOperations _)
      (fun _ _ _ hnow hnext => hnow.trans (tick_records hnext)) (.refl _) htick
  have hsame := hdelivered.trans hticked
  exact ⟨last, hsame.clock, hsame.pending, hsame.history, rfl⟩

/-- An operation is turned down at once, or pending. -/
theorem submit_records (h : harness.submit client target command = .ok harness') :
    harness'.clock = harness.clock ∧
      (harness'.pending = harness.pending ∧ harness'.history = harness.history ++
          [⟨client, harness.clock, some harness.clock, command, .rejected⟩] ∨
        ∃ op : PendingOp, op.asking = ⟨client, harness.clock, command⟩ ∧
          harness'.pending = harness.pending ++ [op] ∧ harness'.history = harness.history) := by
  unfold submit at h
  split at h
  · cases h
    exact ⟨rfl, Or.inl ⟨rfl, rfl⟩⟩
  obtain ⟨⟨replica, answer, deliveries⟩, -, h⟩ := bind_eq_ok h
  dsimp only at h
  split at h
  · cases h
    exact ⟨rfl, Or.inl ⟨rfl, rfl⟩⟩
  split at h
  · cases h
  obtain ⟨middle, hmiddle, h⟩ := bind_eq_ok h
  obtain ⟨deadline, -, h⟩ := bind_eq_ok h
  cases h
  have hsame := applyEffects_records hmiddle
  refine ⟨hsame.clock, Or.inr ⟨_, ?_, congrArg (· ++ _) hsame.pending, hsame.history⟩⟩
  exact congrArg (fun clock => (⟨client, clock, command⟩ : Asking)) hsame.clock

theorem fault_records {call : Call} (hfault : call.IsFault)
    (h : harness.call call = .ok harness') : harness.SameOperations harness' := by
  cases call with
  | submit client target command => cases hfault
  | step => cases hfault
  | isolate id =>
      cases h
      unfold isolate
      split <;> exact ⟨rfl, rfl, rfl⟩
  | heal id =>
      cases h
      unfold heal
      split <;> exact ⟨rfl, rfl, rfl⟩
  | crash id =>
      cases h
      unfold crash
      split <;> exact ⟨rfl, rfl, rfl⟩
  | restart id =>
      rcases restart_cases h with rfl | ⟨_, _, _, -, -, -, -, rfl⟩ <;> exact ⟨rfl, rfl, rfl⟩

/-- An operation that is looked at is answered or stays pending. -/
theorem settle_cases (harness : Harness) (op : PendingOp) :
    (∃ outcome, harness.settle op = { harness with
      history := harness.history ++ [op.answered (some harness.clock) outcome] }) ∨
    harness.settle op = { harness with pending := harness.pending ++ [op] } := by
  unfold settle
  split
  · exact Or.inl ⟨_, rfl⟩
  split
  · exact Or.inl ⟨_, rfl⟩
  · exact Or.inr rfl

theorem settleAll_moves (ops : List PendingOp) (harness : Harness) :
    ∃ moved stayed, (ops.foldl settle harness).history = harness.history ++ moved ∧
      (ops.foldl settle harness).pending = harness.pending ++ stayed ∧
      (moved.map HistoryEntry.asking ++ stayed.map PendingOp.asking).Perm
        (ops.map PendingOp.asking) := by
  induction ops generalizing harness with
  | nil => exact ⟨[], [], (List.append_nil _).symm, (List.append_nil _).symm, .refl _⟩
  | cons op rest ih =>
      obtain ⟨moved, stayed, hhistory, hpending, hasked⟩ := ih (harness.settle op)
      rcases harness.settle_cases op with ⟨outcome, hsettle⟩ | hsettle
      · refine ⟨op.answered (some harness.clock) outcome :: moved, stayed, ?_, ?_,
          hasked.cons op.asking⟩
        · rw [List.foldl_cons, hhistory, hsettle, List.append_assoc, List.singleton_append]
        · rw [List.foldl_cons, hpending, hsettle]
      · refine ⟨moved, op :: stayed, ?_, ?_, List.perm_middle.trans (hasked.cons op.asking)⟩
        · rw [List.foldl_cons, hhistory, hsettle]
        · rw [List.foldl_cons, hpending, hsettle, List.append_assoc, List.singleton_append]

/-- A step turns some of what is pending into history. -/
theorem step_moves (h : harness.step = .ok harness') :
    ∃ moved, harness'.history = harness.history ++ moved ∧
      (moved.map HistoryEntry.asking ++ harness'.pending.map PendingOp.asking).Perm
        (harness.pending.map PendingOp.asking) := by
  obtain ⟨middle, -, hpending, hhistory, rfl⟩ := step_records h
  obtain ⟨moved, stayed, hmoved, hstayed, hasked⟩ :=
    settleAll_moves middle.pending { middle with pending := [] }
  refine ⟨moved, hmoved.trans (congrArg (· ++ moved) hhistory), ?_⟩
  rw [show middle.resolvePending.pending = stayed from hstayed, ← hpending]
  exact hasked

/-! ### Every operation is answered once -/

theorem submit_asked (h : harness.submit client target command = .ok harness') :
    harness'.asked.Perm (⟨client, harness.clock, command⟩ :: harness.asked) := by
  unfold asked
  obtain ⟨-, ⟨hpending, hhistory⟩ | ⟨op, hop, hpending, hhistory⟩⟩ := submit_records h
  · rw [hpending, hhistory, List.map_append, List.append_assoc]
    exact List.perm_middle
  · rw [hpending, hhistory, List.map_append, ← List.append_assoc, ← hop]
    exact List.perm_append_singleton _ _

theorem step_asked (h : harness.step = .ok harness') :
    harness'.clock = harness.clock + 1 ∧ harness'.asked.Perm harness.asked := by
  refine ⟨?_, ?_⟩
  · obtain ⟨middle, hclock, -, -, rfl⟩ := step_records h
    obtain ⟨_, _, hsettled⟩ := middle.resolvePending_spec
    rw [hsettled, ← hclock]
  · obtain ⟨moved, hhistory, hasked⟩ := step_moves h
    unfold asked
    rw [hhistory, List.map_append, List.append_assoc]
    exact hasked.append_left _

theorem SameOperations.asked (h : harness.SameOperations harness') :
    harness'.asked = harness.asked := by
  unfold Harness.asked
  rw [h.history, h.pending]

theorem call_asked {call : Call} {calls : List Call} (h : harness.call call = .ok harness') :
    (harness'.asked ++ submissions harness'.clock calls).Perm
      (harness.asked ++ submissions harness.clock (call :: calls)) := by
  cases call with
  | submit client target command =>
      rw [(submit_records h).1]
      exact ((submit_asked h).append_right _).trans List.perm_middle.symm
  | step =>
      obtain ⟨hclock, hasked⟩ := step_asked h
      rw [hclock]
      exact hasked.append_right _
  | isolate id | heal id | crash id | restart id =>
      have hsame := fault_records (by trivial) h
      rw [hsame.asked, hsame.clock]
      exact .refl _

theorem run_asked {calls : List Call} (h : harness.run calls = .ok harness') :
    harness'.asked.Perm (harness.asked ++ submissions harness.clock calls) := by
  induction calls generalizing harness with
  | nil =>
      cases h
      rw [submissions, List.append_nil]
  | cons call rest ih =>
      obtain ⟨middle, hmiddle, h⟩ := bind_eq_ok h
      exact (ih h).trans (call_asked hmiddle)

theorem finish_asking (harness : Harness) :
    harness.finish.map HistoryEntry.asking = harness.asked := by
  unfold finish asked
  rw [List.map_append, List.map_map]
  rfl

/-- The history of a run has each operation that was submitted once, with the client and
the time it was submitted at, and no others. -/
theorem every_operation_recorded_once {peers : List NodeId}
    {electionTimeout heartbeatInterval : Nat} {seed : UInt64}
    {minTimeout maxTimeout minDelay maxDelay applyTimeoutTicks : Nat} {calls : List Call}
    (hnew : new peers electionTimeout heartbeatInterval seed minTimeout maxTimeout minDelay
      maxDelay applyTimeoutTicks = .ok harness)
    (hrun : harness.run calls = .ok harness') :
    (harness'.finish.map HistoryEntry.asking).Perm (submissions 0 calls) := by
  obtain ⟨members, -, hnew⟩ := bind_eq_ok hnew
  cases hnew
  rw [finish_asking]
  exact run_asked hrun

theorem cut_off_leader_recorded_once : ∃ start last,
    new [⟨1⟩, ⟨2⟩, ⟨3⟩] 3 1 7 3 6 1 1 20 = .ok start ∧
    start.run (cutOffLeader.take 14) = .ok last ∧
    (last.finish.map HistoryEntry.asking).Perm
      [⟨⟨1⟩, 9, .set [107] [1]⟩, ⟨⟨2⟩, 12, .set [107] [2]⟩] := by
  have hplayed : ((new [⟨1⟩, ⟨2⟩, ⟨3⟩] 3 1 7 3 6 1 1 20).toOption.bind (fun start =>
      (start.run (cutOffLeader.take 14)).toOption.map (fun last => (start, last)))).isSome =
      true := by
    decide +kernel
  obtain ⟨⟨start, last⟩, hfound⟩ := Option.isSome_iff_exists.mp hplayed
  obtain ⟨_, hstart, hfound⟩ := Option.bind_eq_some_iff.mp hfound
  obtain ⟨_, hlast, hsame⟩ := Option.map_eq_some_iff.mp hfound
  cases hsame
  have hnew := ok_of_toOption hstart
  have hrun := ok_of_toOption hlast
  exact ⟨start, last, hnew, hrun, every_operation_recorded_once hnew hrun⟩

end Harness

/-! ### Clients in turn -/

/-- The answer was there at `tick`. -/
def HistoryEntry.ReturnedBy (entry : HistoryEntry) (tick : Nat) : Prop :=
  ∃ returned, entry.returnTick = some returned ∧ returned ≤ tick

theorem HistoryEntry.ReturnedBy.mono {entry : HistoryEntry} {tick tick' : Nat}
    (h : entry.ReturnedBy tick) (hle : tick ≤ tick') : entry.ReturnedBy tick' := by
  obtain ⟨returned, hreturned, hbefore⟩ := h
  exact ⟨returned, hreturned, hbefore.trans hle⟩

/-- A client that has invoked both had the answer to the first before. -/
def HistoryEntry.TakesTurns (first second : HistoryEntry) : Prop :=
  first.client = second.client → first.ReturnedBy second.invokeTick

namespace Harness

/-- No client has invoked an operation before it had the answer to the last; those of
`unsettled` have been taken out to be looked at. -/
structure InTurn (harness : Harness) (unsettled : List PendingOp) : Prop where
  single : ((unsettled ++ harness.pending).map PendingOp.client).Nodup
  returned : ∀ entry ∈ harness.history, entry.ReturnedBy harness.clock
  waited : ∀ entry ∈ harness.history, ∀ op ∈ unsettled ++ harness.pending,
    entry.client = op.client → entry.ReturnedBy op.invokeTick
  ordered : harness.history.Pairwise HistoryEntry.TakesTurns

namespace InTurn

variable {harness harness' : Harness} {op : PendingOp} {unsettled : List PendingOp}

theorem answer (h : harness.InTurn (op :: unsettled)) (outcome : Outcome) :
    InTurn { harness with
      history := harness.history ++ [op.answered (some harness.clock) outcome] } unsettled := by
  obtain ⟨hnew, hsingle⟩ := List.nodup_cons.mp h.single
  refine ⟨hsingle, ?_, ?_, ?_⟩
  · exact List.forall_mem_append.mpr ⟨h.returned, List.forall_mem_singleton.mpr
      ⟨harness.clock, rfl, Nat.le_refl _⟩⟩
  · refine List.forall_mem_append.mpr ⟨fun entry hentry other hother =>
      h.waited entry hentry other (List.mem_cons_of_mem _ hother), ?_⟩
    rw [List.forall_mem_singleton]
    exact fun other hother hclient => absurd (List.mem_map.mpr ⟨other, hother, hclient.symm⟩) hnew
  · refine List.pairwise_append.mpr ⟨h.ordered, List.pairwise_singleton _ _, ?_⟩
    intro entry hentry answered hanswered hclient
    rw [List.mem_singleton.mp hanswered] at hclient ⊢
    exact h.waited entry hentry op List.mem_cons_self hclient

theorem settle (h : harness.InTurn (op :: unsettled)) : (harness.settle op).InTurn unsettled := by
  rcases harness.settle_cases op with ⟨outcome, hsettle⟩ | hsettle
  · rw [hsettle]
    exact h.answer outcome
  · rw [hsettle]
    have hmoved : (unsettled ++ (harness.pending ++ [op])).Perm
        ((op :: unsettled) ++ harness.pending) := by
      rw [← List.append_assoc]
      exact List.perm_append_singleton op _
    refine ⟨(hmoved.map _).nodup_iff.mpr h.single, h.returned, fun entry hentry other hother =>
      h.waited entry hentry other (hmoved.mem_iff.mp hother), h.ordered⟩

theorem settleAll (h : harness.InTurn unsettled) :
    (unsettled.foldl Harness.settle harness).InTurn [] := by
  induction unsettled generalizing harness with
  | nil => exact h
  | cons op rest ih => exact ih h.settle

theorem same (h : harness.InTurn []) (hclock : harness.clock ≤ harness'.clock)
    (hpending : harness'.pending = harness.pending)
    (hhistory : harness'.history = harness.history) : harness'.InTurn [] := by
  refine ⟨?_, ?_, ?_, ?_⟩
  · rw [hpending]
    exact h.single
  · rw [hhistory]
    exact fun entry hentry => (h.returned entry hentry).mono hclock
  · rw [hpending, hhistory]
    exact h.waited
  · rw [hhistory]
    exact h.ordered

theorem step (h : harness.InTurn []) (hstep : harness.step = .ok harness') :
    harness'.InTurn [] := by
  obtain ⟨middle, hclock, hpending, hhistory, rfl⟩ := step_records hstep
  have hmiddle : middle.InTurn [] := h.same (by omega) hpending hhistory
  have hunsettled : InTurn { middle with pending := [] } middle.pending := by
    refine ⟨?_, hmiddle.returned, ?_, hmiddle.ordered⟩
    · rw [List.append_nil]
      exact hmiddle.single
    · rw [List.append_nil]
      exact hmiddle.waited
  exact hunsettled.settleAll

theorem submit {client : ClientId} {target : NodeId} {command : Command}
    (h : harness.InTurn []) (hidle : client ∉ harness.pending.map PendingOp.client)
    (hsubmit : harness.submit client target command = .ok harness') : harness'.InTurn [] := by
  obtain ⟨hclock, ⟨hpending, hhistory⟩ | ⟨op, hop, hpending, hhistory⟩⟩ := submit_records hsubmit
  · refine ⟨?_, ?_, ?_, ?_⟩
    · rw [hpending]
      exact h.single
    · rw [hhistory, hclock]
      exact List.forall_mem_append.mpr ⟨h.returned, List.forall_mem_singleton.mpr
        ⟨harness.clock, rfl, Nat.le_refl _⟩⟩
    · rw [hhistory, hpending]
      refine List.forall_mem_append.mpr ⟨h.waited, ?_⟩
      rw [List.forall_mem_singleton]
      exact fun other hother hclient =>
        absurd (List.mem_map.mpr ⟨other, hother, hclient.symm⟩) hidle
    · rw [hhistory]
      refine List.pairwise_append.mpr ⟨h.ordered, List.pairwise_singleton _ _, ?_⟩
      intro entry hentry rejected hrejected _
      rw [List.mem_singleton.mp hrejected]
      exact h.returned entry hentry
  · have hclient : op.client = client := congrArg Asking.client hop
    have hinvoke : op.invokeTick = harness.clock := congrArg Asking.invokeTick hop
    refine ⟨?_, ?_, ?_, ?_⟩
    · rw [hpending, List.nil_append, List.map_append, List.map_singleton, hclient]
      exact (List.nodup_append_comm.mp
        (List.nodup_cons.mpr ⟨hidle, h.single⟩ : ([client] ++ _).Nodup))
    · rw [hhistory, hclock]
      exact h.returned
    · rw [hhistory, hpending, List.nil_append]
      intro entry hentry other hother hsame
      rcases List.mem_append.mp hother with hold | hnew
      · exact h.waited entry hentry other (List.mem_append_right [] hold) hsame
      · rw [List.mem_singleton.mp hnew, hinvoke]
        exact h.returned entry hentry
    · rw [hhistory]
      exact h.ordered

/-- In the end those who still wait have asked once. -/
theorem finish (h : harness.InTurn []) : harness.finish.Pairwise HistoryEntry.TakesTurns := by
  refine List.pairwise_append.mpr ⟨h.ordered, ?_, ?_⟩
  · rw [List.pairwise_map]
    exact (List.pairwise_map.mp h.single).imp
      (fun hdifferent hclient => absurd hclient hdifferent)
  · intro entry hentry answered hanswered hclient
    obtain ⟨op, hop, rfl⟩ := List.mem_map.mp hanswered
    exact h.waited entry hentry op hop hclient

end InTurn

end Harness

/-! ### Generated runs -/

/-- Bytes written for a counter tell it. -/
theorem leBytes_inj {a b : Nat} (ha : a < 2 ^ 64) (hb : b < 2 ^ 64)
    (h : leBytes a = leBytes b) : a = b := by
  have hbyte : ∀ i j : Nat, i.toUInt8 = j.toUInt8 → i % 256 = j % 256 := by
    intro i j hsame
    have hvalue := congrArg UInt8.toNat hsame
    simpa using hvalue
  unfold leBytes at h
  simp only [List.cons.injEq, and_true] at h
  obtain ⟨h0, h1, h2, h3, h4, h5, h6, h7⟩ := h
  have h0 := hbyte _ _ h0
  have h1 := hbyte _ _ h1
  have h2 := hbyte _ _ h2
  have h3 := hbyte _ _ h3
  have h4 := hbyte _ _ h4
  have h5 := hbyte _ _ h5
  have h6 := hbyte _ _ h6
  have h7 := hbyte _ _ h7
  omega

/-- The values that were written, or may have been. -/
def values (asked : List Asking) : List Bytes :=
  asked.filterMap (fun asking => written asking.command)

namespace Driver

variable {config : RunConfig} {driver driver' : Driver}

/-- Whom the generator has not told yet that they may go on. -/
def waiting (driver : Driver) : List ClientId :=
  (driver.harness.history.drop driver.historySeen).map HistoryEntry.client ++
    driver.harness.pending.map PendingOp.client

/-- The generator knows who waits, and no two of the values are the same. -/
structure Orderly (driver : Driver) : Prop where
  inTurn : driver.harness.InTurn []
  seen : driver.historySeen ≤ driver.harness.history.length
  single : driver.waiting.Nodup
  busy : ∀ client ∈ driver.waiting, driver.busy.contains client = true
  distinct : (values driver.harness.asked).Nodup
  counted : ∀ value ∈ values driver.harness.asked,
    ∃ count, count ≤ driver.keyCounter ∧ value = leBytes count
  counter : driver.keyCounter < 2 ^ 64

namespace Orderly

theorem step (h : driver.Orderly) {harness : Harness}
    (hstep : driver.harness.step = .ok harness) : Orderly { driver with harness } := by
  obtain ⟨moved, hhistory, hasked⟩ := Harness.step_moves hstep
  have hclients : ∀ ops : List PendingOp,
      ops.map PendingOp.client = (ops.map PendingOp.asking).map Asking.client := by
    intro ops
    rw [List.map_map]
    rfl
  have hmoved : moved.map HistoryEntry.client =
      (moved.map HistoryEntry.asking).map Asking.client := by
    rw [List.map_map]
    rfl
  have hwaiting : waiting { driver with harness } |>.Perm driver.waiting := by
    unfold waiting
    dsimp only
    rw [hhistory, List.drop_append_of_le_length h.seen, List.map_append, List.append_assoc,
      hmoved, hclients, hclients, ← List.map_append]
    exact (hasked.map Asking.client).append_left _
  have hvalues : (values harness.asked).Perm (values driver.harness.asked) :=
    (Harness.step_asked hstep).2.filterMap _
  refine ⟨h.inTurn.step hstep, ?_, hwaiting.nodup_iff.mpr h.single,
    fun client hclient => h.busy client (hwaiting.mem_iff.mp hclient),
    hvalues.nodup_iff.mpr h.distinct, fun value hvalue =>
      h.counted value (hvalues.mem_iff.mp hvalue), h.counter⟩
  rw [hhistory, List.length_append]
  exact h.seen.trans (Nat.le_add_right _ _)

theorem contains_eraseAll {entries : List HistoryEntry} {busy : ClientSet} {client : ClientId}
    (hclient : client ∉ entries.map HistoryEntry.client) :
    (entries.foldl (fun busy entry => busy.erase entry.client) busy).contains client =
      busy.contains client := by
  induction entries generalizing busy with
  | nil => rfl
  | cons entry rest ih =>
      rw [List.map_cons, List.mem_cons, not_or] at hclient
      rw [List.foldl_cons, ih hclient.2, Std.ExtTreeSet.contains_erase]
      have hne : (compare entry.client client != .eq) = true :=
        bne_iff_ne.mpr (fun hsame => hclient.1 (Std.LawfulEqCmp.eq_of_compare hsame).symm)
      rw [hne, Bool.true_and]

theorem observe (h : driver.Orderly) : driver.observe.Orderly := by
  obtain ⟨-, hpending, hapart⟩ := List.nodup_append.mp h.single
  have hwaiting : driver.observe.waiting = driver.harness.pending.map PendingOp.client := by
    unfold waiting Driver.observe
    rw [List.drop_length]
    rfl
  refine ⟨h.inTurn, Nat.le_refl _, hwaiting ▸ hpending, fun client hclient => ?_, h.distinct,
    h.counted, h.counter⟩
  rw [hwaiting] at hclient
  refine (contains_eraseAll fun hunseen => ?_).trans
    (h.busy client (List.mem_append_right _ hclient))
  exact hapart client hunseen client hclient rfl

theorem disturb (h : driver.Orderly) (hdisturb : driver.disturb config = .ok driver') :
    driver'.Orderly := by
  obtain ⟨harness, rng, rfl, rfl | ⟨call, hfault, hcall⟩⟩ := disturb_cases hdisturb
  · exact { h with }
  · have hsame := Harness.fault_records hfault hcall
    have hasked := hsame.asked
    refine ⟨h.inTurn.same hsame.clock.ge hsame.pending hsame.history, ?_, ?_, ?_, ?_, ?_,
      h.counter⟩
    · rw [hsame.history]
      exact h.seen
    · unfold waiting
      rw [hsame.history, hsame.pending]
      exact h.single
    · unfold waiting
      rw [hsame.history, hsame.pending]
      exact h.busy
    · rw [hasked]
      exact h.distinct
    · rw [hasked]
      exact h.counted

/-- The operation of a client that does not wait. -/
theorem submit (h : driver.Orderly) {client : ClientId} {target : NodeId} {command : Command}
    {harness : Harness} {rng : Sim.Rng} (hidle : driver.busy.contains client = false)
    (hcounter : driver.keyCounter + 1 < 2 ^ 64)
    (hwritten : ∀ value, written command = some value →
      value = leBytes (driver.keyCounter + 1))
    (hsubmit : driver.harness.submit client target command = .ok harness) :
    Orderly { driver with
      harness
      rng
      busy := driver.busy.insert client
      keyCounter := driver.keyCounter + 1 } := by
  have hfresh : client ∉ driver.waiting := by
    intro hwaits
    rw [h.busy client hwaits] at hidle
    cases hidle
  have hwaiting : (waiting { driver with
      harness
      rng
      busy := driver.busy.insert client
      keyCounter := driver.keyCounter + 1 }).Perm (client :: driver.waiting) := by
    unfold waiting
    obtain ⟨-, ⟨hpending, hhistory⟩ | ⟨op, hop, hpending, hhistory⟩⟩ :=
      Harness.submit_records hsubmit
    · rw [hpending, hhistory, List.drop_append_of_le_length h.seen, List.map_append,
        List.append_assoc]
      exact List.perm_middle
    · rw [hpending, hhistory, List.map_append, ← List.append_assoc,
        ← show op.client = client from congrArg Asking.client hop]
      exact List.perm_append_singleton _ _
  have hasked := Harness.submit_asked hsubmit
  have hvalues : (values harness.asked).Perm
      ((written command).toList ++ values driver.harness.asked) := by
    refine (hasked.filterMap _).trans ?_
    rw [List.filterMap_cons]
    cases written command <;> exact .refl _
  have hnew : ∀ value ∈ (written command).toList, value = leBytes (driver.keyCounter + 1) :=
    fun value hvalue => hwritten value (Option.mem_toList.mp hvalue)
  refine ⟨h.inTurn.submit (fun hwaits => hfresh (List.mem_append_right _ hwaits)) hsubmit, ?_,
    hwaiting.nodup_iff.mpr (List.nodup_cons.mpr ⟨hfresh, h.single⟩), ?_,
    hvalues.nodup_iff.mpr (List.nodup_append.mpr ⟨?_, h.distinct, ?_⟩), ?_, hcounter⟩
  · obtain ⟨-, ⟨-, hhistory⟩ | ⟨_, -, -, hhistory⟩⟩ := Harness.submit_records hsubmit
    · rw [hhistory, List.length_append]
      exact h.seen.trans (Nat.le_add_right _ _)
    · rw [hhistory]
      exact h.seen
  · intro other hother
    rw [Std.ExtTreeSet.contains_insert, Bool.or_eq_true]
    rcases List.mem_cons.mp (hwaiting.mem_iff.mp hother) with rfl | hold
    · exact Or.inl (by simp)
    · exact Or.inr (h.busy other hold)
  · cases written command with
    | none => exact List.nodup_nil
    | some value => exact List.nodup_singleton value
  · intro value hvalue other hother hsame
    obtain ⟨count, hcount, hbytes⟩ := h.counted other hother
    have hequal := leBytes_inj hcounter (by omega)
      ((hnew value hvalue).symm.trans (hsame.trans hbytes))
    omega
  · intro value hvalue
    rcases List.mem_append.mp (hvalues.mem_iff.mp hvalue) with hvalue | hold
    · exact ⟨_, Nat.le_refl _, hnew value hvalue⟩
    · obtain ⟨count, hcount, hbytes⟩ := h.counted value hold
      exact ⟨count, Nat.le_succ_of_le hcount, hbytes⟩

theorem tick (h : driver.Orderly) (htick : driver.tick config = .ok driver') :
    driver'.Orderly := by
  obtain ⟨harness, hstep, htick⟩ := bind_eq_ok htick
  obtain ⟨disturbed, hdisturb, htick⟩ := bind_eq_ok htick
  refine Sim.foldlM_invariant Orderly ?_ ((h.step hstep).observe.disturb hdisturb) htick
  intro now clientIndex next hnow hconsider
  rcases consider_cases hconsider with ⟨rng, rfl⟩ | ⟨target, rng, command, harness, hidle,
    hcounter, -, hwritten, hsubmit, rfl⟩
  · exact { hnow with }
  · exact hnow.submit hidle hcounter hwritten hsubmit

end Orderly

theorem new_orderly {seed : UInt64} (hnew : new seed config = .ok driver) :
    driver.Orderly := by
  obtain ⟨maxTimeout, -, hnew⟩ := bind_eq_ok hnew
  obtain ⟨harness, hharness, hnew⟩ := bind_eq_ok hnew
  obtain ⟨members, -, hharness⟩ := bind_eq_ok hharness
  cases hharness
  cases hnew
  exact ⟨⟨List.nodup_nil, nofun, nofun, List.Pairwise.nil⟩, Nat.le_refl _, List.nodup_nil,
    nofun, List.nodup_nil, nofun, Nat.two_pow_pos 64⟩

end Driver

/-- In a generated history a client has the answer to an operation before it invokes the
next, and no two operations write the same value. -/
theorem clients_take_turns {seed : UInt64} {config : RunConfig} {trace : List TraceEvent}
    {history : List HistoryEntry} {faults : List FaultEvent}
    (hrun : run seed config = .ok (trace, history, faults)) :
    history.Pairwise HistoryEntry.TakesTurns ∧
      (values (history.map HistoryEntry.asking)).Nodup := by
  obtain ⟨first, hfirst, hrun⟩ := bind_eq_ok hrun
  obtain ⟨last, hlast, hrun⟩ := bind_eq_ok hrun
  cases hrun
  have horderly : last.Orderly := Sim.foldlM_invariant Driver.Orderly
    (fun _ _ _ hnow htick => hnow.tick htick) (Driver.new_orderly hfirst) hlast
  rw [Harness.finish_asking]
  exact ⟨horderly.inTurn.finish, horderly.distinct⟩

theorem faulty_run_takes_turns : ∃ trace history faults,
    run 8 faultyRun = .ok (trace, history, faults) ∧ faults.length = 5 ∧
    history.Pairwise HistoryEntry.TakesTurns ∧
      (values (history.map HistoryEntry.asking)).Nodup := by
  obtain ⟨trace, history, faults, hrun, hfaults, -⟩ := faultyRun_generates
  have hlength := congrArg List.length hfaults
  rw [List.length_map] at hlength
  exact ⟨trace, history, faults, hrun, hlength, clients_take_turns hrun⟩

end Kurogane.Verify
