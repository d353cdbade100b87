import Kurogane.Verify.GhostRun
import Kurogane.Verify.Operations

/-!
Whatever is done to a harness, the history it has recorded is linearizable, once each
command is taken as what is read back of it: as itself, where its key and value have
lengths that their prefixes can hold. A key that is longer is read back as another one.
-/

namespace Kurogane.Verify

open Kurogane.Raft Kurogane.Kv Kurogane.Runtime Kurogane.Consensus
open Kurogane.Sim (Envelope Cluster Ghost Founded IsCommand)

namespace Harness

variable {P : Command → Prop} {harness : Harness}

/-- Where the call hands a command to a leader, it is one of `P`. -/
def Takes (P : Command → Prop) (harness : Harness) : Call → Prop
  | .submit _ target command =>
      ∀ replica ∈ harness.replicas[target]?, replica.node.role = .leader → P command
  | .step | .isolate _ | .heal _ | .crash _ | .restart _ => True

/-- All commands that leaders are handed over these calls are among `P`. -/
def TakesOnly (P : Command → Prop) : Harness → List Call → Prop
  | _, [] => True
  | harness, call :: rest =>
      harness.Takes P call ∧
        ∀ next ∈ (harness.call call).toOption, TakesOnly P next rest

instance [DecidablePred P] : (call : Call) → Decidable (harness.Takes P call)
  | .submit _ target command => inferInstanceAs (Decidable
      (∀ replica ∈ harness.replicas[target]?, replica.node.role = .leader → P command))
  | .step | .isolate _ | .heal _ | .crash _ | .restart _ => inferInstanceAs (Decidable True)

instance decidableTakesOnly [DecidablePred P] :
    (harness : Harness) → (calls : List Call) → Decidable (harness.TakesOnly P calls)
  | _, [] => inferInstanceAs (Decidable True)
  | harness, call :: rest =>
      have := fun next => decidableTakesOnly next rest
      inferInstanceAs (Decidable (harness.Takes P call ∧
        ∀ next ∈ (harness.call call).toOption, TakesOnly P next rest))

end Harness

/-- The entry at `index` is the one of an operation that was proposed for it. -/
def Placed (ops : List PendingOp) (index : Nat) (entry : LogEntry) : Prop :=
  ∃ op ∈ ops, op.index = index ∧ op.entry = entry

theorem Placed.more {ops : List PendingOp} {index : Nat} {entry : LogEntry}
    (h : Placed ops index entry) (op : PendingOp) : Placed (ops ++ [op]) index entry := by
  obtain ⟨found, hfound, hrest⟩ := h
  exact ⟨found, List.mem_append_left _ hfound, hrest⟩

section

variable {harness harness' : Harness} {cluster : Cluster} {h : Ghost}
  {ops : List PendingOp} {filed : Filed} {op : PendingOp}

/-- The cluster behind a harness after a leader has taken in an operation. -/
theorem Tracks.submit {client : ClientId} {target : NodeId} {command : Command}
    (htracks : Tracks (Placed ops) harness cluster h)
    (hsubmit : harness.submit client target command = .ok harness') :
    harness' = harness.reject client command ∨
      (∃ replica, harness.replicas[target]? = some replica ∧ replica.node.role = .leader) ∧
      ∃ op cluster' h', Tracks (Placed (ops ++ [op])) harness' cluster' h' ∧
        h.Extends h' ∧ op.Next h ∧ op.Issued h' ∧ op.command = command ∧
        op.invokeTick = harness.clock ∧ harness'.pending = harness.pending ++ [op] ∧
        harness'.clock = harness.clock ∧ harness'.history = harness.history := by
  rcases Harness.submit_cases htracks.mirrors.backed hsubmit with hreject |
    ⟨replica, next, index, effects, deliveries, entry, deadline, middle, hreplica, hpropose,
      hentry, hexecutes, rfl⟩
  · exact Or.inl hreject
  obtain ⟨hrole, hindex, hplaced⟩ := Node.propose_entryAt (Replica.propose_served hpropose).1
  obtain rfl : entry = ⟨replica.node.currentTerm, .command command.encode⟩ :=
    Option.some.inj (hentry.symm.trans hplaced)
  have hbefore := htracks.mirrors.node hreplica
  obtain ⟨hid, hrel⟩ := htracks.founded.of_node hbefore
  obtain ⟨helected, hlog, -⟩ := hrel.leader hrole
  have hlast := hrel.lastLogIndex htracks.founded.sound
  refine Or.inr ⟨⟨replica, hreplica, hrole⟩, ⟨client, harness.clock, target, index,
    replica.node.currentTerm, command, deadline⟩, ?_⟩
  have hplace : Placed (ops ++ [⟨client, harness.clock, target, index,
      replica.node.currentTerm, command, deadline⟩]) index
      ⟨replica.node.currentTerm, .command command.encode⟩ :=
    ⟨_, List.mem_append_right _ (List.mem_singleton_self _), rfl, rfl⟩
  obtain ⟨cluster', h', htracks', hext⟩ :=
    (htracks.imp (fun _ _ hold => hold.more _)).propose hreplica hpropose hexecutes hplace
  refine ⟨cluster', h', htracks'.stutter rfl rfl rfl (fun _ => id), hext,
    ⟨replica.node.id, helected, ?_⟩, ⟨?_, ?_⟩, rfl, rfl, rfl,
    hexecutes.sameOperations.clock, hexecutes.sameOperations.history⟩
  · rw [← hlog, ← hlast]
    exact hindex
  · show 0 < index
    omega
  · have hafter := htracks'.mirrors.node
      (show middle.replicas[target]? = some next by
        rw [hexecutes.replicas, Std.ExtTreeMap.getElem?_insert_self])
    obtain ⟨-, hrel'⟩ := htracks'.founded.of_node hafter
    rw [hrel'.entryAt_whole (htracks'.within.boundary hafter) (by omega)] at hplaced
    exact htracks'.founded.sound.backed_entry
      (htracks'.founded.sound.node_backed _) hplaced

/-- An answer is what a committed log answers. -/
theorem Tracks.applied {result : ApplyResult} (htracks : Tracks (Placed ops) harness cluster h)
    (hissued : op.Issued h) (happlied : harness.applied op = some result) :
    ∃ log, Attested h ops log ∧ Explains log op result := by
  obtain ⟨replica, hreplica, happlied⟩ := Option.bind_eq_some_iff.mp happlied
  split at happlied
  · cases happlied
  rename_i hreached
  obtain ⟨entry, hentry, happlied⟩ := Option.bind_eq_some_iff.mp happlied
  split at happlied
  case isFalse => cases happlied
  rename_i hterm
  have hreflects := htracks.reflects op.target replica hreplica
  have hnode := htracks.mirrors.node hreplica
  obtain ⟨hid, hrel⟩ := htracks.founded.of_node hnode
  have hread : ∀ position, replica.node.entryAt (position + 1) =
      (h.log op.target)[position]? := by
    intro position
    rw [hrel.entryAt_whole (htracks.within.boundary hnode) (Nat.zero_lt_succ position), hid]
    rfl
  have hlog : h.Committed ((h.log op.target).take replica.lastApplied) :=
    ⟨_, _, hreflects.covered⟩
  have hown : ((h.log op.target).take replica.lastApplied)[op.index - 1]? = some entry := by
    have hpos := hissued.1
    have hsame := hread (op.index - 1)
    rw [show op.index - 1 + 1 = op.index by omega, hentry] at hsame
    rw [List.getElem?_take, if_pos (by omega), ← hsame]
  refine ⟨_, ⟨hlog, fun position found hfound => ?_⟩, ?_,
    hreflects.applied.results op.index result happlied⟩
  · rw [List.getElem?_take, Option.ite_none_right_eq_some] at hfound
    obtain ⟨server, hserver, hserved⟩ := Option.bind_eq_some_iff.mp hnode
    exact htracks.places.nodes op.target server hserver replica.node hserved (position + 1)
      found ((hread position).trans hfound.2)
  · rw [hown, hissued.entry_eq htracks.founded.sound hlog hown hterm]

/-- The books of a harness are in order, with all operations that were invoked before
`limit`, whose commands are among `P`; those of `unsettled` have been taken out to be
looked at. -/
structure Accounted (P : Command → Prop) (harness : Harness) (cluster : Cluster) (h : Ghost)
    (ops : List PendingOp) (filed : Filed) (unsettled : List PendingOp) (limit : Nat) :
    Prop where
  tracks : Tracks (Placed ops) harness cluster h
  ledger : Ledger h ops filed
  history : harness.history = filed.map Prod.fst
  all : (unsettled ++ harness.pending ++ filed.filterMap Prod.snd).Perm ops
  invoked : ∀ op ∈ ops, op.invokeTick < limit
  commands : ∀ op ∈ ops, P op.command

namespace Accounted

variable {P : Command → Prop} {unsettled : List PendingOp} {limit : Nat}

/-- What is done to a harness where no operation begins or ends. -/
theorem later {cluster' : Cluster} {h' : Ghost}
    (haccounted : Accounted P harness cluster h ops filed unsettled limit)
    (htracks : Tracks (Placed ops) harness' cluster' h') (ext : h.Extends h')
    (hpending : harness'.pending = harness.pending)
    (hhistory : harness'.history = harness.history) :
    Accounted P harness' cluster' h' ops filed unsettled limit where
  tracks := htracks
  ledger := haccounted.ledger.later ext
  history := hhistory.trans haccounted.history
  all := hpending ▸ haccounted.all
  invoked := haccounted.invoked
  commands := haccounted.commands

/-- An operation is answered. -/
theorem answer {returnTick : Option Nat} {outcome : Outcome}
    (haccounted : Accounted P harness cluster h ops filed (op :: unsettled) limit)
    (hhistory : harness'.history = harness.history ++ [op.answered returnTick outcome])
    (hpending : harness'.pending = harness.pending)
    (htracks : Tracks (Placed ops) harness' cluster h) (hunrejected : outcome ≠ .rejected)
    (happlied : ∀ result, outcome = .applied result →
      (∃ log, Attested h ops log ∧ Explains log op result) ∧ returnTick = some limit) :
    Accounted P harness' cluster h ops
      (filed ++ [(op.answered returnTick outcome, some op)]) unsettled limit where
  tracks := htracks
  ledger := by
    refine haccounted.ledger.file nofun (fun found hfound => ?_)
    cases hfound
    have hop : op ∈ ops := haccounted.all.subset (by simp)
    refine ⟨hop, rfl, rfl, hunrejected, fun result hresult => ?_⟩
    obtain ⟨hexplained, hreturn⟩ := happlied result hresult
    refine ⟨hexplained, fun finish hfinish other hother => ?_⟩
    obtain rfl : limit = finish := Option.some.inj (hreturn.symm.trans hfinish)
    exact haccounted.invoked other hother
  history := by
    rw [hhistory, haccounted.history, List.map_append]
    rfl
  all := by
    rw [hpending, List.filterMap_append, ← List.append_assoc]
    exact (List.perm_append_singleton op _).trans haccounted.all
  invoked := haccounted.invoked
  commands := haccounted.commands

theorem settle (haccounted : Accounted P harness cluster h ops filed (op :: unsettled)
      harness.clock) :
    ∃ filed', Accounted P (harness.settle op) cluster h ops filed' unsettled harness.clock := by
  have hop : op ∈ ops := haccounted.all.subset (by simp)
  unfold Harness.settle
  split
  · rename_i result happlied
    refine ⟨_, haccounted.answer rfl rfl
      (haccounted.tracks.stutter rfl rfl rfl (fun _ => id)) nofun (fun answer hanswer => ?_)⟩
    cases hanswer
    exact ⟨haccounted.tracks.applied (haccounted.ledger.issued op hop) happlied, rfl⟩
  split
  · exact ⟨_, haccounted.answer rfl rfl
      (haccounted.tracks.stutter rfl rfl rfl (fun _ => id)) nofun nofun⟩
  · refine ⟨filed, haccounted.tracks.stutter rfl rfl rfl (fun _ => id), haccounted.ledger,
      haccounted.history, ?_, haccounted.invoked, haccounted.commands⟩
    refine List.Perm.trans ?_ haccounted.all
    rw [← List.append_assoc, List.append_assoc _ [op]]
    exact List.perm_middle

theorem clock_settle (harness : Harness) (op : PendingOp) :
    (harness.settle op).clock = harness.clock := by
  unfold Harness.settle
  split
  · rfl
  · split <;> rfl

theorem settleAll (haccounted : Accounted P harness cluster h ops filed unsettled
      harness.clock) :
    ∃ filed', Accounted P (unsettled.foldl Harness.settle harness) cluster h ops filed' []
      harness.clock := by
  induction unsettled generalizing harness filed with
  | nil => exact ⟨filed, haccounted⟩
  | cons op rest ih =>
      obtain ⟨filed', hsettled⟩ := haccounted.settle
      rw [← clock_settle harness op] at hsettled ⊢
      exact ih hsettled

/-- Time moves on by one, and the operations are looked at. -/
theorem step (haccounted : Accounted P harness cluster h ops filed [] (harness.clock + 1))
    (hstep : harness.step = .ok harness') :
    ∃ cluster' h' filed',
      Accounted P harness' cluster' h' ops filed' [] (harness'.clock + 1) := by
  obtain ⟨clock, hclock, hstep⟩ := bind_eq_ok hstep
  obtain rfl := Sim.checked_ok (ok_of_mapError hclock)
  obtain ⟨middle, hdeliver, hstep⟩ := bind_eq_ok hstep
  obtain ⟨last, htick, hstep⟩ := bind_eq_ok hstep
  cases hstep
  obtain ⟨cluster', h', htracks, hext, hsame⟩ :=
    haccounted.tracks.advance hdeliver htick
  have hlater := haccounted.later htracks hext hsame.pending hsame.history
  have hclock : last.clock = harness.clock + 1 := hsame.clock
  have hopen : Accounted P { last with pending := [] } cluster' h' ops filed last.pending
      last.clock := by
    refine ⟨htracks.stutter rfl rfl rfl (fun _ => id), hlater.ledger, hlater.history, ?_,
      hclock ▸ hlater.invoked, hlater.commands⟩
    rw [List.append_nil]
    exact hlater.all
  obtain ⟨filed', hsettled⟩ := hopen.settleAll
  refine ⟨cluster', h', filed', { hsettled with invoked := fun op hop => ?_ }⟩
  have hclock' : last.resolvePending.clock = last.clock := by
    have hall : ∀ (ops : List PendingOp) (start : Harness),
        (ops.foldl Harness.settle start).clock = start.clock := by
      intro ops
      induction ops with
      | nil => exact fun _ => rfl
      | cons op rest ih => exact fun start => (ih _).trans (clock_settle start op)
    exact hall last.pending { last with pending := [] }
  rw [hclock']
  exact Nat.lt_succ_of_lt (hsettled.invoked op hop)

theorem reject (client : ClientId) (command : Command)
    (haccounted : Accounted P harness cluster h ops filed [] limit) :
    ∃ filed', Accounted P (harness.reject client command) cluster h ops filed' [] limit := by
  refine ⟨filed ++ [(⟨client, harness.clock, some harness.clock, command, .rejected⟩, none)],
    haccounted.tracks.stutter rfl rfl rfl (fun _ => id),
    haccounted.ledger.file (fun _ => rfl) nofun, ?_, ?_, haccounted.invoked, haccounted.commands⟩
  · rw [List.map_append, ← haccounted.history]
    rfl
  · rw [List.filterMap_append]
    exact (List.append_nil _).symm ▸ haccounted.all

theorem submit {client : ClientId} {target : NodeId} {command : Command}
    (haccounted : Accounted P harness cluster h ops filed [] (harness.clock + 1))
    (htakes : harness.Takes P (.submit client target command))
    (hsubmit : harness.submit client target command = .ok harness') :
    ∃ cluster' h' ops' filed',
      Accounted P harness' cluster' h' ops' filed' [] (harness'.clock + 1) := by
  rcases haccounted.tracks.submit hsubmit with rfl | ⟨⟨replica, hreplica, hrole⟩, op, cluster',
    h', htracks, hext, hnext, hissued, hcommand, hinvoke, hpending, hclock, hhistory⟩
  · obtain ⟨filed', hfiled⟩ := haccounted.reject client command
    exact ⟨cluster, h, ops, filed', hfiled⟩
  · refine ⟨cluster', h', ops ++ [op], filed, htracks, haccounted.ledger.take
      haccounted.tracks.founded.sound hnext hext hissued, hhistory.trans haccounted.history,
      ?_, ?_, ?_⟩
    · rw [hpending, List.nil_append, List.append_assoc]
      refine List.perm_middle.trans ?_
      exact ((haccounted.all.cons op).trans (List.perm_append_singleton op ops).symm)
    · intro other hother
      rw [hclock]
      rcases List.mem_append.mp hother with hold | hnew
      · exact haccounted.invoked other hold
      · rw [List.mem_singleton.mp hnew, hinvoke]
        exact Nat.lt_succ_self _
    · intro other hother
      rcases List.mem_append.mp hother with hold | hnew
      · exact haccounted.commands other hold
      · rw [List.mem_singleton.mp hnew, hcommand]
        exact htakes replica hreplica hrole

end Accounted

end

/-- The command that is submitted has lengths within their prefixes. -/
def Call.Fits : Call → Prop
  | .submit _ _ command => command.Fits
  | _ => True

instance : DecidablePred Call.Fits := fun call =>
  match call with
  | .submit _ _ command => inferInstanceAs (Decidable command.Fits)
  | .step | .isolate _ | .heal _ | .crash _ | .restart _ => inferInstanceAs (Decidable True)

namespace Harness

variable {P : Command → Prop} {harness harness' : Harness}

/-- The books of the harness can be kept, with commands of `P`. -/
def InOrder (P : Command → Prop) (harness : Harness) : Prop :=
  ∃ cluster h ops filed, Accounted P harness cluster h ops filed [] (harness.clock + 1)

theorem new_inOrder {peers : List NodeId} {electionTimeout heartbeatInterval : Nat}
    {seed : UInt64} {minTimeout maxTimeout minDelay maxDelay applyTimeoutTicks : Nat}
    (hnew : new peers electionTimeout heartbeatInterval seed minTimeout maxTimeout minDelay
      maxDelay applyTimeoutTicks = .ok harness) : harness.InOrder P := by
  obtain ⟨cluster, htracks, hpending, hhistory⟩ := new_tracks hnew
  exact ⟨cluster, _, [], [], htracks, .empty, hhistory, by rw [hpending]; rfl, nofun, nofun⟩

theorem InOrder.call {call : Call} (h : harness.InOrder P) (htakes : harness.Takes P call)
    (hcall : harness.call call = .ok harness') : harness'.InOrder P := by
  obtain ⟨cluster, ghost, ops, filed, haccounted⟩ := h
  cases call with
  | submit client target command =>
      obtain ⟨cluster', ghost', ops', filed', hsubmitted⟩ := haccounted.submit htakes hcall
      exact ⟨cluster', ghost', ops', filed', hsubmitted⟩
  | step =>
      obtain ⟨cluster', ghost', filed', hstepped⟩ := haccounted.step hcall
      exact ⟨cluster', ghost', ops, filed', hstepped⟩
  | isolate id =>
      cases hcall
      refine ⟨cluster, ghost, ops, filed, ?_⟩
      unfold isolate
      split
      · exact haccounted
      · exact haccounted.later (haccounted.tracks.stutter rfl rfl rfl (fun _ hcarried => hcarried))
          (.refl ghost) rfl rfl
  | heal id =>
      cases hcall
      refine ⟨cluster, ghost, ops, filed, ?_⟩
      unfold heal
      split
      · exact haccounted.later (haccounted.tracks.stutter rfl rfl rfl (fun _ hcarried => hcarried))
          (.refl ghost) rfl rfl
      · exact haccounted
  | crash id =>
      cases hcall
      obtain ⟨cluster', ghost', htracks, hext, hsame⟩ := haccounted.tracks.crash id
      refine ⟨cluster', ghost', ops, filed, ?_⟩
      rw [hsame.clock]
      exact haccounted.later htracks hext hsame.pending hsame.history
  | restart id =>
      obtain ⟨cluster', ghost', htracks, hext, hsame⟩ := haccounted.tracks.restart hcall
      refine ⟨cluster', ghost', ops, filed, ?_⟩
      rw [hsame.clock]
      exact haccounted.later htracks hext hsame.pending hsame.history

theorem InOrder.run {calls : List Call} (h : harness.InOrder P)
    (htakes : harness.TakesOnly P calls) (hrun : harness.run calls = .ok harness') :
    harness'.InOrder P := by
  induction calls generalizing harness with
  | nil =>
      cases hrun
      exact h
  | cons call rest ih =>
      obtain ⟨hfirst, hrest⟩ := htakes
      obtain ⟨middle, hmiddle, hrun⟩ := bind_eq_ok hrun
      have hnext : middle ∈ (harness.call call).toOption := by
        rw [hmiddle]
        rfl
      exact ih (h.call hfirst hmiddle) (hrest middle hnext) hrun

/-- Nothing is known of what is still outstanding in the end. -/
theorem InOrder.finish {read : Command → Command} (h : harness.InOrder P)
    (hread : ∀ command, P command → Command.decode command.encode = .ok (read command)) :
    ∃ order, Linearization (harness.finish.map (HistoryEntry.reading read)) order := by
  obtain ⟨cluster, ghost, ops, filed, haccounted⟩ := h
  have hall : ∀ (harness' : Harness) (filed : Filed),
      Accounted P harness' cluster ghost ops filed harness.pending (harness.clock + 1) →
      harness'.pending = [] →
      ∃ order, Linearization ((harness'.history ++
        harness.pending.map (fun op => op.answered none .indeterminate)).map
          (HistoryEntry.reading read)) order := by
    induction harness.pending with
    | nil =>
        intro harness' filed haccounted hpending
        obtain ⟨order, horder⟩ := haccounted.ledger.linearization
          haccounted.tracks.founded.sound (by simpa [hpending] using haccounted.all)
          (fun op hop => hread op.command (haccounted.commands op hop))
        refine ⟨order, ?_⟩
        rw [List.map_nil, List.append_nil, haccounted.history, List.map_map]
        exact horder
    | cons op rest ih =>
        intro harness' filed haccounted hpending
        obtain ⟨order, horder⟩ := ih { harness' with
            history := harness'.history ++ [op.answered none .indeterminate] } _
          (haccounted.answer rfl rfl
            (haccounted.tracks.stutter rfl rfl rfl (fun _ hcarried => hcarried)) nofun nofun)
          hpending
        refine ⟨order, ?_⟩
        rw [List.map_cons, List.append_cons]
        exact horder
  refine hall { harness with pending := [] } filed ⟨haccounted.tracks.stutter rfl rfl rfl
    (fun _ hcarried => hcarried), haccounted.ledger, haccounted.history, ?_, haccounted.invoked,
    haccounted.commands⟩ rfl
  rw [List.append_nil]
  exact haccounted.all

/-- Commands with lengths within their prefixes are read back as they are. -/
theorem InOrder.finish_fits (h : harness.InOrder Command.Fits) :
    ∃ order, Linearization harness.finish order := by
  have hread : ∀ command : Command, command.Fits →
      Command.decode command.encode = .ok (id command) :=
    fun command hfits => Command.decode_of_start hfits (List.prefix_refl _)
  obtain ⟨order, horder⟩ := h.finish hread
  have hsame : HistoryEntry.reading id = id := rfl
  rw [hsame, List.map_id] at horder
  exact ⟨order, horder⟩

theorem takesOnly_of_submitted {calls : List Call}
    (hsubmitted : ∀ client target command, .submit client target command ∈ calls → P command) :
    harness.TakesOnly P calls := by
  induction calls generalizing harness with
  | nil => trivial
  | cons call rest ih =>
      refine ⟨?_, fun next _ => ih (fun client target command hmem =>
        hsubmitted client target command (List.mem_cons_of_mem _ hmem))⟩
      cases call with
      | submit client target command =>
          exact fun _ _ _ => hsubmitted client target command List.mem_cons_self
      | step | isolate id | heal id | crash id | restart id => trivial

theorem takesOnly_of_fits {calls : List Call} (hfits : ∀ call ∈ calls, call.Fits) :
    harness.TakesOnly Command.Fits calls :=
  takesOnly_of_submitted (fun _ _ _ hmem => hfits _ hmem)

/-- Whatever is done to a harness, if the commands have lengths within their prefixes
the history is linearizable. -/
theorem histories_linearizable {peers : List NodeId} {electionTimeout heartbeatInterval : Nat}
    {seed : UInt64} {minTimeout maxTimeout minDelay maxDelay applyTimeoutTicks : Nat}
    {calls : List Call}
    (hnew : new peers electionTimeout heartbeatInterval seed minTimeout maxTimeout minDelay
      maxDelay applyTimeoutTicks = .ok harness)
    (hrun : harness.run calls = .ok harness') (hfits : ∀ call ∈ calls, call.Fits) :
    ∃ order, Linearization harness'.finish order :=
  ((new_inOrder hnew).run (takesOnly_of_fits hfits) hrun).finish_fits

/-- The leader is cut off with a write in its hands, another server crashes and comes
back, and the third is elected and asked. -/
def cutOffLeader : List Call :=
  List.replicate 9 .step ++
    [.submit ⟨1⟩ ⟨2⟩ (.set [107] [1]), .step, .step, .step,
      .submit ⟨2⟩ ⟨2⟩ (.set [107] [2]), .isolate ⟨2⟩, .submit ⟨3⟩ ⟨1⟩ (.delete [107]),
      .crash ⟨1⟩, .step, .restart ⟨1⟩] ++
    List.replicate 9 .step ++
    [.submit ⟨1⟩ ⟨3⟩ (.get [107]), .heal ⟨2⟩, .step, .step, .step]

theorem cut_off_leader_linearizable : ∃ start last, new [⟨1⟩, ⟨2⟩, ⟨3⟩] 3 1 7 3 6 1 1 20 =
    .ok start ∧ start.run cutOffLeader = .ok last ∧
    last.finish = [
      ⟨⟨1⟩, 9, some 12, .set [107] [1], .applied (.set none)⟩,
      ⟨⟨3⟩, 12, some 12, .delete [107], .rejected⟩,
      ⟨⟨1⟩, 22, some 25, .get [107], .applied (.get (some [1]))⟩,
      ⟨⟨2⟩, 12, none, .set [107] [2], .indeterminate⟩] ∧
    ∃ order, Linearization last.finish order := by
  have hplayed : ((new [⟨1⟩, ⟨2⟩, ⟨3⟩] 3 1 7 3 6 1 1 20).toOption.bind (fun start =>
      (start.run cutOffLeader).toOption.map (fun last => (start, last)))).any
      (fun found => decide (found.2.finish = [
        ⟨⟨1⟩, 9, some 12, .set [107] [1], .applied (.set none)⟩,
        ⟨⟨3⟩, 12, some 12, .delete [107], .rejected⟩,
        ⟨⟨1⟩, 22, some 25, .get [107], .applied (.get (some [1]))⟩,
        ⟨⟨2⟩, 12, none, .set [107] [2], .indeterminate⟩])) = true := by
    decide +kernel
  obtain ⟨⟨start, last⟩, hfound, hfinish⟩ := exists_of_any hplayed
  obtain ⟨start, hstart, hfound⟩ := Option.bind_eq_some_iff.mp hfound
  obtain ⟨last, hlast, hsame⟩ := Option.map_eq_some_iff.mp hfound
  cases hsame
  have hnew := ok_of_toOption hstart
  have hrun := ok_of_toOption hlast
  exact ⟨start, last, hnew, hrun, hfinish, histories_linearizable hnew hrun (by decide)⟩

/-- Whatever is done to a harness, the history is linearizable once each command is taken
as what is read back of it, and as it is where all commands that leaders were handed have
lengths within their prefixes. -/
theorem taken_histories_linearizable {peers : List NodeId}
    {electionTimeout heartbeatInterval : Nat} {seed : UInt64}
    {minTimeout maxTimeout minDelay maxDelay applyTimeoutTicks : Nat} {calls : List Call}
    (hnew : new peers electionTimeout heartbeatInterval seed minTimeout maxTimeout minDelay
      maxDelay applyTimeoutTicks = .ok harness)
    (hrun : harness.run calls = .ok harness') :
    (∃ order, Linearization
      (harness'.finish.map (HistoryEntry.reading Command.readBack)) order) ∧
    (harness.TakesOnly Command.Fits calls → ∃ order, Linearization harness'.finish order) := by
  constructor
  · have htakes : harness.TakesOnly (fun _ => True) calls :=
      takesOnly_of_submitted (fun _ _ _ _ => trivial)
    exact ((new_inOrder hnew).run htakes hrun).finish
      (fun command _ => Command.decode_encode command)
  · intro htakes
    exact ((new_inOrder hnew).run htakes hrun).finish_fits

/-- A key whose length is cut off to 0. -/
def overlongKey : Bytes := List.replicate 4294967296 0

/-- The overlong key is asked for before there is a leader, and a short one after. -/
def earlyRead : List Call :=
  [.submit ⟨1⟩ ⟨1⟩ (.get overlongKey), .step, .submit ⟨2⟩ ⟨1⟩ (.set [] [5]),
    .submit ⟨3⟩ ⟨1⟩ (.get []), .step]

theorem early_read_linearizable : ∃ start last, new [⟨1⟩] 1 1 7 1 1 1 1 20 = .ok start ∧
    start.run earlyRead = .ok last ∧ start.TakesOnly Command.Fits earlyRead ∧
    last.finish.map HistoryEntry.outcome =
      [.rejected, .applied (.set none), .applied (.get (some [5]))] ∧
    ∃ order, Linearization last.finish order := by
  have hplayed : ((new [⟨1⟩] 1 1 7 1 1 1 1 20).toOption.bind (fun start =>
      (start.run earlyRead).toOption.map (fun last => (start, last)))).any
      (fun found => decide (found.1.TakesOnly Command.Fits earlyRead ∧
        found.2.finish.map HistoryEntry.outcome =
          [.rejected, .applied (.set none), .applied (.get (some [5]))])) = true := by
    decide +kernel
  obtain ⟨⟨start, last⟩, hfound, htakes, houtcomes⟩ := exists_of_any hplayed
  obtain ⟨start, hstart, hfound⟩ := Option.bind_eq_some_iff.mp hfound
  obtain ⟨last, hlast, hsame⟩ := Option.map_eq_some_iff.mp hfound
  cases hsame
  have hnew := ok_of_toOption hstart
  have hrun := ok_of_toOption hlast
  exact ⟨start, last, hnew, hrun, htakes, houtcomes,
    (taken_histories_linearizable hnew hrun).2 htakes⟩

/-- The overlong key is asked for after the empty one has been given a value. -/
def overlongRead : List Call :=
  [.step, .submit ⟨1⟩ ⟨1⟩ (.set [] [5]), .submit ⟨2⟩ ⟨1⟩ (.get overlongKey), .step]

/-- The history is a write of the empty key and the answer of a value to a read of
another one. -/
def readsAnotherKey : List HistoryEntry → Bool
  | [⟨_, _, _, .set [] _, _⟩, ⟨_, _, _, .get (_ :: _), .applied (.get (some _))⟩] => true
  | _ => false

/-- The overlong key is written with a length of 0, so it is the empty one that is read. -/
theorem overlong_read_answers_another_key : ∃ start last,
    new [⟨1⟩] 1 1 7 1 1 1 1 20 = .ok start ∧ start.run overlongRead = .ok last ∧
    ¬ ∃ order, Linearization last.finish order := by
  -- evaluation must not look into the key, so all but its first byte is hidden
  have hkey : overlongKey = 0 :: Classical.choose (⟨_, rfl⟩ :
      ∃ bytes, bytes = List.replicate 4294967295 (0 : UInt8)) := by
    rw [Classical.choose_spec (⟨_, rfl⟩ :
      ∃ bytes, bytes = List.replicate 4294967295 (0 : UInt8))]
    rfl
  have hlength : overlongKey.length = 4294967296 := List.length_replicate
  have hencode : (Command.get overlongKey).encode = getTag :: 0 :: 0 :: 0 :: 0 :: overlongKey := by
    rw [Command.encode, encodeBytes, hlength]
    rfl
  have hplayed : ((new [⟨1⟩] 1 1 7 1 1 1 1 20).toOption.bind (fun start =>
      (start.run overlongRead).toOption.map (fun last => (start, last)))).any
      (fun found => decide (readsAnotherKey found.2.finish = true)) = true := by
    simp only [run, overlongRead, List.foldlM_cons, call, submit, Replica.propose, hencode]
    rw [hkey]
    decide +kernel
  obtain ⟨⟨start, last⟩, hfound, hreads⟩ := exists_of_any hplayed
  obtain ⟨start, hstart, hfound⟩ := Option.bind_eq_some_iff.mp hfound
  obtain ⟨last, hlast, hsame⟩ := Option.map_eq_some_iff.mp hfound
  cases hsame
  refine ⟨start, last, ok_of_toOption hstart, ok_of_toOption hlast, ?_⟩
  rintro ⟨order, horder⟩
  dsimp only at hreads
  unfold readsAnotherKey at hreads
  split at hreads
  case h_2 => cases hreads
  rename_i hfinish
  rw [hfinish] at horder
  have hanswer := horder.unwritten (by simp)
    (List.mem_cons_of_mem _ (List.mem_singleton_self _)) rfl rfl
  cases hanswer

end Harness

end Kurogane.Verify
