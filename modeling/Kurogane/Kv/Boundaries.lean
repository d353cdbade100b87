import Kurogane.Kv.Convergence

/-!
What is in the snapshot at a boundary. The entries that a compaction retains are in
the map it takes, so the snapshot is that of its boundary just if they leave the map
as it was there. Where all snapshots are such, maps and answers are those of the log.
-/

namespace Kurogane.Kv

open Kurogane.Consensus
open Kurogane.Raft (Bytes Node LogEntry)

namespace StateMachine

/-- The answer of the command at `index`, where a log is applied from the empty
map. -/
def resultAt (log : List LogEntry) (index : Nat) : Option ApplyResult := do
  let machine ← new.replay (log.take (index - 1))
  let entry ← log[index - 1]?
  match entry.payload with
  | .command bytes =>
      match Command.decode bytes with
      | .error _ => none
      | .ok command => some (machine.apply command).2
  | .configuration _ => none

/-- Entries behind it change no answer. -/
theorem resultAt_append {log : List LogEntry} {index : Nat} {result : ApplyResult}
    (h : resultAt log index = some result) (more : List LogEntry) :
    resultAt (log ++ more) index = some result := by
  unfold resultAt at h ⊢
  obtain ⟨machine, hmachine, h⟩ := Option.bind_eq_some_iff.mp h
  obtain ⟨entry, hentry, h⟩ := Option.bind_eq_some_iff.mp h
  have hlt := (List.getElem?_eq_some_iff.mp hentry).1
  rw [List.take_append_of_le_length (Nat.le_of_lt hlt), hmachine,
    List.getElem?_append_left hlt, hentry]
  exact h

/-- The entries above `boundary` up to `applied` leave the map as it is. -/
def LeaveAsIs (log : List LogEntry) (boundary applied : Nat) : Prop :=
  Settled new.contents (log.map writeOf) boundary applied

section

variable {machine state : StateMachine} {log : List LogEntry} {boundary applied : Nat}

theorem replay_fits (h : machine.replay log = some state) (hfits : machine.Fits) :
    state.Fits := by
  induction log generalizing machine with
  | nil =>
      cases h
      exact hfits
  | cons entry log ih =>
      obtain ⟨next, hnext, h⟩ := Option.bind_eq_some_iff.mp h
      exact ih h ((applyEntry_spec hnext).2.2.1 hfits)

/-- The map of a log at a boundary has the bytes of the map that is further on just
if the entries in between leave it as it is. -/
theorem StandsFor.snapshot_at (h : machine.StandsFor log 0)
    (hle : boundary ≤ machine.lastApplied) :
    (new.replay (log.take boundary)).map snapshot = some machine.snapshot ↔
      LeaveAsIs log boundary machine.lastApplied := by
  obtain ⟨early, hearly⟩ := Option.isSome_iff_exists.mp (h.back hle).readable
  have hcontents := (replay_contents hearly).1
  rw [List.map_take] at hcontents
  rw [LeaveAsIs, settled_iff hle, ← h.ahead.caught_up (Nat.zero_le _), ← hcontents, hearly]
  constructor
  · intro hbytes
    have hentries := snapshot_inj (replay_fits hearly fits_new) h.fits
      (Option.some.inj hbytes)
    funext key
    unfold contents
    rw [hentries]
  · intro hsame
    have hentries : early.entries = machine.entries :=
      Std.ExtTreeMap.ext_getElem? (fun key => (congrFun hsame key).symm)
    unfold snapshot
    rw [Option.map_some, hentries]

/-- The log may go on. -/
theorem StandsFor.append {taken : Nat} (h : machine.StandsFor log taken)
    (more : List LogEntry) : machine.StandsFor (log ++ more) taken where
  held := h.held.trans (by simp)
  readable := by
    rw [List.take_append_of_le_length h.held]
    exact h.readable
  ahead := by
    rw [List.map_append]
    exact h.ahead.append (by rw [List.length_map]; exact h.held) _
  fits := h.fits

theorem StandsFor.mono {taken later : Nat} (h : machine.StandsFor log taken)
    (hle : taken ≤ later) : machine.StandsFor log later :=
  { h with ahead := h.ahead.mono hle }

theorem StandsFor.settle (h : machine.StandsFor log 0)
    (hle : boundary ≤ machine.lastApplied)
    (hsettled : LeaveAsIs log boundary machine.lastApplied) :
    StandsFor ⟨machine.entries, boundary⟩ log 0 where
  held := hle.trans h.held
  readable := (h.back hle).readable
  ahead := h.ahead.settle hle hsettled
  fits := h.fits

end

end StateMachine

namespace Replica

variable {replica next : Replica} {deliveries : List Delivery} {log : List LogEntry}
  {chain : List Taking}

/-- No result is kept of an index that has not been applied. -/
def KeepsApplied (replica : Replica) : Prop :=
  ∀ (index : Nat) (result : ApplyResult), replica.appliedResult index = some result →
    index ≤ replica.lastApplied

/-- The map and the results are those of the log. -/
structure Exact (replica : Replica) (log : List LogEntry) : Prop where
  stands : replica.stateMachine.StandsFor log 0
  results : ∀ (index : Nat) (result : ApplyResult),
    replica.appliedResult index = some result →
    StateMachine.resultAt log index = some result

/-- The log may go on beyond what has been applied. -/
theorem Exact.append (h : replica.Exact log) (more : List LogEntry) :
    replica.Exact (log ++ more) where
  stands := h.stands.append more
  results index result hresult :=
    StateMachine.resultAt_append (h.results index result hresult) more

theorem appliedResult_of_empty {index : Nat} {result : ApplyResult}
    (h : replica.results = ∅) : replica.appliedResult index ≠ some result := by
  unfold appliedResult
  rw [h, Std.ExtTreeMap.getElem?_empty]
  nofun

theorem applyNext_results {delivery : Delivery} {index : Nat} {result : ApplyResult}
    (h : replica.applyNext = .ok (next, delivery))
    (hresult : next.appliedResult index = some result) :
    replica.appliedResult index = some result ∨
      (index = replica.lastApplied + 1 ∧ ∃ entry bytes command,
        replica.node.entryAt (replica.lastApplied + 1) = some entry ∧
        entry.payload = .command bytes ∧ Command.decode bytes = .ok command ∧
        result = (replica.stateMachine.apply command).2) := by
  obtain ⟨entry, hentry, ⟨bytes, command, hpayload, hdecode, rfl, -⟩ | ⟨-, rfl, -⟩⟩ :=
    applyNext_cases h
  · unfold appliedResult at hresult
    rw [Std.ExtTreeMap.getElem?_insert] at hresult
    split at hresult
    · rename_i hsame
      obtain rfl := Std.LawfulEqCmp.eq_of_compare hsame
      cases hresult
      exact Or.inr ⟨rfl, entry, bytes, command, hentry, hpayload, hdecode, rfl⟩
    · exact Or.inl hresult
  · exact Or.inl hresult

theorem Applies.keepsApplied (h : Applies replica deliveries next)
    (hkeeps : replica.KeepsApplied) : next.KeepsApplied := by
  induction h with
  | done => exact hkeeps
  | next _ hnext _ ih =>
      refine ih (fun index result hresult => ?_)
      rw [(applyNext_lastApplied hnext).2]
      rcases applyNext_results hnext hresult with hold | ⟨rfl, -⟩
      · exact (hkeeps index result hold).trans (Nat.le_succ _)
      · exact Nat.le_refl _

theorem Applies.exact (h : Applies replica deliveries next)
    (hfrom : next.AppliesFrom log replica.lastApplied) (hexact : replica.Exact log) :
    next.Exact log := by
  induction h with
  | done => exact hexact
  | @next replica middle last delivery deliveries _ hnext happlies ih =>
      obtain ⟨hnode, happlied⟩ := applyNext_lastApplied hnext
      obtain ⟨hlater, hconsecutive, -⟩ := happlies.spec
      have hreached := hconsecutive.le
      rw [happlied] at hreached ih
      obtain ⟨entry, hentry, happly⟩ := applyNext_applyEntry hnext
      have hlog := hfrom (replica.lastApplied + 1) (Nat.lt_succ_self _) hreached
      rw [hlater, hnode, hentry, Nat.add_sub_cancel] at hlog
      apply ih (fun index hlow hhigh => hfrom index (by omega) hhigh)
      refine ⟨hexact.stands.applied hlog.symm happly, fun index result hresult => ?_⟩
      rcases applyNext_results hnext hresult with hold |
        ⟨rfl, found, bytes, command, hfound, hpayload, hdecode, rfl⟩
      · exact hexact.results index result hold
      · rw [hentry] at hfound
        cases hfound
        have hreplay : StateMachine.new.replay (log.take replica.lastApplied) =
            some replica.stateMachine := hexact.stands.caught_up (Nat.zero_le _)
        unfold StateMachine.resultAt
        rw [Nat.add_sub_cancel, hreplay, ← hlog]
        simp only [Option.bind_eq_bind, Option.bind_some, hpayload, hdecode]

/-- Results at or below the boundary that is jumped to go, and there are no others. -/
theorem results_after_jump {middle : Replica} {boundary index : Nat} {result : ApplyResult}
    (hkeeps : replica.KeepsApplied) (hahead : replica.lastApplied < boundary)
    (hresults : middle.results = replica.results.filter (fun index _ => boundary < index)) :
    middle.appliedResult index ≠ some result := by
  intro hresult
  unfold appliedResult at hresult
  rw [hresults, Std.ExtTreeMap.getElem?_filter', Option.filter_eq_some_iff] at hresult
  have habove := of_decide_eq_true hresult.2
  have hwithin := hkeeps index result hresult.1
  omega

theorem Lineage.keepsApplied (h : Lineage log replica chain) : replica.KeepsApplied := by
  induction h with
  | started _ hrecover | recovered _ _ hrecover _ =>
      exact fun index result hresult =>
        absurd hresult (appliedResult_of_empty (recover_spec hrecover).2.1)
  | served _ hperform hbehind _ ih =>
      obtain ⟨middle, applied, happlies, ⟨hsame, hresults, -⟩ | ⟨hahead, -, -⟩⟩ :=
        perform_applies hperform
      · apply happlies.keepsApplied
        unfold KeepsApplied appliedResult lastApplied
        rw [hsame, hresults]
        exact ih
      · exact absurd hahead (Nat.not_lt.mpr hbehind)
  | installed _ hbefore hperform hahead _ _ _ ih =>
      obtain ⟨middle, applied, happlies, ⟨-, -, hkept⟩ | ⟨-, -, hresults⟩⟩ :=
        perform_applies hperform
      · exact absurd hahead (Nat.not_lt.mpr (hkept hbefore.standsFor.2))
      · apply happlies.keepsApplied
        exact fun index result hresult =>
          absurd hresult (results_after_jump ih hahead hresults)

/-- Started from snapshots that are what their boundary says. -/
theorem Lineage.exact (h : Lineage log replica chain)
    (hsettled : ∀ taking ∈ chain, StateMachine.LeaveAsIs log taking.boundary taking.applied) :
    replica.Exact log := by
  induction h with
  | @started node replica hnone hrecover =>
      obtain ⟨-, hempty, hnew, -⟩ := recover_spec hrecover
      refine ⟨?_, fun index result hresult => absurd hresult (appliedResult_of_empty hempty)⟩
      rw [hnew hnone]
      exact .initial log
  | @recovered source replica chain node _ htakes hrecover ih =>
      rw [List.forall_mem_cons] at hsettled
      obtain ⟨-, hempty, -, hmachine⟩ := recover_spec hrecover
      obtain ⟨hpos, hle, -⟩ := htakes.spec
      have hexact := ih hsettled.2
      refine ⟨?_, fun index result hresult => absurd hresult (appliedResult_of_empty hempty)⟩
      rw [htakes.restores hexact.stands.fits (hmachine hpos)]
      exact hexact.stands.settle hle hsettled.1
  | served _ hperform hbehind hfrom ih =>
      obtain ⟨middle, applied, happlies, ⟨hsame, hresults, -⟩ | ⟨hahead, -, -⟩⟩ :=
        perform_applies hperform
      · have hexact := ih hsettled
        have happlied := congrArg StateMachine.lastApplied hsame
        apply happlies.exact
        · exact fun index hlow hhigh => hfrom index (happlied.ge.trans_lt hlow) hhigh
        · refine ⟨hsame ▸ hexact.stands, fun index result hresult => ?_⟩
          unfold appliedResult at hresult
          rw [hresults] at hresult
          exact hexact.results index result hresult
      · exact absurd hahead (Nat.not_lt.mpr hbehind)
  | installed _ hbefore hperform hahead htakes hfrom ihsource ih =>
      rw [List.forall_mem_cons] at hsettled
      have hexact := ihsource hsettled.2
      obtain ⟨middle, applied, happlies, ⟨-, -, hkept⟩ | ⟨-, hmachine, hresults⟩⟩ :=
        perform_applies hperform
      · exact absurd hahead (Nat.not_lt.mpr (hkept hbefore.standsFor.2))
      · have hrestored := htakes.restores hexact.stands.fits hmachine
        have happlied : middle.lastApplied = _ :=
          congrArg StateMachine.lastApplied hrestored
        apply happlies.exact
        · rw [happlied]
          exact hfrom
        · refine ⟨?_, fun index result hresult => ?_⟩
          · rw [hrestored]
            exact hexact.stands.settle htakes.spec.2.1 hsettled.1
          · exact absurd hresult
              (results_after_jump hbefore.keepsApplied hahead hresults)

/-- As long as every snapshot that has been used was taken where the entries it
retained left the map as it is, a snapshot is that of its boundary just if that is so
again; replicas that have applied the same have the same map; and all results are
those of the log. -/
theorem snapshots_exact_where_settled (h : Lineage log replica chain)
    (hsettled : ∀ taking ∈ chain, StateMachine.LeaveAsIs log taking.boundary taking.applied) :
    (∀ boundary data, replica.Takes boundary data →
      ((StateMachine.new.replay (log.take boundary)).map StateMachine.snapshot = some data ↔
        StateMachine.LeaveAsIs log boundary replica.lastApplied)) ∧
    (∀ other before, Lineage log other before →
      (∀ taking ∈ before, StateMachine.LeaveAsIs log taking.boundary taking.applied) →
      other.lastApplied = replica.lastApplied → other.stateMachine = replica.stateMachine) ∧
    ∀ index result, replica.appliedResult index = some result →
      StateMachine.resultAt log index = some result := by
  have hexact := h.exact hsettled
  refine ⟨fun boundary data htakes => ?_, fun other before hother hsettled' hsame => ?_,
    hexact.results⟩
  · obtain ⟨-, hle, rfl⟩ := htakes.spec
    exact hexact.stands.snapshot_at hle
  · have hreplay := (hother.exact hsettled').stands.caught_up (Nat.zero_le _)
    have hreplay' := hexact.stands.caught_up (Nat.zero_le _)
    unfold lastApplied at hsame
    rw [hsame, hreplay'] at hreplay
    exact (Option.some.inj hreplay).symm

/-- The retained entry deletes the key that the first one sets: it is missing in the
snapshot of the first, and whoever starts from it answers that it was not there. -/
theorem retained_entry_is_in_snapshot : ∃ source replica : Replica,
    Lineage setThenDelete source [] ∧ source.lastApplied = 2 ∧ source.Takes 1 [] ∧
      (StateMachine.new.replay (setThenDelete.take 1)).map StateMachine.snapshot =
        some (encodeEntry ([7], [8])) ∧
      Lineage setThenDelete replica [⟨1, 2⟩] ∧
      source.appliedResult 2 = some (.delete (some [8])) ∧
      replica.appliedResult 2 = some (.delete none) := by
  obtain ⟨source, replica, hsource, htakes, htwo, hfirst, hreplica, -, hsecond⟩ :=
    snapshot_of_first setThenDelete [] (.delete (some [8])) (.delete none)
      (by decide +kernel) (by decide +kernel)
  exact ⟨source, replica, hsource, htwo, htakes, by decide +kernel, hreplica, hfirst,
    hsecond⟩

def setThenGet : List LogEntry :=
  [⟨1, .command (Command.set [7] [8]).encode⟩, ⟨1, .command (Command.get [7]).encode⟩]

/-- A retained entry that only reads. -/
theorem retained_read_settles : ∃ source replica : Replica,
    Lineage setThenGet source [] ∧ source.Takes 1 (encodeEntry ([7], [8])) ∧
      (StateMachine.new.replay (setThenGet.take 1)).map StateMachine.snapshot =
        some (encodeEntry ([7], [8])) ∧
      Lineage setThenGet replica [⟨1, 2⟩] ∧
      StateMachine.resultAt setThenGet 2 = some (.get (some [8])) := by
  obtain ⟨source, replica, hsource, htakes, htwo, -, hreplica, -, hresult⟩ :=
    snapshot_of_first setThenGet (encodeEntry ([7], [8])) (.get (some [8]))
      (.get (some [8])) (by decide +kernel) (by decide +kernel)
  have hreads : StateMachine.LeaveAsIs setThenGet 1 2 := by
    intro position key value hlow hhigh hwrite
    obtain rfl : position = 1 := by omega
    have hnone : (setThenGet.map writeOf)[1]? = some none := by decide +kernel
    rw [hnone] at hwrite
    cases hwrite
  have hfirst := (snapshots_exact_where_settled hsource nofun).1 1 _ htakes
  rw [htwo] at hfirst
  have hsecond := (snapshots_exact_where_settled hreplica (by
    rw [List.forall_mem_singleton]
    exact hreads)).2.2 2 _ hresult
  exact ⟨source, replica, hsource, htakes, hfirst.mpr hreads, hreplica, hsecond⟩

end Replica

end Kurogane.Kv
