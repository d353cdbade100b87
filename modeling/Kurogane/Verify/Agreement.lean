import Kurogane.Verify.Linearizability

/-!
What the replicas of a harness have in common. All that is ever applied is a beginning
of one log, a term has one leader, and leaders have in their logs what others have
applied before, through all crashes and partitions.
-/

namespace Kurogane.Verify

open Kurogane.Raft Kurogane.Kv Kurogane.Runtime Kurogane.Consensus
open Kurogane.Sim (Envelope Cluster Ghost Founded IsCommand)

/-- Nothing is asked of the entries. -/
def Anything (_ : Nat) (_ : LogEntry) : Prop := True

namespace Tracks

variable {harness harness' : Harness} {cluster : Cluster} {h : Ghost}

theorem call {call : Call} (htracks : Tracks Anything harness cluster h)
    (hcall : harness.call call = .ok harness') :
    ∃ cluster' h', Tracks Anything harness' cluster' h' ∧ h.Extends h' := by
  cases call with
  | submit client target command =>
      rcases Harness.submit_cases htracks.mirrors.backed hcall with
        rfl | ⟨replica, next, index, effects, deliveries, entry, deadline, middle, hreplica,
          hpropose, -, hexecutes, rfl⟩
      · exact ⟨cluster, h, htracks.stutter rfl rfl rfl (fun _ => id), .refl h⟩
      · obtain ⟨cluster', h', htracks', hext⟩ :=
          htracks.propose hreplica hpropose hexecutes trivial
        exact ⟨cluster', h', htracks'.stutter rfl rfl rfl (fun _ => id), hext⟩
  | step =>
      obtain ⟨clock, -, hcall⟩ := bind_eq_ok hcall
      obtain ⟨middle, hdeliver, hcall⟩ := bind_eq_ok hcall
      obtain ⟨last, htick, hcall⟩ := bind_eq_ok hcall
      cases hcall
      obtain ⟨cluster', h', htracks', hext, -⟩ := htracks.advance hdeliver htick
      obtain ⟨pending, history, hsettled⟩ := last.resolvePending_spec
      rw [hsettled]
      exact ⟨cluster', h', htracks'.stutter rfl rfl rfl (fun _ => id), hext⟩
  | isolate id =>
      cases hcall
      refine ⟨cluster, h, ?_, .refl h⟩
      unfold Harness.isolate
      split
      · exact htracks
      · exact htracks.stutter rfl rfl rfl (fun _ hcarried => hcarried)
  | heal id =>
      cases hcall
      refine ⟨cluster, h, ?_, .refl h⟩
      unfold Harness.heal
      split
      · exact htracks.stutter rfl rfl rfl (fun _ hcarried => hcarried)
      · exact htracks
  | crash id =>
      cases hcall
      obtain ⟨cluster', h', htracks', hext, -⟩ := htracks.crash id
      exact ⟨cluster', h', htracks', hext⟩
  | restart id =>
      obtain ⟨cluster', h', htracks', hext, -⟩ := htracks.restart hcall
      exact ⟨cluster', h', htracks', hext⟩

theorem run {calls : List Call} (htracks : Tracks Anything harness cluster h)
    (hrun : harness.run calls = .ok harness') :
    ∃ cluster' h', Tracks Anything harness' cluster' h' ∧ h.Extends h' := by
  induction calls generalizing harness cluster h with
  | nil =>
      cases hrun
      exact ⟨cluster, h, htracks, .refl h⟩
  | cons call rest ih =>
      obtain ⟨middle, hmiddle, hrun⟩ := bind_eq_ok hrun
      obtain ⟨cluster', h', htracks', hext⟩ := htracks.call hmiddle
      obtain ⟨last, h'', hlast, hext'⟩ := ih htracks' hrun
      exact ⟨last, h'', hlast, hext.trans hext'⟩

/-- All that is applied at one time is a beginning of one log. -/
theorem log {Q : Nat → LogEntry → Prop} (htracks : Tracks Q harness cluster h) :
    ∃ log, h.Committed log ∧ ∀ (id : NodeId) (replica : Replica),
      harness.replicas[id]? = some replica → replica.Exact log := by
  have hlisted : ∀ ids : List NodeId, ∃ log, h.Committed log ∧
      ∀ id ∈ ids, ∀ replica, harness.replicas[id]? = some replica → replica.Exact log := by
    intro ids
    induction ids with
    | nil => exact ⟨[], h.committed_nil, nofun⟩
    | cons id rest ih =>
        obtain ⟨log, hlog, hrest⟩ := ih
        cases hreplica : harness.replicas[id]? with
        | none =>
            refine ⟨log, hlog, List.forall_mem_cons.mpr ⟨fun replica hfound => ?_, hrest⟩⟩
            rw [hreplica] at hfound
            cases hfound
        | some replica =>
            have hreflects := htracks.reflects id replica hreplica
            obtain ⟨whole, hwhole, ⟨more, hmore⟩, ⟨later, hlater⟩⟩ :=
              htracks.founded.sound.committed_join hlog ⟨_, _, hreflects.covered⟩
            refine ⟨whole, hwhole, List.forall_mem_cons.mpr ⟨fun found hfound => ?_,
              fun other hother found hfound => ?_⟩⟩
            · rw [hreplica] at hfound
              cases hfound
              exact hlater ▸ hreflects.applied.append later
            · exact hmore ▸ (hrest other hother found hfound).append more
  obtain ⟨log, hlog, hall⟩ := hlisted harness.replicas.keys
  refine ⟨log, hlog, fun id replica hreplica => hall id ?_ replica hreplica⟩
  exact Std.ExtTreeMap.mem_keys.mpr
    (Std.ExtTreeMap.mem_iff_isSome_getElem?.mpr (Option.isSome_of_eq_some hreplica))

/-- All that is applied in the course of a run is a beginning of one log. -/
theorem runLog {calls : List Call} (htracks : Tracks Anything harness cluster h)
    (hrun : harness.run calls = .ok harness') :
    ∃ cluster' h' log, Tracks Anything harness' cluster' h' ∧ h'.Committed log ∧
      h.Extends h' ∧ ∀ before, before <+: calls → ∃ now, harness.run before = .ok now ∧
        ∀ (id : NodeId) (replica : Replica), now.replicas[id]? = some replica →
          replica.Exact log := by
  induction calls generalizing harness cluster h with
  | nil =>
      cases hrun
      obtain ⟨log, hlog, hexact⟩ := htracks.log
      refine ⟨cluster, h, log, htracks, hlog, .refl h, fun before hbefore => ?_⟩
      rw [List.prefix_nil.mp hbefore]
      exact ⟨_, rfl, hexact⟩
  | cons call rest ih =>
      obtain ⟨middle, hmiddle, hrun⟩ := bind_eq_ok hrun
      obtain ⟨first, hfirst, hexact⟩ := htracks.log
      obtain ⟨cluster', h', htracks', hext⟩ := htracks.call hmiddle
      obtain ⟨last, h'', second, hlast, hsecond, hext', hlater⟩ := ih htracks' hrun
      obtain ⟨log, hlog, ⟨more, hmore⟩, ⟨others, hothers⟩⟩ :=
        hlast.founded.sound.committed_join ((hext.trans hext').committed hfirst) hsecond
      refine ⟨last, h'', log, hlast, hlog, hext.trans hext', fun before hbefore => ?_⟩
      rcases List.prefix_cons_iff.mp hbefore with rfl | ⟨first, rfl, hfirst⟩
      · exact ⟨harness, rfl, fun id replica hreplica =>
          hmore ▸ (hexact id replica hreplica).append more⟩
      · obtain ⟨now, hnow, hexact'⟩ := hlater first hfirst
        refine ⟨now, ?_, fun id replica hreplica =>
          hothers ▸ (hexact' id replica hreplica).append others⟩
        show (harness.call call >>= fun next => next.run first) = _
        rw [hmiddle]
        exact hnow

end Tracks

namespace Harness

variable {harness now later : Harness} {peers : List NodeId}
  {electionTimeout heartbeatInterval : Nat} {seed : UInt64}
  {minTimeout maxTimeout minDelay maxDelay applyTimeoutTicks : Nat} {calls more : List Call}

/-- The cut-off leader has applied its first write, and the one after it the read. -/
theorem cutOffLeader_played : ∃ start now later replica leader,
    new [⟨1⟩, ⟨2⟩, ⟨3⟩] 3 1 7 3 6 1 1 20 = .ok start ∧
    start.run (cutOffLeader.take 13) = .ok now ∧ now.run (cutOffLeader.drop 13) = .ok later ∧
    now.replicas[(⟨2⟩ : NodeId)]? = some replica ∧
    later.replicas[(⟨3⟩ : NodeId)]? = some leader ∧
    replica.node.role = .leader ∧ replica.node.currentTerm = 2 ∧ replica.lastApplied = 1 ∧
    leader.node.role = .leader ∧ leader.node.currentTerm = 4 ∧ leader.lastApplied = 2 := by
  have hplayed : ((new [⟨1⟩, ⟨2⟩, ⟨3⟩] 3 1 7 3 6 1 1 20).toOption.bind (fun start =>
      (start.run (cutOffLeader.take 13)).toOption.bind (fun now =>
        (now.run (cutOffLeader.drop 13)).toOption.bind (fun later =>
          now.replicas[(⟨2⟩ : NodeId)]?.bind (fun replica =>
            later.replicas[(⟨3⟩ : NodeId)]?.map (fun leader =>
              (start, now, later, replica, leader))))))).any
      (fun (_, _, _, replica, leader) => decide (
        replica.node.role = .leader ∧ replica.node.currentTerm = 2 ∧ replica.lastApplied = 1 ∧
        leader.node.role = .leader ∧ leader.node.currentTerm = 4 ∧
        leader.lastApplied = 2)) = true := by
    decide +kernel
  obtain ⟨⟨start, now, later, replica, leader⟩, hfound, hlike⟩ := exists_of_any hplayed
  simp only [Option.bind_eq_some_iff, Option.map_eq_some_iff, Prod.mk.injEq] at hfound
  obtain ⟨_, hstart, _, hnow, _, hlater, _, hreplica, _, hleader, rfl, rfl, rfl, rfl, rfl⟩ :=
    hfound
  exact ⟨_, _, _, _, _, ok_of_toOption hstart, ok_of_toOption hnow, ok_of_toOption hlater,
    hreplica, hleader, hlike⟩

/-- There is one log for all replicas at all times of a run: their maps are those of its
beginnings, and their results are its answers. -/
theorem replicas_follow_one_log
    (hnew : new peers electionTimeout heartbeatInterval seed minTimeout maxTimeout minDelay
      maxDelay applyTimeoutTicks = .ok harness)
    (hrun : harness.run calls = .ok later) :
    ∃ log : List LogEntry, ∀ before, before <+: calls →
      ∃ now, harness.run before = .ok now ∧
        ∀ (id : NodeId) (replica : Replica), now.replicas[id]? = some replica →
          StateMachine.new.replay (log.take replica.lastApplied) = some replica.stateMachine ∧
          ∀ index result, replica.appliedResult index = some result →
            StateMachine.resultAt log index = some result := by
  obtain ⟨cluster, htracks, -⟩ := new_tracks (Q := Anything) hnew
  obtain ⟨cluster', h', log, -, -, -, hlog⟩ := htracks.runLog hrun
  refine ⟨log, fun before hbefore => ?_⟩
  obtain ⟨now, hnow, hexact⟩ := hlog before hbefore
  refine ⟨now, hnow, fun id replica hreplica => ?_⟩
  have hreplica := hexact id replica hreplica
  exact ⟨hreplica.stands.caught_up (Nat.zero_le _), hreplica.results⟩

theorem cut_off_leader_follows_log : ∃ start now replica,
    new [⟨1⟩, ⟨2⟩, ⟨3⟩] 3 1 7 3 6 1 1 20 = .ok start ∧
    start.run (cutOffLeader.take 13) = .ok now ∧
    now.replicas[(⟨2⟩ : NodeId)]? = some replica ∧ replica.lastApplied = 1 ∧
    ∃ log : List LogEntry, ∀ before, before <+: cutOffLeader.take 13 →
      ∃ moment, start.run before = .ok moment ∧
        ∀ (id : NodeId) (replica : Replica), moment.replicas[id]? = some replica →
          StateMachine.new.replay (log.take replica.lastApplied) = some replica.stateMachine ∧
          ∀ index result, replica.appliedResult index = some result →
            StateMachine.resultAt log index = some result := by
  obtain ⟨start, now, _, replica, _, hstart, hnow, -, hreplica, -, -, -, happlied, -⟩ :=
    cutOffLeader_played
  exact ⟨start, now, replica, hstart, hnow, hreplica, happlied,
    replicas_follow_one_log hstart hnow⟩

/-- A leader is the only one of its term, and has in its log whatever was applied
before in its term or an earlier one. -/
theorem leaders_hold_what_is_applied {id other : NodeId} {replica leader : Replica}
    (hnew : new peers electionTimeout heartbeatInterval seed minTimeout maxTimeout minDelay
      maxDelay applyTimeoutTicks = .ok harness)
    (hrun : harness.run calls = .ok now) (hlater : now.run more = .ok later)
    (hreplica : now.replicas[id]? = some replica)
    (hleader : later.replicas[other]? = some leader) (hrole : leader.node.role = .leader)
    (hterm : replica.node.currentTerm ≤ leader.node.currentTerm) :
    (replica.node.role = .leader → replica.node.currentTerm = leader.node.currentTerm →
      id = other) ∧
    ∀ index, 0 < index → index ≤ replica.lastApplied → ∃ entry,
      replica.node.entryAt index = some entry ∧ leader.node.entryAt index = some entry := by
  obtain ⟨cluster, hstart, -⟩ := new_tracks (Q := Anything) hnew
  obtain ⟨middle, h, htracks, -⟩ := hstart.run hrun
  obtain ⟨last, h', htracks', hext⟩ := htracks.run hlater
  have hnode := htracks.mirrors.node hreplica
  have hnode' := htracks'.mirrors.node hleader
  obtain ⟨hid, hrel⟩ := htracks.founded.of_node hnode
  obtain ⟨hid', hrel'⟩ := htracks'.founded.of_node hnode'
  obtain ⟨helected, hlog, -⟩ := hrel'.leader hrole
  refine ⟨fun hleads hsame => ?_, fun index hpos hle => ?_⟩
  · have hbefore := hext.elected (hrel.leader hleads).1
    rw [hsame] at hbefore
    exact hid.symm.trans ((htracks'.founded.sound.elected_unique hbefore helected).trans hid')
  · have hreflects := htracks.reflects id replica hreplica
    have hcovered := hext.covered hreflects.covered le_rfl hext.clock
    rw [← hid, hrel.term] at hcovered
    obtain ⟨rest, hrest⟩ := htracks'.founded.sound.covered_in_leader hcovered hterm helected
    have hheld := hreflects.held
    have hlt : index - 1 < (h.log id).length := by omega
    refine ⟨(h.log id)[index - 1], ?_, ?_⟩
    · rw [hrel.entryAt_whole (htracks.within.boundary hnode) hpos, hid,
        List.getElem?_eq_getElem hlt]
    · rw [hrel'.entryAt_whole (htracks'.within.boundary hnode') hpos, hlog, ← hrest, hid,
        List.getElem?_append_left (by rw [List.length_take]; omega), List.getElem?_take,
        if_pos (by omega), List.getElem?_eq_getElem hlt]

/-- The third server leads in term 4, with the write that the second had applied as the
leader of term 2. -/
theorem next_leader_holds_first_write : ∃ start now later replica leader,
    new [⟨1⟩, ⟨2⟩, ⟨3⟩] 3 1 7 3 6 1 1 20 = .ok start ∧
    start.run (cutOffLeader.take 13) = .ok now ∧ now.run (cutOffLeader.drop 13) = .ok later ∧
    now.replicas[(⟨2⟩ : NodeId)]? = some replica ∧
    later.replicas[(⟨3⟩ : NodeId)]? = some leader ∧
    replica.node.currentTerm < leader.node.currentTerm ∧
    ∃ entry, replica.node.entryAt 1 = some entry ∧ leader.node.entryAt 1 = some entry := by
  obtain ⟨start, now, later, replica, leader, hstart, hnow, hlater, hreplica, hleader, -, htwo,
    happlied, hrole, hfour, -⟩ := cutOffLeader_played
  have hterm : replica.node.currentTerm < leader.node.currentTerm := by omega
  exact ⟨start, now, later, replica, leader, hstart, hnow, hlater, hreplica, hleader, hterm,
    (leaders_hold_what_is_applied hstart hnow hlater hreplica hleader hrole hterm.le).2 1
      Nat.zero_lt_one happlied.ge⟩

end Harness

end Kurogane.Verify
