import Kurogane.Raft.LogMatching

/-!
Entries that arrive late, again, or out of order. All that one leader sends in
one term is cut from one log that only grows, so what a follower has taken over
stays, whichever of the messages comes next.
-/

namespace Kurogane.Raft.Node

variable {node node' : Node} {effects : List Effect} {whole : List LogEntry}
  {sender leader : NodeId} {request : AppendEntries} {term : Nat}

/-- `leader` sent the message in `term`, when its log had grown to a prefix of
`whole`. -/
def EmittedFrom (whole : List LogEntry) (term : Nat) (leader : NodeId)
    (request : AppendEntries) : Prop :=
  ∃ (node : Node) (peer : NodeId) (sofar : List LogEntry), sofar <+: whole ∧
    node.Reads sofar ∧ node.role = .leader ∧ node.id = leader ∧
    node.currentTerm = term ∧
    node.replicateTo peer = some (.send peer (.appendEntries request))

theorem EmittedFrom.slice (h : EmittedFrom whole term leader request) :
    request.SliceOf whole ∧ request.term = term ∧ request.leaderId = leader := by
  obtain ⟨node, peer, sofar, ⟨more, rfl⟩, hreads, -, rfl, rfl, hsend⟩ := h
  obtain ⟨hslice, hterm, hid, -⟩ := hreads.sends hsend
  exact ⟨hslice.extend more, hterm, hid⟩

/-- The follower has answered that it holds what the message covers. -/
def Acknowledges (leader : NodeId) (effects : List Effect) : Prop :=
  ∃ term count, .send leader (.appendEntriesResponse ⟨term, true, count⟩) ∈ effects

/-- The index the message ends at. -/
def lastCovered (request : AppendEntries) : Nat :=
  request.prevLogIndex + request.entries.length

theorem followLeader_rejects (node : Node) (term : Nat) :
    ¬ Acknowledges leader ((node.followLeader term).2 ++
      [(node.followLeader term).1.rejectAppendEntries leader]) := by
  rintro ⟨said, count, hmem⟩
  rcases List.mem_append.mp hmem with hpersist | hreply
  · unfold followLeader persistHardState at hpersist
    dsimp only at hpersist
    split at hpersist
    · rw [List.mem_singleton] at hpersist
      cases hpersist
    · cases hpersist
  · rw [List.mem_singleton] at hreply
    cases hreply

/-- What one message of the leader does to a follower that matches its log. -/
theorem deliver_spec (hmatches : node.Matches whole)
    (hemitted : EmittedFrom whole term leader request)
    (h : node.perform (.receive leader (.appendEntries request)) = some (node', effects)) :
    node'.Matches whole ∧
      (∀ index, index ≤ whole.length → node.AgreesTo whole index →
        node'.AgreesTo whole index) ∧
      (node.currentTerm = term → node'.currentTerm = term) ∧
      (Acknowledges leader effects → node'.AgreesTo whole (lastCovered request) ∧
        node'.currentTerm = term ∧
        .send leader (.appendEntriesResponse ⟨term, true, lastCovered request⟩) ∈ effects) := by
  obtain ⟨hslice, hsame, hid⟩ := hemitted.slice
  have hstep : node.onAppendEntries leader request = some (node', effects) := by
    have hstep : node.step (.step leader (.appendEntries request)) = _ := h
    simpa only [step, hid, ne_eq, not_true_eq_false, if_false] using hstep
  obtain ⟨hlog, hsnapshot, -⟩ := node.followLeader_log request.term
  rcases Nat.lt_or_ge request.term node.currentTerm with hstale | hcurrent
  · rw [onAppendEntries_stale hstale] at hstep
    cases hstep
    refine ⟨hmatches, fun _ _ hagrees => hagrees, fun hterm => hterm, ?_⟩
    rintro ⟨said, count, hmem⟩
    rw [List.mem_singleton] at hmem
    cases hmem
  have hterm := node.followLeader_term hcurrent
  cases hprev : node.prevLogSatisfied request with
  | false =>
      rw [onAppendEntries_rejects hcurrent hprev] at hstep
      cases hstep
      refine ⟨hmatches.congr hlog hsnapshot,
        fun _ _ hagrees => hagrees.congr hlog hsnapshot, fun _ => hterm.trans hsame, ?_⟩
      exact fun hyes => absurd hyes (node.followLeader_rejects request.term)
  | true =>
      obtain ⟨follower, persists, hanswer, hfollower, hagrees, hkept, -, hcurrentTerm⟩ :=
        hmatches.onAppendEntries hslice leader hcurrent hprev
      rw [hanswer] at hstep
      cases hstep
      rw [hsame] at hcurrentTerm
      refine ⟨hfollower, fun index hle hold => hkept index hold hle, fun _ => hcurrentTerm,
        fun _ => ⟨hagrees, hcurrentTerm, ?_⟩⟩
      apply List.mem_append_right
      rw [List.mem_singleton, hsame]
      rfl

/-- A log that agrees with the whole log has nothing to take over from it. -/
theorem AgreesTo.firstNew (h : node.AgreesTo whole (lastCovered request))
    (hslice : request.SliceOf whole) (hprev : request.prevLogIndex ≤ node.lastLogIndex) :
    node.firstNew (request.prevLogIndex + 1) request.entries = none := by
  cases hnew : node.firstNew (request.prevLogIndex + 1) request.entries with
  | none => rfl
  | some found =>
      obtain ⟨fromIndex, rest⟩ := found
      have hfrom : request.prevLogIndex + 1 ≤ node.lastLogIndex + 1 := Nat.succ_le_succ hprev
      obtain ⟨hlow, hle, -, hsplit, hlength⟩ := firstNew_range hfrom hnew
      obtain ⟨entry, tail, rfl, hnot⟩ := firstNew_new hnew
      rw [List.length_cons] at hlength
      have hentry : request.entries[fromIndex - (request.prevLogIndex + 1)]? = some entry := by
        have htake : (request.entries.take (fromIndex - (request.prevLogIndex + 1))).length =
            fromIndex - (request.prevLogIndex + 1) := List.length_take_of_le (by omega)
        rw [hsplit, List.getElem?_append_right (by omega), htake, Nat.sub_self]
        rfl
      have hwhole := hslice.entries _ _ hentry
      exfalso
      apply hnot
      right
      rw [termAt_above hlow, h fromIndex hlow (by unfold lastCovered; omega),
        show fromIndex - 1 = request.prevLogIndex + (fromIndex - (request.prevLogIndex + 1)) by
          omega, hwhole]
      rfl

/-- What the log already agrees with is acknowledged again, and nothing is
written. -/
theorem AgreesTo.redeliver (h : node.AgreesTo whole (lastCovered request))
    (hemitted : EmittedFrom whole term leader request) (hterm : node.currentTerm = term) :
    ∃ again, node.perform (.receive leader (.appendEntries request)) = some (again,
        [.send leader (.appendEntriesResponse ⟨term, true, lastCovered request⟩)]) ∧
      again.log = node.log := by
  obtain ⟨hslice, hsame, hid⟩ := hemitted.slice
  have hwithin := hslice.within
  have hprev : node.prevLogSatisfied request = true := by
    unfold prevLogSatisfied
    by_cases hlow : request.prevLogIndex ≤ node.snapshot.lastIncludedIndex
    · simp only [hlow, decide_true, Bool.true_or]
    · have hpos : 0 < request.prevLogIndex := by omega
      have hown := hslice.prev hpos
      unfold termIn at hown
      rw [if_neg (by omega)] at hown
      rw [termAt_above (Nat.not_le.mp hlow), h _ (Nat.not_le.mp hlow)
        (by unfold lastCovered; omega), hown]
      simp only [decide_true, Bool.or_true]
  have hnone := h.firstNew hslice (prevLogSatisfied_le hprev)
  have hcurrent : node.currentTerm ≤ request.term := by rw [hterm, hsame]
  have hsilent : (node.followLeader request.term).2 = [] := by
    unfold followLeader
    simp only [hterm, hsame, Nat.lt_irrefl, decide_false, Bool.false_eq_true, if_false]
  have hstep : node.perform (.receive leader (.appendEntries request)) =
      node.onAppendEntries leader request := by
    show node.step (.step leader (.appendEntries request)) = _
    simp only [step, hid, ne_eq, not_true_eq_false, if_false]
  rw [hstep, onAppendEntries_accepts hcurrent hprev, hnone, hsilent]
  refine ⟨((node.followLeader request.term).1.adopt none).followCommit request.leaderCommit,
    ?_, ?_⟩
  · rw [appendReply, adopt_currentTerm, node.followLeader_term hcurrent, hsame]
    rfl
  · obtain ⟨hlog, -⟩ := node.followLeader_log request.term
    unfold followCommit
    split <;> exact hlog

/-- No entry is lost below the first index where the message conflicts with it. -/
theorem deliver_keeps
    (h : node.perform (.receive sender (.appendEntries request)) = some (node', effects))
    {index : Nat} {entry : LogEntry} (hentry : node.entryAt index = some entry)
    (hagrees : ∀ sent ∈ request.entries.zipIdx (request.prevLogIndex + 1), sent.2 ≤ index →
      ∀ own ∈ node.entryAt sent.2, own.term = sent.1.term) :
    node'.entryAt index = some entry := by
  have hsame : node'.log = node.log → node'.snapshot = node.snapshot →
      node'.entryAt index = some entry := by
    intro hlog hsnapshot
    rw [← hentry]
    unfold entryAt vecIndex
    rw [hlog, hsnapshot]
  have hstep : node.step (.step sender (.appendEntries request)) = some (node', effects) := h
  simp only [step] at hstep
  split at hstep
  · cases hstep
    exact hentry
  obtain ⟨hlog, hsnapshot, -⟩ := node.followLeader_log request.term
  rcases Nat.lt_or_ge request.term node.currentTerm with hstale | hcurrent
  · rw [onAppendEntries_stale hstale] at hstep
    cases hstep
    exact hentry
  cases hprev : node.prevLogSatisfied request with
  | false =>
      rw [onAppendEntries_rejects hcurrent hprev] at hstep
      cases hstep
      exact hsame hlog hsnapshot
  | true =>
      rw [onAppendEntries_accepts hcurrent hprev] at hstep
      cases hstep
      have hcommit : ∀ other : Node, (other.followCommit request.leaderCommit).entryAt index =
          other.entryAt index := by
        intro other
        unfold followCommit
        split <;> rfl
      rw [hcommit]
      cases hnew : node.firstNew (request.prevLogIndex + 1) request.entries with
      | none =>
          rw [← hentry]
          unfold adopt entryAt vecIndex
          rw [hlog, hsnapshot]
      | some found =>
          obtain ⟨fromIndex, rest⟩ := found
          have hfrom : request.prevLogIndex + 1 ≤ node.lastLogIndex + 1 :=
            Nat.succ_le_succ (prevLogSatisfied_le hprev)
          obtain ⟨hlow, hle, hhigh, hsplit, hlength⟩ := firstNew_range hfrom hnew
          obtain ⟨first, tail, rfl, hnot⟩ := firstNew_new hnew
          have hposition : node.snapshot.lastIncludedIndex < index := by
            unfold entryAt at hentry
            split at hentry
            · cases hentry
            · omega
          have hbelow : index < fromIndex := by
            by_contra hge
            -- The log reaches `index`, so it holds an entry at `fromIndex`.
            obtain ⟨offset, hoffset, hheld⟩ := entryAt_eq_some.mp hentry
            have hin := (List.getElem?_eq_some_iff.mp hheld).1
            obtain ⟨own, hown⟩ : ∃ own, node.entryAt fromIndex = some own := by
              have hslot : node.vecIndex fromIndex < node.log.length := by
                unfold vecIndex
                omega
              refine ⟨node.log[node.vecIndex fromIndex], ?_⟩
              unfold entryAt
              rw [if_neg (by omega), List.getElem?_eq_getElem hslot]
            have hsent : (first, fromIndex) ∈
                request.entries.zipIdx (request.prevLogIndex + 1) := by
              rw [List.mk_mem_zipIdx_iff_le_and_getElem?_sub]
              refine ⟨hle, ?_⟩
              have htake : (request.entries.take
                  (fromIndex - (request.prevLogIndex + 1))).length =
                    fromIndex - (request.prevLogIndex + 1) := by
                apply List.length_take_of_le
                rw [List.length_cons] at hlength
                omega
              rw [hsplit, List.getElem?_append_right (by omega), htake, Nat.sub_self]
              rfl
            apply hnot
            right
            rw [termAt_above hlow, hown]
            exact congrArg some (hagrees _ hsent (Nat.not_lt.mp hge) own hown)
          have hlow' : (node.followLeader request.term).1.snapshot.lastIncludedIndex <
              fromIndex := by
            rw [hsnapshot]
            exact hlow
          have hhigh' : fromIndex ≤ (node.followLeader request.term).1.lastLogIndex + 1 := by
            unfold lastLogIndex at hhigh ⊢
            rw [hlog, hsnapshot]
            exact hhigh
          rw [adopt_entryAt hlow' hhigh' (by rw [hsnapshot]; exact hposition),
            if_pos hbelow, ← hentry]
          unfold entryAt vecIndex
          rw [hlog, hsnapshot]

/-- Deliveries of one leader's messages, whichever they are and in whichever
order. -/
theorem deliveries_spec {requests : List AppendEntries}
    (hemitted : ∀ request ∈ requests, EmittedFrom whole term leader request) :
    ∀ {node last : Node} {batches : List (List Effect)}, node.Matches whole →
      node.performAll (requests.map (fun request =>
        .receive leader (.appendEntries request))) = some (last, batches) →
      last.Matches whole ∧
        (∀ index, index ≤ whole.length → node.AgreesTo whole index →
          last.AgreesTo whole index) ∧
        (node.currentTerm = term → last.currentTerm = term) ∧
        ∀ delivery ∈ requests.zip batches, Acknowledges leader delivery.2 →
          last.AgreesTo whole (lastCovered delivery.1) ∧ last.currentTerm = term ∧
          .send leader (.appendEntriesResponse ⟨term, true, lastCovered delivery.1⟩) ∈
            delivery.2 := by
  induction requests with
  | nil =>
      intro node last batches hmatches h
      cases h
      exact ⟨hmatches, fun _ _ hagrees => hagrees, fun hterm => hterm, nofun⟩
  | cons request rest ih =>
      intro node last batches hmatches h
      obtain ⟨hfirst, hrest⟩ := List.forall_mem_cons.mp hemitted
      obtain ⟨next, batch, batches', hperform, hlater, rfl⟩ := performAll_cons h
      obtain ⟨hnext, hkeeps, hterm, hyes⟩ := deliver_spec hmatches hfirst hperform
      obtain ⟨hlast, hkeeps', hterm', hyes'⟩ := ih hrest hnext hlater
      refine ⟨hlast, ?_, fun heq => hterm' (hterm heq), ?_⟩
      · exact fun index hle hagrees => hkeeps' index hle (hkeeps index hle hagrees)
      · rw [List.zip_cons_cons]
        refine List.forall_mem_cons.mpr ⟨fun hack => ?_, hyes'⟩
        obtain ⟨hagrees, hcurrent, hsent⟩ := hyes hack
        exact ⟨hkeeps' _ hfirst.slice.1.within hagrees, hterm' hcurrent, hsent⟩

/-- Whatever messages of one leader a follower has been given, in any order and
any number of times: what it has acknowledged it still holds, and acknowledges
again without writing; and no message takes away what it does not contradict. -/
theorem stale_entries_never_undo_progress {node last : Node}
    {requests : List AppendEntries} {batches : List (List Effect)}
    (hmatches : node.Matches whole)
    (hemitted : ∀ request ∈ requests, EmittedFrom whole term leader request)
    (hrun : node.performAll (requests.map (fun request =>
      .receive leader (.appendEntries request))) = some (last, batches)) :
    (∀ delivery ∈ requests.zip batches, Acknowledges leader delivery.2 →
      .send leader (.appendEntriesResponse ⟨term, true, lastCovered delivery.1⟩) ∈
          delivery.2 ∧
        last.AgreesTo whole (lastCovered delivery.1) ∧
        ∃ again, last.perform (.receive leader (.appendEntries delivery.1)) = some (again,
            [.send leader (.appendEntriesResponse ⟨term, true, lastCovered delivery.1⟩)]) ∧
          again.log = last.log) ∧
    ∀ request next effects index entry,
      last.perform (.receive leader (.appendEntries request)) = some (next, effects) →
      last.entryAt index = some entry →
      (∀ sent ∈ request.entries.zipIdx (request.prevLogIndex + 1), sent.2 ≤ index →
        ∀ own ∈ last.entryAt sent.2, own.term = sent.1.term) →
      next.entryAt index = some entry := by
  obtain ⟨-, -, -, hyes⟩ := deliveries_spec hemitted hmatches hrun
  refine ⟨fun delivery hmem hack => ?_, fun request next effects index entry hperform => ?_⟩
  · obtain ⟨hagrees, hterm, hsent⟩ := hyes delivery hmem hack
    have hrequest := hemitted delivery.1 (List.of_mem_zip hmem).1
    exact ⟨hsent, hagrees, hagrees.redeliver hrequest hterm⟩
  · exact fun hentry hagrees => deliver_keeps hperform hentry hagrees

/-- A server of three takes the lead and is handed a command. -/
def leadsWith (commands : List Bytes) : List Operation :=
  [.tick 1, .receive ⟨2⟩ (.requestVoteResponse ⟨1, true⟩)] ++ commands.map .propose

/-- What it owes a peer it has not heard from. -/
def firstMessage (entries : List LogEntry) : AppendEntries := ⟨1, ⟨1⟩, 0, 0, entries, 0⟩

theorem firstMessage_emitted (commands : List Bytes) (sofar : List LogEntry)
    (hsofar : sofar <+: whole)
    (hcheck : ((new ⟨1⟩ [⟨1⟩, ⟨2⟩, ⟨3⟩] 1 1).toOption.bind (fun start =>
      (start.performAll (leadsWith commands)).map (fun result => decide
        (result.1.snapshot = ⟨0, 0⟩ ∧ result.1.log = sofar ∧ result.1.role = .leader ∧
          result.1.id = ⟨1⟩ ∧ result.1.currentTerm = 1 ∧ result.1.replicateTo ⟨2⟩ =
            some (.send ⟨2⟩ (.appendEntries (firstMessage sofar))))))) = some true) :
    EmittedFrom whole 1 ⟨1⟩ (firstMessage sofar) := by
  obtain ⟨start, node, batches, -, -, hsnapshot, hlog, hrole, hid, hterm, hsend⟩ :=
    performAll_of_check ⟨1⟩ [⟨1⟩, ⟨2⟩, ⟨3⟩] 1 1 (leadsWith commands)
      (fun node => node.snapshot = ⟨0, 0⟩ ∧ node.log = sofar ∧ node.role = .leader ∧
        node.id = ⟨1⟩ ∧ node.currentTerm = 1 ∧ node.replicateTo ⟨2⟩ =
          some (.send ⟨2⟩ (.appendEntries (firstMessage sofar)))) hcheck
  refine ⟨node, ⟨2⟩, sofar, hsofar, ⟨⟨?_, ?_⟩, ?_⟩, hrole, hid, hterm, hsend⟩
  · rw [hsnapshot]
    exact Nat.zero_le _
  · rw [hsnapshot]
    exact fun hpos => absurd hpos (Nat.lt_irrefl 0)
  · rw [hsnapshot, hlog]
    rfl

/-- The follower hears the longer message first, then the shorter one, twice. -/
theorem shorter_message_undoes_nothing : ∃ follower last batches,
    new ⟨2⟩ [⟨1⟩, ⟨2⟩, ⟨3⟩] 1 1 = .ok follower ∧
      follower.performAll ([firstMessage [⟨1, .command [7]⟩, ⟨1, .command [8]⟩],
        firstMessage [⟨1, .command [7]⟩], firstMessage [⟨1, .command [7]⟩]].map
          (fun request => .receive ⟨1⟩ (.appendEntries request))) = some (last, batches) ∧
      last.AgreesTo [⟨1, .command [7]⟩, ⟨1, .command [8]⟩] 2 ∧
      ∃ again, last.perform (.receive ⟨1⟩ (.appendEntries
          (firstMessage [⟨1, .command [7]⟩, ⟨1, .command [8]⟩]))) =
            some (again, [.send ⟨1⟩ (.appendEntriesResponse ⟨1, true, 2⟩)]) ∧
        again.log = last.log := by
  have hrun : ((new ⟨2⟩ [⟨1⟩, ⟨2⟩, ⟨3⟩] 1 1).toOption.bind (fun follower =>
      (follower.performAll ([firstMessage [⟨1, .command [7]⟩, ⟨1, .command [8]⟩],
        firstMessage [⟨1, .command [7]⟩], firstMessage [⟨1, .command [7]⟩]].map
          (fun request => .receive ⟨1⟩ (.appendEntries request)))).map (fun result =>
            decide (follower.log = [] ∧ result.2[0]? = some
              [.persistHardState 1 none,
                .persistLog 1 [⟨1, .command [7]⟩, ⟨1, .command [8]⟩],
                .send ⟨1⟩ (.appendEntriesResponse ⟨1, true, 2⟩)])))) = some true := by
    decide +kernel
  obtain ⟨follower, hnew, hrun⟩ := Option.bind_eq_some_iff.mp hrun
  obtain ⟨⟨last, batches⟩, hrun, hcheck⟩ := Option.map_eq_some_iff.mp hrun
  obtain ⟨hlog, hbatch⟩ := of_decide_eq_true hcheck
  have hmatches : follower.Matches [⟨1, .command [7]⟩, ⟨1, .command [8]⟩] := by
    have hnone : follower.AgreesTo [⟨1, .command [7]⟩, ⟨1, .command [8]⟩]
        follower.snapshot.lastIncludedIndex := by
      intro position hlow hhigh
      omega
    apply hnone.matches
    unfold lastLogIndex
    rw [hlog]
    exact Nat.le_refl _
  have hfirst := firstMessage_emitted [[7], [8]]
    [⟨1, .command [7]⟩, ⟨1, .command [8]⟩] List.prefix_rfl (by decide +kernel)
  have hsecond : EmittedFrom [⟨1, .command [7]⟩, ⟨1, .command [8]⟩] 1 ⟨1⟩
      (firstMessage [⟨1, .command [7]⟩]) :=
    firstMessage_emitted [[7]] _ (by decide) (by decide +kernel)
  have hall := (stale_entries_never_undo_progress hmatches (by
    simp only [List.forall_mem_cons]
    exact ⟨hfirst, hsecond, hsecond, nofun⟩) hrun).1
  obtain ⟨-, hagrees, hagain⟩ := hall (_, _)
    (List.mem_of_getElem? (i := 0) (by rw [List.getElem?_zip_eq_some]; exact ⟨rfl, hbatch⟩))
    ⟨1, 2, by simp⟩
  exact ⟨follower, last, batches, ok_of_toOption hnew, hrun, hagrees, hagain⟩

end Kurogane.Raft.Node
