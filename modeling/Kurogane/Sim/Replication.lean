import Kurogane.Sim.Elections

/-!
Replication as protocol steps: a follower that accepts entries either holds
them already or adopts the leader's log up to the last of them. The case
analysis of the merge loop is done once, over the full log.
-/

namespace Kurogane.Sim

open Kurogane.Raft Kurogane.Consensus

variable {initial : ClusterConfig} {h : Ghost} {node node' : Node}
  {effects : List Effect}

/-! ### The merge loop over the full log -/

theorem termAt_above {log : List LogEntry} {index : Nat}
    (hlog : node.log = log.drop node.snapshot.lastIncludedIndex)
    (hindex : node.snapshot.lastIncludedIndex ≤ index) :
    node.termAt (index + 1) = log[index]?.map LogEntry.term := by
  unfold Node.termAt Node.entryAt
  rw [if_neg (by omega), if_neg (by omega), if_neg (by omega),
    if_neg (by omega), Node.vecIndex, hlog, List.getElem?_drop,
    show node.snapshot.lastIncludedIndex +
      (index + 1 - node.snapshot.lastIncludedIndex - 1) = index by omega]

/-- Once the loop has written, the remaining entries are appended. -/
theorem mergeEntries_append {entries : List LogEntry} :
    ∀ {current : Node} {before : List LogEntry} (fromIndex : Nat),
      current.log = before.drop current.snapshot.lastIncludedIndex →
      current.snapshot.lastIncludedIndex ≤ before.length →
      current.mergeEntries (some fromIndex) (before.length + 1) entries =
        ({ current with
          log := (before ++ entries).drop
            current.snapshot.lastIncludedIndex }, some fromIndex) := by
  induction entries with
  | nil =>
      intro current before fromIndex hlog hle
      rw [Node.mergeEntries, List.append_nil, ← hlog]
  | cons entry rest ih =>
      intro current before fromIndex hlog hle
      rw [Node.mergeEntries, if_neg (by omega), termAt_above hlog hle,
        List.getElem?_eq_none le_rfl]
      have hpush : (current.push entry).log =
          (before ++ [entry]).drop (current.push entry).snapshot.lastIncludedIndex := by
        have hsnapshot : (current.push entry).snapshot = current.snapshot := rfl
        rw [hsnapshot, List.drop_append_of_le_length hle, ← hlog]
        rfl
      have hrest := ih fromIndex hpush
        (by rw [List.length_append]; exact hle.trans (Nat.le_add_right _ _))
      rw [List.length_append, List.length_singleton] at hrest
      simp only [Option.map_none, Option.getD_some, hrest, List.append_assoc,
        List.singleton_append]
      rfl

/-- The loop over a log that starts with `before`: it changes nothing if all
entries are there, and otherwise leaves exactly `before ++ entries`. Below the
boundary it does not look, above it equal terms must mean equal entries. -/
theorem mergeEntries_log {entries : List LogEntry} :
    ∀ {current : Node} {log before : List LogEntry} (changedFrom : Option Nat),
      current.log = log.drop current.snapshot.lastIncludedIndex →
      before <+: log →
      (∀ first, first <+: entries → before.length + first.length ≤
        current.snapshot.lastIncludedIndex → before ++ first <+: log) →
      (∀ first entry rest, entries = first ++ entry :: rest →
        before ++ first <+: log →
        log[before.length + first.length]?.map LogEntry.term =
          some entry.term → before ++ first ++ [entry] <+: log) →
      (before ++ entries <+: log ∧
        current.mergeEntries changedFrom (before.length + 1) entries =
          (current, changedFrom)) ∨
      (¬ before ++ entries <+: log ∧ ∃ fromIndex,
        current.mergeEntries changedFrom (before.length + 1) entries =
          ({ current with
            log := (before ++ entries).drop
              current.snapshot.lastIncludedIndex }, some fromIndex)) := by
  induction entries with
  | nil =>
      intro current log before changedFrom _ hbefore _ _
      exact Or.inl ⟨by simpa using hbefore, rfl⟩
  | cons entry rest ih =>
      intro current log before changedFrom hlog hbefore hskip hmatch
      have hnext : before ++ [entry] <+: log →
          current.mergeEntries changedFrom (before.length + 1)
            (entry :: rest) =
          current.mergeEntries changedFrom ((before ++ [entry]).length + 1)
            rest →
          (before ++ entry :: rest <+: log ∧
            current.mergeEntries changedFrom (before.length + 1)
              (entry :: rest) = (current, changedFrom)) ∨
          (¬ before ++ entry :: rest <+: log ∧ ∃ fromIndex,
            current.mergeEntries changedFrom (before.length + 1)
              (entry :: rest) =
              ({ current with
                log := (before ++ entry :: rest).drop
                  current.snapshot.lastIncludedIndex }, some fromIndex)) := by
        intro hheld heq
        have hsplit : before ++ entry :: rest =
            before ++ [entry] ++ rest := by simp
        rw [heq, hsplit]
        refine ih changedFrom hlog hheld ?_ ?_
        · intro first hfirst hle
          rw [List.append_assoc]
          refine hskip ([entry] ++ first) ?_ ?_
          · exact (List.prefix_append_right_inj [entry]).mpr hfirst
          · simp only [List.length_append, List.length_singleton] at hle ⊢
            omega
        · intro first e more hrest hfirst hterm
          have hheld' := hmatch ([entry] ++ first) e more
            (by rw [hrest]; rfl) (by simpa using hfirst)
            (by simpa [Nat.add_assoc, Nat.add_comm 1] using hterm)
          simpa using hheld'
      rw [Node.mergeEntries] at hnext ⊢
      by_cases hbelow : before.length + 1 ≤ current.snapshot.lastIncludedIndex
      · rw [if_pos hbelow] at hnext ⊢
        refine hnext (hskip [entry] (by simp) (by simpa using hbelow)) ?_
        rw [List.length_append, List.length_singleton]
      · rw [if_neg hbelow, termAt_above hlog (by omega)] at hnext ⊢
        have hboundary : current.snapshot.lastIncludedIndex ≤ before.length := by
          omega
        have hlength : before.length + 1 = (before ++ [entry]).length := by simp
        -- What the loop leaves once it has replaced or appended `entry`.
        have hwritten : ∀ base : Node, base.snapshot = current.snapshot →
            base = { current with log := base.log } →
            base.log = (before ++ [entry]).drop
              current.snapshot.lastIncludedIndex →
            ∃ fromIndex, base.mergeEntries
                (some (changedFrom.getD (before.length + 1)))
                (before.length + 1 + 1) rest =
              ({ current with
                log := (before ++ entry :: rest).drop
                  current.snapshot.lastIncludedIndex }, some fromIndex) := by
          intro base hsnapshot hbase hbaseLog
          refine ⟨changedFrom.getD (before.length + 1), ?_⟩
          rw [hlength, mergeEntries_append _ (by rw [hsnapshot]; exact hbaseLog)
            (by rw [hsnapshot, List.length_append]; omega), hsnapshot, hbase,
            List.append_assoc]
          rfl
        cases hentry : log[before.length]? with
        | none =>
            have hwhole : log = before := by
              have hle := List.getElem?_eq_none_iff.mp hentry
              exact (hbefore.eq_of_length
                (Nat.le_antisymm hbefore.length_le hle)).symm
            refine Or.inr ⟨?_, ?_⟩
            · intro hheld
              have hle := hheld.length_le
              rw [hwhole, List.length_append, List.length_cons] at hle
              omega
            · simp only [Option.map_none]
              refine hwritten _ rfl rfl ?_
              rw [Node.push, hlog, hwhole, List.drop_append_of_le_length hboundary]
        | some existing =>
            simp only [hentry, Option.map_some] at hnext ⊢
            by_cases hterm : existing.term = entry.term
            · rw [if_pos hterm] at hnext ⊢
              have hheld := hmatch [] entry rest rfl (by simpa using hbefore)
                (by simpa [hentry] using hterm)
              refine hnext (by simpa using hheld) ?_
              rw [List.length_append, List.length_singleton]
            · rw [if_neg hterm]
              refine Or.inr ⟨?_, ?_⟩
              · rintro ⟨tail, htail⟩
                rw [← htail] at hentry
                simp at hentry
                exact hterm (by rw [hentry])
              · refine hwritten _ rfl rfl ?_
                have htake : log.take before.length = before :=
                  (List.prefix_iff_eq_take.mp hbefore).symm
                rw [Node.push, Node.truncate, hlog, Node.vecIndex,
                  List.drop_append_of_le_length hboundary]
                simp only
                rw [show before.length + 1 - current.snapshot.lastIncludedIndex
                  - 1 = before.length - current.snapshot.lastIncludedIndex
                  by omega, ← List.drop_take, htake]

/-! ### Single steps of a node -/

theorem followLeader_simulates (s : h.Sound (membership initial))
    (hrel : NodeRel initial h node) {term : Nat}
    (hterm : node.currentTerm ≤ term) :
    ∃ h', Simulates initial h node (node.followLeader term).2 h'
        (node.followLeader term).1 ∧
      (node.followLeader term).1.currentTerm = term ∧
      (node.followLeader term).1.role ≠ .candidate ∧
      (node.followLeader term).1.snapshot = node.snapshot := by
  unfold Node.followLeader
  by_cases hdown : node.currentTerm < term
  · obtain ⟨h', hstep, hrel', -⟩ := stepDown_rel s hrel hdown
    simp only [hdown, decide_true, ite_true]
    refine ⟨h', .write hrel (.single hstep) ?_ (.hardState rfl rfl), rfl,
      nofun, rfl⟩
    exact ⟨hrel'.durable, hrel'.commit, hrel'.informed, hrel'.config,
      nofun, nofun⟩
  · simp only [hdown, decide_false, Bool.false_eq_true, ite_false]
    by_cases hrole : node.role = .candidate
    · simp only [hrole, ite_true]
      refine ⟨h, .quiet hrel .refl ?_ rfl rfl, by omega, nofun, trivial⟩
      exact ⟨hrel.durable, hrel.commit, fun hrole => absurd rfl hrole,
        hrel.config, nofun, nofun⟩
    · simp only [hrole, ite_false]
      refine ⟨h, .quiet hrel .refl ?_ rfl rfl, by omega, hrole, trivial⟩
      exact ⟨hrel.durable, hrel.commit, hrel.informed, hrel.config,
        hrel.candidate, hrel.leader⟩

/-- Acknowledging part of the leader's log the node holds. -/
theorem ack_rel (s : h.Sound (membership initial))
    (hrel : NodeRel initial h node) {leader : NodeId} (log : List LogEntry)
    (helected : h.Elected node.currentTerm leader)
    (hinit : log <+: h.leaderLog node.currentTerm leader)
    (hheld : log <+: h.log node.id) :
    ∃ h', Simulates initial h node [] h' node ∧
      ∃ a ∈ h'.acks, a.voter = node.id ∧ a.term = node.currentTerm ∧
        a.leader = leader ∧ a.log = log := by
  have hstep := History.Step.ack (R := membership initial) (v := node.id)
    node.currentTerm leader log helected hinit hheld hrel.term.ge
    (by
      intro b hb hvoter hlt
      have hle := s.vote_term b hb
      rw [hvoter, hrel.term] at hle
      omega)
  refine ⟨_, .quiet hrel (.single hstep) (hrel.unmoved hstep.extends
    ⟨rfl, rfl, rfl, fun _ ha _ => ha, fun _ he _ => he, fun _ => rfl⟩) rfl rfl,
    ?_⟩
  exact ⟨_, Set.mem_insert _ _, rfl, rfl, rfl, rfl⟩

/-- Moving the commit index inside what is known to be committed. -/
theorem settle_rel (hrel : NodeRel initial h node) {index : Nat}
    (hlow : node.snapshot.lastIncludedIndex ≤ index)
    (hhigh : index ≤ (h.log node.id).length)
    (hcovered : h.Covered node.currentTerm h.clock
      ((h.log node.id).take index)) :
    ∃ h', Simulates initial h node [] h' { node with commitIndex := index } ∧
      h'.log = h.log := by
  rw [← hrel.term] at hcovered
  have hstep := History.Step.settle (R := membership initial) index hhigh
    hcovered
  have hself : Function.update h.commit node.id index node.id = index :=
    Function.update_self _ _ _
  refine ⟨_, .quiet hrel (.single hstep) ⟨⟨hrel.term, hrel.durable.voted, ?_,
    hrel.durable.log, hrel.durable.snapshotTerm, hrel.durable.snapshotConfig⟩,
    hself, hrel.informed, hrel.config, hrel.candidate, fun hrole => ?_⟩
    rfl rfl, rfl⟩
  · exact hlow.trans_eq hself.symm
  · obtain ⟨helected, hlog, hnext, hmatched⟩ := hrel.leader hrole
    exact ⟨helected, hlog, hnext, fun peer count hcount =>
      (hmatched peer count hcount).extends hstep.extends rfl⟩

/-- Replacing the log by a part of the leader's that is not held yet. The
committed part survives, so a boundary inside it may move along. -/
theorem adopt_rel (s : h.Sound (membership initial))
    (hrel : NodeRel initial h node) (hrole : node.role ≠ .candidate)
    {leader : NodeId} {log : List LogEntry}
    (helected : h.Elected node.currentTerm leader)
    (hinit : log <+: h.leaderLog node.currentTerm leader)
    (hnot : ¬ log <+: h.log node.id) :
    ∃ h', History.Step (membership initial) node.id h h' ∧
      h'.log node.id = log ∧ (h.log node.id).take node.commitIndex <+: log ∧
      NodeRel initial h' { node with
        log := log.drop node.snapshot.lastIncludedIndex }.recomputeConfig := by
  rw [← hrel.term] at helected hinit
  have hstep := History.Step.adopt (R := membership initial) leader log
    helected hinit hnot
  have hself : Function.update h.log node.id log node.id = log :=
    Function.update_self _ _ _
  have hkept : (h.log node.id).take node.commitIndex <+: log :=
    s.adopt_keeps_covered helected hinit hnot hrel.term.ge
      (hrel.committed_covered s) (List.take_prefix _ _)
  have hboundary : log.take node.snapshot.lastIncludedIndex =
      (h.log node.id).take node.snapshot.lastIncludedIndex := by
    have hle := hrel.boundary_le_commit
    have hlength := hrel.commit_le_length s
    have htake := (List.prefix_iff_eq_take.mp hkept)
    rw [List.length_take, Nat.min_eq_left hlength] at htake
    have hshort := congrArg
      (List.take node.snapshot.lastIncludedIndex) htake
    rw [List.take_take, List.take_take, Nat.min_eq_left hle] at hshort
    exact hshort.symm
  have hleader : node.role ≠ .leader := by
    -- A leader of this term would hold its own log already.
    intro hleading
    obtain ⟨hown, hlog, -⟩ := hrel.leader hleading
    rw [← hrel.term] at hown hlog
    have hsame := congrArg (h.leaderLog (h.term node.id))
      (s.elected_unique hown helected)
    rw [hlog, hsame] at hnot
    exact hnot hinit
  refine ⟨_, hstep, hself, hkept, ⟨⟨hrel.term, hrel.durable.voted,
    hrel.durable.boundary, ?_, ?_, ?_⟩, hrel.commit, fun hactive => ?_, rfl,
    fun hcandidate => absurd hcandidate hrole,
    fun hleading => absurd hleading hleader⟩⟩
  · exact congrArg (List.drop _) hself.symm
  · refine hrel.snapshotTerm.trans (congrArg _ ?_)
    exact hboundary.symm.trans (congrArg _ hself.symm)
  · intro hpos
    refine (hrel.durable.snapshotConfig hpos).trans (congrArg _ ?_)
    exact hboundary.symm.trans (congrArg _ hself.symm)
  · have hactive : node.role ≠ .follower := hactive
    cases hnode : node.role with
    | follower => exact absurd hnode hactive
    | candidate => exact absurd hnode hrole
    | leader => exact absurd hnode hleader

/-! ### Accepting entries -/

/-- A node that reports the right term for the end of a part of the leader's
log holds all of it. -/
theorem held_of_termAt (s : h.Sound (membership initial))
    (hrel : NodeRel initial h node) {leader : NodeId} {before : List LogEntry}
    (helected : h.Elected node.currentTerm leader)
    (hinit : before <+: h.leaderLog node.currentTerm leader)
    (hheld : node.termAt before.length =
      some ((membership initial).lastTerm before)) :
    before <+: h.log node.id := by
  obtain ⟨-, -, hhigh, hlast⟩ := hrel.termAt_some s hheld
  have hbacked := s.leader_backed helected hinit
  have hown := (s.backed_prefix (s.node_backed node.id)
    (List.take_prefix before.length (h.log node.id))).1
  rw [s.backed_unique hbacked hown
    (by rw [List.length_take, Nat.min_eq_left hhigh]) hlast.symm]
  exact List.take_prefix _ _

/-- A satisfied check of the previous entry means the whole log up to it is
the leader's. -/
theorem prevLog_prefix (s : h.Sound (membership initial))
    (hrel : NodeRel initial h node) {request : AppendEntries}
    {before log : List LogEntry}
    (helected : h.Elected node.currentTerm request.leaderId)
    (hlog : log <+: h.leaderLog node.currentTerm request.leaderId)
    (hbefore : before <+: log)
    (hlength : before.length = request.prevLogIndex)
    (hterm : (membership initial).lastTerm before = request.prevLogTerm)
    (hprev : node.prevLogSatisfied request = true) :
    before <+: h.log node.id := by
  simp only [Node.prevLogSatisfied, Bool.or_eq_true, decide_eq_true_eq] at hprev
  rcases hprev with hbelow | hheld
  · have hcovered := s.covered_in_leader (hrel.snapshot_covered s) le_rfl helected
    refine (List.prefix_of_prefix_length_le (hbefore.trans hlog) hcovered
      ?_).trans (List.take_prefix _ _)
    rw [List.length_take, Nat.min_eq_left (hrel.boundary_le_length s), hlength]
    exact hbelow
  · rw [← hlength, ← hterm] at hheld
    exact held_of_termAt s hrel helected (hbefore.trans hlog) hheld

/-- Equal terms at equal positions of the own log and of a part of the
leader's mean equal logs up to there. -/
theorem matching_prefix (s : h.Sound (membership initial))
    {id leader : NodeId} {term : Nat} {first : List LogEntry}
    {entry : LogEntry} (helected : h.Elected term leader)
    (hlog : first ++ [entry] <+: h.leaderLog term leader)
    (hterm : (h.log id)[first.length]?.map LogEntry.term =
      some entry.term) : first ++ [entry] <+: h.log id := by
  obtain ⟨own, hown, hownTerm⟩ := Option.map_eq_some_iff.mp hterm
  have hlt := (List.getElem?_eq_some_iff.mp hown).1
  have hbacked := s.leader_backed helected hlog
  have hbacked' := (s.backed_prefix (s.node_backed id)
    (List.take_prefix (first.length + 1) (h.log id))).1
  rw [s.backed_unique hbacked hbacked'
    (by rw [List.length_take, Nat.min_eq_left hlt]; simp)
    (by
      rw [Rules.lastTerm_concat, lastTerm_take_succ initial _ hown, hownTerm]
      rfl)]
  exact List.take_prefix _ _

/-- What a merge does to a node: nothing, or the log becomes the leader's up
to the last entry received. -/
theorem merge_simulates (s : h.Sound (membership initial))
    (hrel : NodeRel initial h node) (hrole : node.role ≠ .candidate)
    {request : AppendEntries} {before : List LogEntry}
    (helected : h.Elected node.currentTerm request.leaderId)
    (hinit : before ++ request.entries <+:
      h.leaderLog node.currentTerm request.leaderId)
    (hlength : before.length = request.prevLogIndex)
    (hterm : (membership initial).lastTerm before = request.prevLogTerm)
    (hprev : node.prevLogSatisfied request = true)
    {merged : Node} {changed : Option Nat}
    (hmerge : node.mergeEntries none (request.prevLogIndex + 1)
      request.entries = (merged, changed)) :
    ∃ h', (∀ persistLog, Persists node persistLog merged →
        (changed = none → persistLog = []) →
        (changed.isSome → ∃ effect, persistLog = [effect]) →
        Simulates initial h node persistLog h'
          (if changed.isSome then merged.recomputeConfig else merged)) ∧
      before ++ request.entries <+: h'.log node.id ∧
      History.Extends h h' ∧
      merged.snapshot = node.snapshot ∧
      merged.currentTerm = node.currentTerm ∧
      merged.commitIndex = node.commitIndex := by
  have hbefore := prevLog_prefix s hrel helected hinit
    (List.prefix_append _ _) hlength hterm hprev
  have hcovered := s.covered_in_leader (hrel.snapshot_covered s) le_rfl helected
  have hboundary := hrel.boundary_le_length s
  rw [← hlength] at hmerge
  rcases mergeEntries_log none hrel.log hbefore
    (by
      intro first hfirst hle
      have hpart : before ++ first <+:
          h.leaderLog node.currentTerm request.leaderId :=
        ((List.prefix_append_right_inj before).mpr hfirst).trans hinit
      refine (List.prefix_of_prefix_length_le hpart hcovered ?_).trans
        (List.take_prefix _ _)
      rw [List.length_take, Nat.min_eq_left hboundary, List.length_append]
      exact hle)
    (by
      intro first entry rest hentries hfirst hterm
      refine matching_prefix s helected ?_ (by simpa using hterm)
      refine List.IsPrefix.trans ?_ hinit
      rw [hentries]
      exact ⟨rest, by simp⟩) with ⟨hheld, hresult⟩ | ⟨hnot, fromIndex, hresult⟩
  · rw [hmerge] at hresult
    cases hresult
    refine ⟨h, ?_, hheld, .refl h, rfl, rfl, rfl⟩
    intro persistLog _ hnone _
    rw [hnone rfl]
    exact .refl hrel
  · rw [hmerge] at hresult
    cases hresult
    obtain ⟨h', hstep, hlog, -, hrel'⟩ := adopt_rel s hrel hrole helected
      hinit hnot
    refine ⟨h', ?_, hlog ▸ List.prefix_refl _, hstep.extends, rfl, rfl, rfl⟩
    intro persistLog hpersists _ hsome
    obtain ⟨effect, rfl⟩ := hsome rfl
    exact .write hrel (.single hstep) hrel' (hpersists.then_volatile rfl rfl)

theorem onAppendEntries_simulates (s : h.Sound (membership initial))
    (hrel : NodeRel initial h node) {sender : NodeId} {request : AppendEntries}
    (hmessage : MessageRel initial h sender node.id (.appendEntries request))
    (hleader : request.leaderId = sender)
    (hstep : node.onAppendEntries sender request = some (node', effects)) :
    ∃ h', Simulates initial h node effects h' node' := by
  have hrejected : ∀ (h : Ghost) (n : Node), MessageRel initial h n.id sender
      (.appendEntriesResponse
        { term := n.currentTerm, success := false, matchIndex := 0 }) := by
    intro h n hsuccess
    cases hsuccess
  unfold Node.onAppendEntries at hstep
  split at hstep
  · cases hstep
    exact ⟨h, (Simulates.refl hrel).reply (hrejected h node)⟩
  rename_i hcurrent
  obtain ⟨h₁, hfollow, hterm₁, hrole₁, -⟩ := followLeader_simulates s hrel
    (Nat.le_of_not_lt hcurrent)
  have ext₁ := hfollow.steps.extends
  have s₁ := hfollow.steps.sound s
  have hid₁ := hfollow.id
  generalize node.followLeader request.term = followed at *
  obtain ⟨follower, persistTerm⟩ := followed
  dsimp only at *
  have hrel₁ := hfollow.rel
  split at hstep
  · cases hstep
    exact ⟨h₁, hfollow.reply (hrejected h₁ _)⟩
  rename_i hprev
  have hprev : follower.prevLogSatisfied request = true := by simpa using hprev
  generalize hmerge : follower.mergeEntries none (request.prevLogIndex + 1)
    request.entries = result at hstep
  obtain ⟨merged, changed⟩ := result
  dsimp only at hstep
  obtain ⟨persistLog, hpersist, hstep⟩ := Option.bind_eq_some_iff.mp hstep
  cases hstep
  obtain ⟨helected, before, hinit, hlength, hlast, hcommitLe, hcommitted⟩ :=
    hmessage.extends ext₁
  rw [← hterm₁] at helected hinit hcommitted
  obtain ⟨h₂, hsim₂, hheld, ext₂, hsnapshot, hterm₂, hcommit₂⟩ :=
    merge_simulates s₁ hrel₁ hrole₁ helected hinit hlength hlast hprev hmerge
  generalize hnode₂ : (if changed.isSome then merged.recomputeConfig
    else merged) = node₂ at *
  have hfields : node₂.log = merged.log ∧ node₂.snapshot = merged.snapshot ∧
      node₂.currentTerm = merged.currentTerm ∧
      node₂.commitIndex = merged.commitIndex := by
    rw [← hnode₂]
    split <;> exact ⟨rfl, rfl, rfl, rfl⟩
  have hpersists := Node.persistChanged_persists
    (Nat.succ_le_succ (Node.prevLogSatisfied_le hprev)) hmerge
    (by rw [Node.followCommit_log, hfields.1])
    (by rw [Node.followCommit_snapshot, hfields.2.1, hsnapshot]) hpersist
  have hsim := hfollow.append (hsim₂ persistLog hpersists
    (by
      rintro rfl
      exact (Option.some.inj hpersist).symm)
    (by
      intro hsome
      obtain ⟨fromIndex, rfl⟩ := Option.isSome_iff_exists.mp hsome
      obtain ⟨entries, -, hpersist⟩ := Option.bind_eq_some_iff.mp hpersist
      exact ⟨_, (Option.some.inj hpersist).symm⟩))
  have hrel₂ := hsim.rel
  have s₂ := hsim.steps.sound s
  have hid₂ : node₂.id = follower.id := hsim.id.trans hid₁.symm
  rw [← hid₂] at hheld
  have hterm : node₂.currentTerm = follower.currentTerm :=
    hfields.2.2.1.trans hterm₂
  have helected₂ : h₂.Elected node₂.currentTerm request.leaderId := by
    rw [hterm]
    exact ext₂.elected helected
  have hinit₂ : before ++ request.entries <+:
      h₂.leaderLog node₂.currentTerm request.leaderId := by
    rw [hterm]
    exact hinit.trans (ext₂.leaderLog _ _ helected)
  -- The commit index follows, inside what the request says is committed.
  obtain ⟨h₃, hsim₃, hlog₃⟩ : ∃ h₃, Simulates initial h₂ node₂ [] h₃
      (node₂.followCommit request.leaderCommit) ∧ h₃.log = h₂.log := by
    unfold Node.followCommit
    split
    · rename_i hbehind
      have hlt : request.leaderCommit ≤ node₂.lastLogIndex := by
        rw [hrel₂.lastLogIndex s₂]
        exact hcommitLe.trans hheld.length_le
      rw [Nat.min_eq_left hlt]
      refine settle_rel hrel₂ ?_ ?_ ?_
      · exact hrel₂.boundary_le_commit.trans hbehind.le
      · rw [← hrel₂.lastLogIndex s₂]
        exact hlt
      · rw [hterm]
        have htake : (h₂.log node₂.id).take request.leaderCommit =
            (before ++ request.entries).take request.leaderCommit := by
          obtain ⟨rest, hrest⟩ := hheld
          rw [← hrest, List.take_append_of_le_length hcommitLe]
        rw [htake]
        exact ext₂.covered hcommitted le_rfl ext₂.clock
    · exact ⟨h₂, .refl hrel₂, rfl⟩
  have hterm₃ : (node₂.followCommit request.leaderCommit).currentTerm =
      node₂.currentTerm := by
    unfold Node.followCommit
    split <;> rfl
  have ext₃ := hsim₃.steps.extends
  have s₃ := hsim₃.steps.sound s₂
  obtain ⟨h₄, hsim₄, a, ha, havoter, haterm, haleader, halog⟩ :=
    ack_rel s₃ hsim₃.rel (before ++ request.entries)
      (by rw [hterm₃]; exact ext₃.elected helected₂)
      (by rw [hterm₃]; exact hinit₂.trans (ext₃.leaderLog _ _ helected₂))
      (by rw [hlog₃, hsim₃.id]; exact hheld)
  have hwhole := (hsim.append hsim₃).append hsim₄
  simp only [List.append_nil] at hwhole
  refine ⟨h₄, hwhole.reply (fun _ => ⟨a, ha, havoter, haterm, ?_, ?_⟩)⟩
  · exact haleader.trans hleader
  · rw [halog, List.length_append, hlength]

end Kurogane.Sim
