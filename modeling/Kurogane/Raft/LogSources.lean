import Kurogane.Raft.Emissions
import Kurogane.Raft.Merging
import Kurogane.Raft.Replicating

/-!
Where the entries of a log come from. All that a batch stores or sends of a log
and its snapshot is what the node holds once the request has been served. And
what it holds then, it held before, was sent, or has appended itself.
-/

namespace Kurogane.Raft

/-- The message carries `entry` for the place `index` of a log. -/
def Message.Shows (index : Nat) (entry : LogEntry) : Message → Prop
  | .appendEntries request => request.prevLogIndex < index ∧
      request.entries[index - request.prevLogIndex - 1]? = some entry
  | _ => False

/-- The message brings the configuration of a snapshot that ends at `index`. -/
def Message.Rests (index : Nat) (config : ClusterConfig) : Message → Prop
  | .installSnapshot request =>
      request.lastIncludedIndex = index ∧ request.config = config
  | _ => False

/-- The effect stores or sends `entry` for the place `index` of the log. -/
def Effect.Shows (index : Nat) (entry : LogEntry) : Effect → Prop
  | .persistLog fromIndex entries =>
      fromIndex ≤ index ∧ entries[index - fromIndex]? = some entry
  | .send _ message => message.Shows index entry
  | _ => False

/-- The effect stores or sends a snapshot that ends at `index`. -/
def Effect.Rests (index : Nat) (config : ClusterConfig) : Effect → Prop
  | .persistSnapshot lastIncludedIndex _ _ found =>
      lastIncludedIndex = index ∧ found = config
  | .send _ message => message.Rests index config
  | _ => False

/-- What the effect shows of a log, or of a snapshot, is what `node` holds. -/
structure Effect.HeldBy (node : Node) (effect : Effect) : Prop where
  entries : ∀ index entry, effect.Shows index entry → node.entryAt index = some entry
  base : ∀ index config, effect.Rests index config →
    index = node.snapshot.lastIncludedIndex ∧ config = node.snapshotConfig

namespace Effect.HeldBy

variable {node node' : Node} {effect : Effect} {effects : List Effect}

/-- An effect without entries and snapshot shows nothing. -/
theorem of_none (hentries : ∀ index entry, ¬ effect.Shows index entry)
    (hbase : ∀ index config, ¬ effect.Rests index config) : effect.HeldBy node :=
  ⟨fun index entry h => absurd h (hentries index entry),
    fun index config h => absurd h (hbase index config)⟩

theorem persistHardState (other : Node) : other.persistHardState.HeldBy node :=
  of_none (fun _ _ h => h) (fun _ _ h => h)

theorem persistHardStates (other : Node) (due : Bool) :
    ∀ effect ∈ if due then [other.persistHardState] else [], effect.HeldBy node := by
  cases due with
  | true => exact List.forall_mem_singleton.mpr (.persistHardState other)
  | false => simp

theorem voteReply (other : Node) (sender : NodeId) (granted : Bool) :
    (other.voteReply sender granted).HeldBy node :=
  of_none (fun _ _ h => h) (fun _ _ h => h)

theorem appendReply (other : Node) (sender : NodeId) (success : Bool) (index : Nat) :
    (other.appendReply sender success index).HeldBy node :=
  of_none (fun _ _ h => h) (fun _ _ h => h)

theorem snapshotReply (other : Node) (sender : NodeId) (index : Nat) :
    (other.snapshotReply sender index).HeldBy node :=
  of_none (fun _ _ h => h) (fun _ _ h => h)

end Effect.HeldBy

namespace Appends

variable {node node' : Node} {added : List LogEntry}

/-- A node that has appended holds what it held before. -/
theorem entryAt_old (h : Appends node added node') {index : Nat} {entry : LogEntry}
    (hentry : node.entryAt index = some entry) : node'.entryAt index = some entry := by
  unfold Node.entryAt Node.vecIndex at hentry ⊢
  rw [h.snapshot]
  split at hentry
  · cases hentry
  · rename_i habove
    rw [if_neg habove, h.log,
      List.getElem?_append_left (List.getElem?_eq_some_iff.mp hentry).1]
    exact hentry

/-- Up to the old end it holds nothing else. -/
theorem entryAt_inside (h : Appends node added node') {index : Nat} {entry : LogEntry}
    (hindex : index ≤ node.lastLogIndex) (hentry : node'.entryAt index = some entry) :
    node.entryAt index = some entry := by
  unfold Node.entryAt Node.vecIndex at hentry ⊢
  rw [h.snapshot] at hentry
  unfold Node.lastLogIndex at hindex
  split at hentry
  · cases hentry
  · rename_i habove
    rw [if_neg habove]
    rw [h.log, List.getElem?_append_left (by omega)] at hentry
    exact hentry

/-- What a batch showed before the node appended, it holds afterwards. -/
theorem held (h : Appends node added node') {effect : Effect}
    (heffect : effect.HeldBy node) : effect.HeldBy node' :=
  ⟨fun index entry hshows => h.entryAt_old (heffect.entries index entry hshows),
    fun index config hrests => by
      rw [h.snapshot, h.snapshotConfig]
      exact heffect.base index config hrests⟩

theorem held_all (h : Appends node added node') {effects : List Effect}
    (heffects : ∀ effect ∈ effects, effect.HeldBy node) :
    ∀ effect ∈ effects, effect.HeldBy node' :=
  fun effect hmem => h.held (heffects effect hmem)

end Appends

namespace Node

variable {node node' : Node} {effects : List Effect}

/-! ### Messages to peers -/

/-- The entries from an index above the boundary on are where the log has them. -/
theorem entryAt_of_entriesFrom {fromIndex index : Nat} {entries : List LogEntry}
    {entry : LogEntry} (hlow : node.snapshot.lastIncludedIndex < fromIndex)
    (hentries : node.entriesFrom fromIndex = some entries) (hindex : fromIndex ≤ index)
    (hentry : entries[index - fromIndex]? = some entry) :
    node.entryAt index = some entry := by
  simp only [entriesFrom, Option.ite_none_right_eq_some] at hentries
  rw [← Option.some.inj hentries.2, List.getElem?_drop] at hentry
  rw [entryAt, if_neg (by omega), ← hentry]
  congr 1
  unfold vecIndex
  omega

theorem replicateTo_held {peer : NodeId} {effect : Effect}
    (h : node.replicateTo peer = some effect) : effect.HeldBy node := by
  unfold replicateTo at h
  obtain ⟨nextIndex, -, h⟩ := Option.bind_eq_some_iff.mp h
  split at h
  · cases h
    refine ⟨fun index entry hshows => hshows.elim, fun index config hrests => ?_⟩
    exact ⟨hrests.1.symm, hrests.2.symm⟩
  · rename_i habove
    obtain ⟨entries, hentries, h⟩ := Option.bind_eq_some_iff.mp h
    cases h
    refine ⟨fun index entry hshows => ?_, fun index config hrests => hrests.elim⟩
    obtain ⟨hindex, hentry⟩ := hshows
    dsimp only at hindex hentry
    refine entryAt_of_entriesFrom (by omega) hentries (by omega) ?_
    rw [← hentry]
    congr 1
    omega

theorem broadcastReplication_held (h : node.broadcastReplication = some effects) :
    ∀ effect ∈ effects, effect.HeldBy node := by
  intro effect hmem
  obtain ⟨peer, -, hsend⟩ := mem_broadcastReplication h hmem
  exact replicateTo_held hsend

theorem continueReplication_held {peer : NodeId}
    (h : node.continueReplication peer = some effects) :
    ∀ effect ∈ effects, effect.HeldBy node := by
  unfold continueReplication at h
  split at h
  · obtain ⟨nextIndex, -, h⟩ := Option.bind_eq_some_iff.mp h
    split at h
    · obtain ⟨effect, heffect, h⟩ := Option.bind_eq_some_iff.mp h
      cases h
      exact List.forall_mem_singleton.mpr (replicateTo_held heffect)
    · cases h
      simp
  · cases h
    simp

theorem requestVotes_held (other : Node) :
    ∀ effect ∈ other.requestVotes, effect.HeldBy node := by
  intro effect hmem
  obtain ⟨peer, -, rfl⟩ := List.mem_map.mp hmem
  exact .of_none (fun _ _ h => h) (fun _ _ h => h)

theorem becomeLeader_held (h : node.becomeLeader = some (node', effects)) :
    ∀ effect ∈ effects, effect.HeldBy node' := by
  obtain ⟨sends, hsends, h⟩ := Option.bind_eq_some_iff.mp h
  cases h
  exact broadcastReplication_held hsends

theorem onTick_held {nextTimeout : Nat}
    (h : node.onTick nextTimeout = some (node', effects)) :
    ∀ effect ∈ effects, effect.HeldBy node' := by
  unfold onTick at h
  split at h
  · unfold onLeaderTick at h
    dsimp only at h
    split at h
    · cases h
      simp
    · obtain ⟨sends, hsends, h⟩ := Option.bind_eq_some_iff.mp h
      cases h
      exact broadcastReplication_held hsends
  · dsimp only at h
    split at h
    · cases h
      simp
    unfold startElection at h
    split at h
    · cases h
      simp
    dsimp only at h
    split at h
    · obtain ⟨⟨leader, sends⟩, hleader, h⟩ := Option.bind_eq_some_iff.mp h
      cases h
      exact List.forall_mem_cons.mpr ⟨.persistHardState _, becomeLeader_held hleader⟩
    · cases h
      exact List.forall_mem_cons.mpr ⟨.persistHardState _, requestVotes_held _⟩

theorem onRequestVote_held (owner : Node) {sender : NodeId} {request : RequestVote}
    (h : node.onRequestVote sender request = some (node', effects)) :
    ∀ effect ∈ effects, effect.HeldBy owner := by
  unfold onRequestVote at h
  split at h
  · cases h
    exact List.forall_mem_singleton.mpr (.voteReply _ _ _)
  split at h
  · cases h
    exact List.forall_mem_singleton.mpr (.voteReply _ _ _)
  split at h
  · cases h
    exact List.forall_mem_singleton.mpr (.voteReply _ _ _)
  rw [← (Prod.mk.inj (Option.some.inj h)).2]
  exact List.forall_mem_append.mpr ⟨.persistHardStates _ _,
    List.forall_mem_singleton.mpr (.voteReply _ _ _)⟩

theorem onRequestVoteResponse_held {sender : NodeId} {response : RequestVoteResponse}
    (h : node.onRequestVoteResponse sender response = some (node', effects)) :
    ∀ effect ∈ effects, effect.HeldBy node' := by
  unfold onRequestVoteResponse at h
  split at h
  · cases h
    exact List.forall_mem_singleton.mpr (.persistHardState _)
  split at h
  · cases h
    simp
  split at h
  · dsimp only at h
    split at h
    · exact becomeLeader_held h
    · cases h
      simp
  · cases h
    simp

/-! ### What a leader appends -/

/-- The plain configuration that ends a transition of `node`. -/
def PlainOf (node : Node) (entry : LogEntry) : Prop :=
  entry = ⟨node.currentTerm, .configuration ⟨node.currentConfig.voters, none⟩⟩

/-- Advancing the commit index appends nothing but the plain follow-up. -/
theorem advanceCommitIndex_added
    (h : node.advanceCommitIndex = some (node', effects)) :
    (∃ added, Appends node added node' ∧ ∀ entry ∈ added, node.PlainOf entry) ∧
      ∀ effect ∈ effects, effect.HeldBy node' := by
  obtain ⟨candidate, -, ⟨-, rfl, rfl⟩ | ⟨-, last, rest, hrest, rfl, rfl⟩⟩ :=
    advanceCommitIndex_cases h
  · exact ⟨⟨[], (node.commitTo_appends candidate).trans (retireIfExcluded_appends _),
      by simp⟩, by simp⟩
  obtain ⟨candidate', -, rfl, rfl⟩ := advanceCommitIndex_plain
    (by rw [recomputeConfig_push_followUp]) hrest
  have hcommit := node.commitTo_appends candidate
  have hfollowUp : node.PlainOf (node.commitTo candidate).followUp := by
    unfold PlainOf followUp
    rw [commitTo_currentConfig]
    unfold commitTo
    split <;> rfl
  generalize node.commitTo candidate = joint at *
  have hpush := joint.push_appends joint.followUp
  have hlater : Appends (joint.push joint.followUp).recomputeConfig []
      ((joint.push joint.followUp).recomputeConfig.commitTo
        candidate').retireIfExcluded.retireIfExcluded :=
    ((commitTo_appends _ _).trans (retireIfExcluded_appends _)).trans
      (retireIfExcluded_appends _)
  have hindex : (joint.push joint.followUp).recomputeConfig.lastLogIndex =
      joint.lastLogIndex + 1 := by
    simp [lastLogIndex, recomputeConfig, push, Nat.add_assoc]
  refine ⟨⟨[joint.followUp], (hcommit.trans hpush).trans hlater, ?_⟩, ?_⟩
  · exact List.forall_mem_singleton.mpr hfollowUp
  · refine List.forall_mem_singleton.mpr (hlater.held ⟨fun index entry hshows => ?_,
      fun index config hrests => hrests.elim⟩)
    obtain ⟨hle, hentry⟩ := hshows
    obtain ⟨hlt, hsame⟩ := List.getElem?_eq_some_iff.mp hentry
    rw [List.length_singleton] at hlt
    rw [List.getElem_singleton] at hsame
    rw [hindex] at hle hlt
    obtain rfl : index = joint.lastLogIndex + 1 := by omega
    rw [← hsame]
    exact hpush.entryAt_first

/-- An entry of its own and at most the plain follow-up of what is then in
force. -/
theorem appendOwn_added {entry : LogEntry} {index : Nat}
    (h : node.appendOwn entry = some (node', index, effects)) :
    (∃ more, Appends node (entry :: more) node' ∧
      ∀ added ∈ more, (node.push entry).recomputeConfig.PlainOf added) ∧
      ∀ effect ∈ effects, effect.HeldBy node' := by
  obtain ⟨⟨last, rest⟩, hadvance, h⟩ := Option.bind_eq_some_iff.mp h
  cases h
  obtain ⟨⟨more, hmore, hplain⟩, hheld⟩ := advanceCommitIndex_added hadvance
  have hpush := node.push_appends entry
  have hindex : (node.push entry).recomputeConfig.lastLogIndex = node.lastLogIndex + 1 := by
    simp [lastLogIndex, recomputeConfig, push, Nat.add_assoc]
  refine ⟨⟨more, hpush.trans hmore, hplain⟩, ?_⟩
  refine List.forall_mem_cons.mpr ⟨hmore.held ⟨fun index found hshows => ?_,
    fun index config hrests => hrests.elim⟩, hheld⟩
  obtain ⟨hle, hentry⟩ := hshows
  obtain ⟨hlt, hsame⟩ := List.getElem?_eq_some_iff.mp hentry
  rw [List.length_singleton] at hlt
  rw [List.getElem_singleton] at hsame
  rw [hindex] at hle hlt
  obtain rfl : index = node.lastLogIndex + 1 := by omega
  rw [← hsame]
  exact hpush.entryAt_first

/-! ### What a message brings -/

theorem followLeader_held (owner : Node) (term : Nat) :
    ∀ effect ∈ (node.followLeader term).2, effect.HeldBy owner :=
  Effect.HeldBy.persistHardStates _ _

/-- What is taken over of a message is stored where the log has it. -/
theorem adopt_held {fromIndex : Nat} {rest : List LogEntry}
    (hlow : node.snapshot.lastIncludedIndex < fromIndex)
    (hhigh : fromIndex ≤ node.lastLogIndex + 1) :
    (Effect.persistLog fromIndex rest).HeldBy (node.adopt (some (fromIndex, rest))) := by
  refine ⟨fun index entry hshows => ?_, fun index config hrests => hrests.elim⟩
  obtain ⟨hle, hentry⟩ := hshows
  rw [adopt_entryAt hlow hhigh (by omega), if_neg (Nat.not_lt.mpr hle)]
  exact hentry

/-- An accepted message leaves what was held and what it carries, and nothing
else. -/
theorem adopt_sources {request : AppendEntries} {index : Nat} {entry : LogEntry}
    (hprev : request.prevLogIndex ≤ node.lastLogIndex)
    (hentry : (node.adopt (node.firstNew (request.prevLogIndex + 1)
      request.entries)).entryAt index = some entry) :
    node.entryAt index = some entry ∨
      (Message.appendEntries request).Shows index entry := by
  cases hnew : node.firstNew (request.prevLogIndex + 1) request.entries with
  | none =>
      rw [hnew] at hentry
      exact Or.inl hentry
  | some found =>
      obtain ⟨fromIndex, rest⟩ := found
      rw [hnew] at hentry
      obtain ⟨hlow, hle, hhigh, hsplit, hcount⟩ :=
        firstNew_range (Nat.succ_le_succ hprev) hnew
      have habove := (entryAt_range hentry).1
      rw [adopt_snapshot] at habove
      rw [adopt_entryAt hlow hhigh habove] at hentry
      split at hentry
      · exact Or.inl hentry
      · rename_i hbeyond
        have hlength : (request.entries.take
            (fromIndex - (request.prevLogIndex + 1))).length =
              fromIndex - (request.prevLogIndex + 1) := by
          apply List.length_take_of_le
          have hlt := (List.getElem?_eq_some_iff.mp hentry).1
          omega
        refine Or.inr ⟨by omega, ?_⟩
        rw [hsplit, List.getElem?_append_right (by rw [hlength]; omega), hlength, ← hentry]
        congr 1
        omega

theorem onAppendEntries_held {sender : NodeId} {request : AppendEntries}
    (h : node.onAppendEntries sender request = some (node', effects)) :
    ∀ effect ∈ effects, effect.HeldBy node' := by
  rcases Nat.lt_or_ge request.term node.currentTerm with hstale | hterm
  · rw [onAppendEntries_stale hstale] at h
    cases h
    exact List.forall_mem_singleton.mpr (.appendReply _ _ _ _)
  cases hprev : node.prevLogSatisfied request with
  | false =>
      rw [onAppendEntries_rejects hterm hprev] at h
      cases h
      exact List.forall_mem_append.mpr ⟨followLeader_held _ _,
        List.forall_mem_singleton.mpr (.appendReply _ _ _ _)⟩
  | true =>
      rw [onAppendEntries_accepts hterm hprev] at h
      cases h
      obtain ⟨hlog, hsnapshot, -⟩ := node.followLeader_log request.term
      refine List.forall_mem_append.mpr ⟨List.forall_mem_append.mpr
        ⟨followLeader_held _ _, ?_⟩, List.forall_mem_singleton.mpr (.appendReply _ _ _ _)⟩
      apply (followCommit_appends _ _).held_all
      cases hnew : node.firstNew (request.prevLogIndex + 1) request.entries with
      | none => simp [adoptEffects]
      | some found =>
          obtain ⟨fromIndex, rest⟩ := found
          obtain ⟨hlow, -, hhigh, -⟩ :=
            firstNew_range (Nat.succ_le_succ (prevLogSatisfied_le hprev)) hnew
          refine List.forall_mem_singleton.mpr (adopt_held ?_ ?_)
          · rw [hsnapshot]
            exact hlow
          · unfold lastLogIndex at hhigh ⊢
            rw [hlog, hsnapshot]
            exact hhigh

theorem onAppendEntries_sources {sender : NodeId} {request : AppendEntries}
    {index : Nat} {entry : LogEntry}
    (h : node.onAppendEntries sender request = some (node', effects))
    (hentry : node'.entryAt index = some entry) :
    node.entryAt index = some entry ∨
      (Message.appendEntries request).Shows index entry := by
  have hfollow := node.followLeader_appends request.term
  have hfollowed : ∀ {entry}, (node.followLeader request.term).1.entryAt index =
      some entry → node.entryAt index = some entry := by
    intro entry hheld
    apply hfollow.entryAt_inside _ hheld
    have hinside := (entryAt_range hheld).2
    unfold lastLogIndex at hinside ⊢
    rw [hfollow.snapshot, hfollow.log, List.append_nil] at hinside
    exact hinside
  rcases Nat.lt_or_ge request.term node.currentTerm with hstale | hterm
  · rw [onAppendEntries_stale hstale] at h
    cases h
    exact Or.inl hentry
  cases hprev : node.prevLogSatisfied request with
  | false =>
      rw [onAppendEntries_rejects hterm hprev] at h
      cases h
      exact Or.inl (hfollowed hentry)
  | true =>
      rw [onAppendEntries_accepts hterm hprev] at h
      cases h
      have hlast : (node.followLeader request.term).1.lastLogIndex = node.lastLogIndex := by
        unfold lastLogIndex
        rw [hfollow.snapshot, hfollow.log, List.append_nil]
      obtain ⟨hlog, hsnapshot, -⟩ := node.followLeader_log request.term
      rw [← firstNew_congr hlog hsnapshot] at hentry
      have hcommit := ((node.followLeader request.term).1.adopt
        ((node.followLeader request.term).1.firstNew (request.prevLogIndex + 1)
          request.entries)).followCommit_appends request.leaderCommit
      have hinside := (entryAt_range hentry).2
      have hadopted := hcommit.entryAt_inside (by
        unfold lastLogIndex at hinside ⊢
        rw [hcommit.snapshot, hcommit.log, List.append_nil] at hinside
        exact hinside) hentry
      exact (adopt_sources (hlast ▸ prevLogSatisfied_le hprev) hadopted).imp_left hfollowed

theorem onInstallSnapshot_held {sender : NodeId} {request : InstallSnapshot}
    (h : node.onInstallSnapshot sender request = some (node', effects)) :
    ∀ effect ∈ effects, effect.HeldBy node' := by
  unfold onInstallSnapshot at h
  split at h
  · cases h
    exact List.forall_mem_singleton.mpr (.snapshotReply _ _ _)
  dsimp only at h
  split at h
  · cases h
    exact List.forall_mem_append.mpr ⟨followLeader_held _ _,
      List.forall_mem_singleton.mpr (.snapshotReply _ _ _)⟩
  · cases h
    refine List.forall_mem_append.mpr ⟨followLeader_held _ _,
      List.forall_mem_cons.mpr ⟨⟨fun _ _ hshows => hshows.elim, ?_⟩,
        List.forall_mem_cons.mpr ⟨⟨?_, fun _ _ hrests => hrests.elim⟩,
          List.forall_mem_singleton.mpr (.snapshotReply _ _ _)⟩⟩⟩
    · exact fun index config hrests => ⟨hrests.1.symm, hrests.2.symm⟩
    · rintro index entry ⟨-, hentry⟩
      cases hentry

theorem advance_then_continue_held {next : Node} {persist more : List Effect}
    {peer : NodeId} (hadvance : node.advanceCommitIndex = some (next, persist))
    (hmore : next.continueReplication peer = some more) :
    ∀ effect ∈ persist ++ more, effect.HeldBy next :=
  List.forall_mem_append.mpr ⟨(advanceCommitIndex_added hadvance).2,
    continueReplication_held hmore⟩

theorem onAppendEntriesResponse_held {sender : NodeId} {response : AppendEntriesResponse}
    (h : node.onAppendEntriesResponse sender response = some (node', effects)) :
    ∀ effect ∈ effects, effect.HeldBy node' := by
  unfold onAppendEntriesResponse at h
  split at h
  · cases h
    exact List.forall_mem_singleton.mpr (.persistHardState _)
  split at h
  · cases h
    simp
  split at h
  · obtain ⟨matchIndex, -, h⟩ := Option.bind_eq_some_iff.mp h
    obtain ⟨⟨next, persist⟩, hadvance, h⟩ := Option.bind_eq_some_iff.mp h
    obtain ⟨more, hmore, h⟩ := Option.bind_eq_some_iff.mp h
    cases h
    exact advance_then_continue_held hadvance hmore
  · obtain ⟨nextIndex, -, h⟩ := Option.bind_eq_some_iff.mp h
    dsimp only at h
    obtain ⟨more, hmore, h⟩ := Option.bind_eq_some_iff.mp h
    cases h
    exact continueReplication_held hmore

theorem onInstallSnapshotResponse_held {sender : NodeId}
    {response : InstallSnapshotResponse}
    (h : node.onInstallSnapshotResponse sender response = some (node', effects)) :
    ∀ effect ∈ effects, effect.HeldBy node' := by
  unfold onInstallSnapshotResponse at h
  split at h
  · cases h
    exact List.forall_mem_singleton.mpr (.persistHardState _)
  split at h
  · cases h
    simp
  obtain ⟨matchIndex, -, h⟩ := Option.bind_eq_some_iff.mp h
  obtain ⟨⟨next, persist⟩, hadvance, h⟩ := Option.bind_eq_some_iff.mp h
  obtain ⟨more, hmore, h⟩ := Option.bind_eq_some_iff.mp h
  cases h
  exact advance_then_continue_held hadvance hmore

/-! ### All requests -/

theorem compact_held {upToIndex : Nat} {snapshotData : Bytes}
    (h : node.compact upToIndex snapshotData = some (.ok (node', effects))) :
    ∀ effect ∈ effects, effect.HeldBy node' := by
  rcases compact_cases h with ⟨-, -, rfl⟩ |
    ⟨term, config, log, -, -, -, -, -, rfl, rfl⟩
  · simp
  refine List.forall_mem_cons.mpr ⟨⟨fun _ _ hshows => hshows.elim, ?_⟩,
    List.forall_mem_singleton.mpr ⟨?_, fun _ _ hrests => hrests.elim⟩⟩
  · exact fun index config hrests => ⟨hrests.1.symm, hrests.2.symm⟩
  · rintro index entry ⟨hle, hentry⟩
    show (if index = 0 ∨ index ≤ upToIndex then none
      else log[index - upToIndex - 1]?) = some entry
    rw [if_neg (by omega), Nat.sub_sub]
    exact hentry

/-- What a compaction leaves of the log was there before. -/
theorem compact_entryAt {upToIndex : Nat} {snapshotData : Bytes}
    (h : node.compact upToIndex snapshotData = some (.ok (node', effects)))
    {index : Nat} {entry : LogEntry} (hentry : node'.entryAt index = some entry) :
    node.entryAt index = some entry := by
  rcases compact_cases h with ⟨-, rfl, -⟩ |
    ⟨term, config, log, hlow, -, -, rfl, -, rfl, -⟩
  · exact hentry
  have habove : upToIndex < index := (entryAt_range hentry).1
  have hentry : (if index = 0 ∨ index ≤ upToIndex then none
      else (node.log.drop (upToIndex - node.snapshot.lastIncludedIndex))[
        index - upToIndex - 1]?) = some entry := hentry
  rw [if_neg (by omega), List.getElem?_drop] at hentry
  rw [entryAt, if_neg (by omega), ← hentry]
  congr 1
  unfold vecIndex
  omega

theorem receive_held {sender : NodeId} {message : Message}
    (h : node.step (.step sender message) = some (node', effects)) :
    ∀ effect ∈ effects, effect.HeldBy node' := by
  have hignored : some (node, []) = some (node', effects) →
      ∀ effect ∈ effects, effect.HeldBy node' := by
    intro heq
    cases heq
    simp
  cases message with
  | requestVote request =>
      simp only [step] at h
      split at h
      · exact hignored h
      split at h
      · exact hignored h
      · exact onRequestVote_held node' h
  | requestVoteResponse response =>
      simp only [step] at h
      split at h
      · exact hignored h
      · exact onRequestVoteResponse_held h
  | appendEntries request =>
      simp only [step] at h
      split at h
      · exact hignored h
      · exact onAppendEntries_held h
  | appendEntriesResponse response =>
      simp only [step] at h
      split at h
      · exact hignored h
      · exact onAppendEntriesResponse_held h
  | installSnapshot request =>
      simp only [step] at h
      split at h
      · exact hignored h
      · exact onInstallSnapshot_held h
  | installSnapshotResponse response =>
      simp only [step] at h
      split at h
      · exact hignored h
      · exact onInstallSnapshotResponse_held h

/-- All that a batch stores or sends of the log and of the snapshot, the node it
leads to holds. -/
theorem perform_held {operation : Operation}
    (h : node.perform operation = some (node', effects)) :
    ∀ effect ∈ effects, effect.HeldBy node' := by
  cases operation with
  | tick nextTimeout => exact onTick_held h
  | receive sender message => exact receive_held h
  | propose command =>
      obtain ⟨answer, hanswer, h⟩ := Option.bind_eq_some_iff.mp h
      unfold propose at hanswer
      split at hanswer
      · cases hanswer
        cases h
        simp
      · obtain ⟨appended, happended, hanswer⟩ := Option.bind_eq_some_iff.mp hanswer
        cases hanswer
        cases h
        exact (appendOwn_added happended).2
  | proposeConfigChange newVoters =>
      obtain ⟨answer, hanswer, h⟩ := Option.bind_eq_some_iff.mp h
      unfold Node.proposeConfigChange at hanswer
      split at hanswer
      · cases hanswer
        cases h
        simp
      · dsimp only at hanswer
        obtain ⟨⟨last, index, rest⟩, happended, hanswer⟩ :=
          Option.bind_eq_some_iff.mp hanswer
        cases hanswer
        cases h
        refine List.forall_mem_append.mpr ⟨?_, (appendOwn_added happended).2⟩
        unfold Node.dropPromoted
        dsimp only
        split
        · exact List.forall_mem_singleton.mpr
            (.of_none (fun _ _ hshows => hshows) (fun _ _ hrests => hrests))
        · simp
  | addLearner id =>
      obtain rfl := congrArg Prod.snd (Option.some.inj h)
      unfold Node.addLearner
      split
      · simp
      · exact List.forall_mem_singleton.mpr
          (.of_none (fun _ _ hshows => hshows) (fun _ _ hrests => hrests))
  | removeLearner id =>
      obtain rfl := congrArg Prod.snd (Option.some.inj h)
      unfold Node.removeLearner
      split
      · simp
      · exact List.forall_mem_singleton.mpr
          (.of_none (fun _ _ hshows => hshows) (fun _ _ hrests => hrests))
  | compact upToIndex snapshotData =>
      obtain ⟨answer, hanswer, h⟩ := Option.bind_eq_some_iff.mp h
      rcases answer with _ | ⟨last, rest⟩
      · cases h
        simp
      · cases h
        exact compact_held hanswer

/-- Serving `operation`, the leader appends `entry` of its own. A configuration
it appends names the voters in force, or those it is asked for. -/
structure AppendsOwn (node : Node) (operation : Operation) (index : Nat)
    (entry : LogEntry) : Prop where
  role : node.role = .leader
  beyond : node.lastLogIndex < index
  term : entry.term = node.currentTerm
  voters : ∀ config, entry.payload = .configuration config →
    ∀ id, config.isVoter id = true → node.currentConfig.isVoter id = true ∨
      ∃ newVoters, operation = .proposeConfigChange newVoters ∧ id ∈ newVoters

theorem isVoter_of_plain {config : ClusterConfig} {id : NodeId}
    (h : (⟨config.voters, none⟩ : ClusterConfig).isVoter id = true) :
    config.isVoter id = true := by
  simp only [ClusterConfig.isVoter, Option.getD_none, List.contains_nil, Bool.or_false] at h
  simp only [ClusterConfig.isVoter, h, Bool.true_or]

theorem PlainOf.appendsOwn {operation : Operation} {index : Nat} {entry : LogEntry}
    (h : node.PlainOf entry) (hrole : node.role = .leader)
    (hbeyond : node.lastLogIndex < index) : node.AppendsOwn operation index entry := by
  obtain rfl := h
  refine ⟨hrole, hbeyond, rfl, ?_⟩
  rintro config ⟨⟩ id hid
  exact Or.inl (isVoter_of_plain hid)

/-- What the log holds after it has grown was there, or is among what was
added. -/
theorem entryAt_of_appends {added : List LogEntry} (hadded : Appends node added node')
    {index : Nat} {entry : LogEntry} (hentry : node'.entryAt index = some entry) :
    node.entryAt index = some entry ∨ node.lastLogIndex < index ∧ entry ∈ added := by
  rcases Nat.lt_or_ge node.lastLogIndex index with hbeyond | hinside
  · exact Or.inr ⟨hbeyond, hadded.mem_of_entryAt hbeyond hentry⟩
  · exact Or.inl (hadded.entryAt_inside hinside hentry)

theorem entryAt_of_same (hsame : Appends node [] node') {index : Nat} {entry : LogEntry}
    (hentry : node'.entryAt index = some entry) : node.entryAt index = some entry := by
  rcases entryAt_of_appends hsame hentry with hheld | ⟨-, hnone⟩
  · exact hheld
  · cases hnone

/-- A response makes a leader append at most the follow-up of a transition. -/
theorem progress_sources {operation : Operation} {sender : NodeId} {matchIndex : Nat}
    {first : List Effect} (hrole : node.role = .leader)
    (hadvance : (node.trackProgress sender matchIndex).advanceCommitIndex =
      some (node', first)) {index : Nat} {entry : LogEntry}
    (hentry : node'.entryAt index = some entry) :
    node.entryAt index = some entry ∨ node.AppendsOwn operation index entry := by
  obtain ⟨⟨added, hadded, hplain⟩, -⟩ := advanceCommitIndex_added hadvance
  rcases entryAt_of_appends hadded hentry with hheld | ⟨hbeyond, hmem⟩
  · exact Or.inl hheld
  · have hown : node.PlainOf entry := hplain entry hmem
    exact Or.inr (hown.appendsOwn hrole hbeyond)

theorem receive_sources {sender : NodeId} {message : Message}
    (h : node.step (.step sender message) = some (node', effects)) {index : Nat}
    {entry : LogEntry} (hentry : node'.entryAt index = some entry) :
    node.entryAt index = some entry ∨ message.Shows index entry ∨
      node.AppendsOwn (.receive sender message) index entry := by
  have hignored : some (node, []) = some (node', effects) →
      node.entryAt index = some entry := by
    intro heq
    cases heq
    exact hentry
  cases message with
  | requestVote request =>
      simp only [step] at h
      split at h
      · exact Or.inl (hignored h)
      split at h
      · exact Or.inl (hignored h)
      · exact Or.inl (entryAt_of_same (onRequestVote_appends h) hentry)
  | requestVoteResponse response =>
      simp only [step] at h
      split at h
      · exact Or.inl (hignored h)
      · exact Or.inl (entryAt_of_same (onRequestVoteResponse_appends h) hentry)
  | appendEntries request =>
      simp only [step] at h
      split at h
      · exact Or.inl (hignored h)
      · exact (onAppendEntries_sources h hentry).imp_right Or.inl
  | appendEntriesResponse response =>
      simp only [step] at h
      split at h
      · exact Or.inl (hignored h)
      rcases onAppendEntriesResponse_cases h with ⟨hsame, -⟩ |
        ⟨hrole, -, -, matchIndex, first, -, hadvance⟩
      · exact Or.inl (entryAt_of_same hsame hentry)
      · exact (progress_sources hrole hadvance hentry).imp_right Or.inr
  | installSnapshot request =>
      simp only [step] at h
      split at h
      · exact Or.inl (hignored h)
      rcases onInstallSnapshot_cases h with hsame | ⟨hempty, -⟩
      · exact Or.inl (entryAt_of_same hsame hentry)
      · simp [entryAt, hempty] at hentry
  | installSnapshotResponse response =>
      simp only [step] at h
      split at h
      · exact Or.inl (hignored h)
      rcases onInstallSnapshotResponse_cases h with ⟨hsame, -⟩ |
        ⟨hrole, -, matchIndex, first, -, hadvance⟩
      · exact Or.inl (entryAt_of_same hsame hentry)
      · exact (progress_sources hrole hadvance hentry).imp_right Or.inr

theorem propose_sources (hcurrent : node.ConfigCurrent) {command : Bytes} {index : Nat}
    (h : node.propose command = some (some (node', index, effects))) {place : Nat}
    {entry : LogEntry} (hentry : node'.entryAt place = some entry) :
    node.entryAt place = some entry ∨
      node.AppendsOwn (.propose command) place entry := by
  unfold propose at h
  split at h
  · cases h
  rename_i hrole
  obtain ⟨appended, happended, h⟩ := Option.bind_eq_some_iff.mp h
  cases h
  obtain ⟨⟨more, hmore, hplain⟩, -⟩ := appendOwn_added happended
  rcases entryAt_of_appends hmore hentry with hheld | ⟨hbeyond, hmem⟩
  · exact Or.inl hheld
  refine Or.inr ?_
  rcases List.mem_cons.mp hmem with rfl | hlater
  · exact ⟨not_not.mp hrole, hbeyond, rfl, nofun⟩
  · have hfollowUp := hplain entry hlater
    unfold PlainOf at hfollowUp
    rw [currentConfig_push_command hcurrent] at hfollowUp
    have hown : node.PlainOf entry := hfollowUp
    exact hown.appendsOwn (not_not.mp hrole) hbeyond

theorem proposeConfigChange_sources {newVoters : List NodeId} {index : Nat}
    (h : node.proposeConfigChange newVoters = some (some (node', index, effects)))
    {place : Nat} {entry : LogEntry} (hentry : node'.entryAt place = some entry) :
    node.entryAt place = some entry ∨
      node.AppendsOwn (.proposeConfigChange newVoters) place entry := by
  unfold Node.proposeConfigChange at h
  split at h
  · cases h
  rename_i hserves
  simp only [not_or, not_not] at hserves
  have hfirst : Appends node [] (node.dropPromoted newVoters).1 :=
    .none rfl rfl rfl rfl rfl
  obtain ⟨⟨last, index', rest⟩, happended, h⟩ := Option.bind_eq_some_iff.mp h
  cases h
  obtain ⟨⟨more, hmore, hplain⟩, -⟩ := appendOwn_added happended
  have hall := hfirst.trans hmore
  rw [List.nil_append] at hall
  rcases entryAt_of_appends hall hentry with hheld | ⟨hbeyond, hmem⟩
  · exact Or.inl hheld
  have hasked : ∀ id, id ∈ newVoters → ∃ named,
      Operation.proposeConfigChange newVoters = .proposeConfigChange named ∧ id ∈ named :=
    fun id hid => ⟨newVoters, rfl, hid⟩
  refine Or.inr ?_
  rcases List.mem_cons.mp hmem with rfl | hlater
  · refine ⟨hserves.1, hbeyond, rfl, ?_⟩
    rintro config ⟨⟩ id hid
    simp only [ClusterConfig.isVoter, Option.getD_some, Bool.or_eq_true,
      List.contains_iff_mem] at hid
    rcases hid with hnew | hold
    · exact Or.inr (hasked id hnew)
    · refine Or.inl ?_
      simp only [ClusterConfig.isVoter, Bool.or_eq_true, List.contains_iff_mem]
      exact Or.inl hold
  · have hfollowUp := hplain entry hlater
    unfold PlainOf at hfollowUp
    rw [currentConfig_push _ rfl] at hfollowUp
    subst hfollowUp
    refine ⟨hserves.1, hbeyond, rfl, ?_⟩
    rintro config ⟨⟩ id hid
    simp only [ClusterConfig.isVoter, Option.getD_none, List.contains_nil, Bool.or_false,
      List.contains_iff_mem] at hid
    exact Or.inr (hasked id hid)

/-- What a node holds once it has served a request, it held before, was sent, or
has appended itself. -/
theorem perform_sources (hcurrent : node.ConfigCurrent) {operation : Operation}
    (h : node.perform operation = some (node', effects)) {index : Nat} {entry : LogEntry}
    (hentry : node'.entryAt index = some entry) :
    node.entryAt index = some entry ∨
      (∃ sender message, operation = .receive sender message ∧
        message.Shows index entry) ∨
      node.AppendsOwn operation index entry := by
  cases operation with
  | tick nextTimeout => exact Or.inl (entryAt_of_same (onTick_appends h) hentry)
  | receive sender message =>
      rcases receive_sources h hentry with hheld | hsent | hown
      · exact Or.inl hheld
      · exact Or.inr (Or.inl ⟨sender, message, rfl, hsent⟩)
      · exact Or.inr (Or.inr hown)
  | propose command =>
      obtain ⟨answer, hanswer, h⟩ := Option.bind_eq_some_iff.mp h
      rcases answer with _ | ⟨last, place, rest⟩
      · cases h
        exact Or.inl hentry
      · cases h
        exact (propose_sources hcurrent hanswer hentry).imp_right Or.inr
  | proposeConfigChange newVoters =>
      obtain ⟨answer, hanswer, h⟩ := Option.bind_eq_some_iff.mp h
      rcases answer with _ | ⟨last, place, rest⟩
      · cases h
        exact Or.inl hentry
      · cases h
        exact (proposeConfigChange_sources hanswer hentry).imp_right Or.inr
  | addLearner id =>
      obtain rfl := congrArg Prod.fst (Option.some.inj h)
      refine Or.inl (entryAt_of_same ?_ hentry)
      unfold Node.addLearner
      split <;> exact .none rfl rfl rfl rfl rfl
  | removeLearner id =>
      obtain rfl := congrArg Prod.fst (Option.some.inj h)
      refine Or.inl (entryAt_of_same ?_ hentry)
      unfold Node.removeLearner
      split <;> exact .none rfl rfl rfl rfl rfl
  | compact upToIndex snapshotData =>
      obtain ⟨answer, hanswer, h⟩ := Option.bind_eq_some_iff.mp h
      rcases answer with _ | ⟨last, rest⟩
      · cases h
        exact Or.inl hentry
      · cases h
        exact Or.inl (compact_entryAt hanswer hentry)

end Node

end Kurogane.Raft
