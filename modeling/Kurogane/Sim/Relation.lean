import Kurogane.Sim.Rules

/-!
How a node, its storage and its messages stand for the history of the run.
The history keeps the whole log of every node; what a node stores is the part
above its snapshot boundary, and the boundary lies inside what is committed.
-/

namespace Kurogane.Raft.Node

/-- The node's boundary configuration is the true one: it comes with a
snapshot, or is the one the cluster started with. -/
def KnowsStart (initial : ClusterConfig) (node : Node) : Prop :=
  0 < node.snapshot.lastIncludedIndex ∨ node.snapshotConfig = initial

/-- The node's current configuration is the true one. A node that has joined
is informed by the first configuration that reaches it. -/
def Informed (initial : ClusterConfig) (node : Node) : Prop :=
  node.KnowsStart initial ∨
    (latestConfigurationIn node.log node.snapshot.lastIncludedIndex).isSome

instance (initial : ClusterConfig) (node : Node) :
    Decidable (node.KnowsStart initial) :=
  inferInstanceAs (Decidable (_ ∨ _))

instance (initial : ClusterConfig) (node : Node) :
    Decidable (node.Informed initial) :=
  inferInstanceAs (Decidable (_ ∨ _))

/-- The configuration at `index`, which the log reaches, is the true one. -/
def KnowsBoundary (initial : ClusterConfig) (node : Node) (index : Nat) : Prop :=
  node.KnowsStart initial ∨
    (latestConfigurationIn (node.log.take (index - node.snapshot.lastIncludedIndex))
      node.snapshot.lastIncludedIndex).isSome

instance (initial : ClusterConfig) (node : Node) (index : Nat) :
    Decidable (node.KnowsBoundary initial index) :=
  inferInstanceAs (Decidable (_ ∨ _))

end Kurogane.Raft.Node

namespace Kurogane.Sim

open Kurogane.Raft Kurogane.Consensus

abbrev Ghost := History NodeId LogEntry

section Definitions

variable (initial : ClusterConfig) (h : Ghost)

/-- `durable` is what `id` must have kept: its term and vote, and the part of
its log above a committed boundary. -/
structure DurableRel (id : NodeId) (durable : Durable) : Prop where
  term : h.term id = durable.hardState.currentTerm
  voted : ∀ c, durable.hardState.votedFor = some c ↔
    ∃ a ∈ h.votes, a.voter = id ∧ a.term = durable.hardState.currentTerm ∧
      a.candidate = c
  boundary : durable.boundary ≤ h.commit id
  log : durable.log = (h.log id).drop durable.boundary
  snapshotTerm : durable.snapshot.metadata.lastIncludedTerm =
    (membership initial).lastTerm ((h.log id).take durable.boundary)
  snapshotConfig : 0 < durable.boundary → durable.snapshot.config =
    (membership initial).latest initial ((h.log id).take durable.boundary)

/-- What a leader may count `peer` for: it acknowledged that much of the
leader's log in this term, or that much is committed anyway. -/
def Matched (id : NodeId) (term : Nat) (peer : NodeId) (count : Nat) : Prop :=
  count ≤ (h.log id).length ∧
    ((∃ a ∈ h.acks, a.voter = peer ∧ a.term = term ∧ a.leader = id ∧
        (h.log id).take count <+: a.log) ∨
      h.Covered term h.clock ((h.log id).take count))

structure NodeRel (node : Node) : Prop where
  durable : DurableRel initial h node.id node.durable
  commit : h.commit node.id = node.commitIndex
  informed : node.role ≠ .follower → node.Informed initial
  config : (node.currentConfig, node.currentConfigIndex) =
    (latestConfigurationIn node.log node.snapshot.lastIncludedIndex).getD
      (node.snapshotConfig, node.snapshot.lastIncludedIndex)
  candidate : node.role = .candidate →
    ⟨node.id, node.currentTerm, h.log node.id⟩ ∈ h.campaigns ∧
      ¬ h.Elected node.currentTerm node.id ∧
      ∀ u ∈ node.votesGranted, ∃ a ∈ h.votes,
        a.voter = u ∧ a.term = node.currentTerm ∧ a.candidate = node.id
  leader : node.role = .leader →
    h.Elected node.currentTerm node.id ∧
      h.log node.id = h.leaderLog node.currentTerm node.id ∧
      (∀ (peer : NodeId) (next : Nat), node.nextIndex[peer]? = some next →
        0 < next) ∧
      ∀ peer count, node.matchIndex[peer]? = some count →
        Matched h node.id node.currentTerm peer count

/-- What a message claims of the run when it is sent, and ever after. -/
def MessageRel (sender receiver : NodeId) : Message → Prop
  | .requestVote request =>
      ∃ c ∈ h.campaigns, c.node = request.candidateId ∧
        c.term = request.term ∧ c.log.length = request.lastLogIndex ∧
        (membership initial).lastTerm c.log = request.lastLogTerm
  | .requestVoteResponse response => response.granted = true →
      ∃ a ∈ h.votes, a.voter = sender ∧ a.term = response.term ∧
        a.candidate = receiver
  | .appendEntries request =>
      h.Elected request.term request.leaderId ∧ ∃ before,
        before ++ request.entries <+:
          h.leaderLog request.term request.leaderId ∧
        before.length = request.prevLogIndex ∧
        (membership initial).lastTerm before = request.prevLogTerm ∧
        request.leaderCommit ≤ (before ++ request.entries).length ∧
        h.Covered request.term h.clock
          ((before ++ request.entries).take request.leaderCommit)
  | .appendEntriesResponse response => response.success = true →
      ∃ a ∈ h.acks, a.voter = sender ∧ a.term = response.term ∧
        a.leader = receiver ∧ a.log.length = response.matchIndex
  | .installSnapshot request =>
      h.Elected request.term request.leaderId ∧
        0 < request.lastIncludedIndex ∧ ∃ covered,
        covered <+: h.leaderLog request.term request.leaderId ∧
        covered.length = request.lastIncludedIndex ∧
        (membership initial).lastTerm covered = request.lastIncludedTerm ∧
        (membership initial).latest initial covered = request.config ∧
        h.Covered request.term h.clock covered
  | .installSnapshotResponse response =>
      (∃ a ∈ h.acks, a.voter = sender ∧ a.term = response.term ∧
        a.leader = receiver ∧ a.log.length = response.lastIncludedIndex) ∨
      ∃ covered, covered.length = response.lastIncludedIndex ∧
        h.Covered response.term h.clock covered

/-- Nothing recorded about `id` itself has changed. -/
structure Unmoved (h h' : Ghost) (id : NodeId) : Prop where
  term : h'.term id = h.term id
  log : h'.log id = h.log id
  commit : h'.commit id = h.commit id
  votes : ∀ a ∈ h'.votes, a.voter = id → a ∈ h.votes
  elections : ∀ e ∈ h'.elections, e.leader = id → e ∈ h.elections
  leaderLog : ∀ t, h'.leaderLog t id = h.leaderLog t id

end Definitions

variable {initial : ClusterConfig} {h h' : Ghost} {node : Node}

theorem unmoved_of_frame {id other : NodeId} (hframe : h.Frame other h')
    (hne : id ≠ other) : Unmoved h h' id where
  term := hframe.term id hne
  log := hframe.log id hne
  commit := hframe.commit id hne
  votes a ha hvoter := hframe.votes a ha (hvoter ▸ hne)
  elections e he hleader := hframe.elections e he (hleader ▸ hne)
  leaderLog t := hframe.leaderLog t id hne

theorem DurableRel.unmoved {id : NodeId} {durable : Durable}
    (hrel : DurableRel initial h id durable) (ext : h.Extends h')
    (hsame : Unmoved h h' id) : DurableRel initial h' id durable where
  term := hsame.term.trans hrel.term
  voted c := by
    rw [hrel.voted c]
    constructor
    · rintro ⟨a, ha, hfacts⟩
      exact ⟨a, ext.votes ha, hfacts⟩
    · rintro ⟨a, ha, hvoter, hfacts⟩
      exact ⟨a, hsame.votes a ha hvoter, hvoter, hfacts⟩
  boundary := hsame.commit ▸ hrel.boundary
  log := hsame.log ▸ hrel.log
  snapshotTerm := hsame.log ▸ hrel.snapshotTerm
  snapshotConfig := hsame.log ▸ hrel.snapshotConfig

theorem Matched.extends {id peer : NodeId} {term count : Nat}
    (hmatched : Matched h id term peer count) (ext : h.Extends h')
    (hlog : h'.log id = h.log id) : Matched h' id term peer count := by
  unfold Matched
  rw [hlog]
  obtain ⟨hle, ⟨a, ha, hfacts⟩ | hcovered⟩ := hmatched
  · exact ⟨hle, Or.inl ⟨a, ext.acks ha, hfacts⟩⟩
  · exact ⟨hle, Or.inr (ext.covered hcovered le_rfl ext.clock)⟩

theorem NodeRel.unmoved (hrel : NodeRel initial h node) (ext : h.Extends h')
    (hsame : Unmoved h h' node.id) : NodeRel initial h' node where
  durable := hrel.durable.unmoved ext hsame
  commit := hsame.commit.trans hrel.commit
  informed := hrel.informed
  config := hrel.config
  candidate hrole := by
    obtain ⟨hcampaign, hnot, hvotes⟩ := hrel.candidate hrole
    refine ⟨hsame.log ▸ ext.campaigns hcampaign, ?_, ?_⟩
    · rintro ⟨e, he, hterm, hleader⟩
      exact hnot ⟨e, hsame.elections e he hleader, hterm, hleader⟩
    · intro u hu
      obtain ⟨a, ha, hfacts⟩ := hvotes u hu
      exact ⟨a, ext.votes ha, hfacts⟩
  leader hrole := by
    obtain ⟨helected, hlog, hnext, hmatched⟩ := hrel.leader hrole
    refine ⟨ext.elected helected, ?_, hnext, ?_⟩
    · rw [hsame.log, hsame.leaderLog]
      exact hlog
    · intro peer count hcount
      exact (hmatched peer count hcount).extends ext hsame.log

/-- What a message claims stays true as the run goes on. -/
theorem MessageRel.extends {sender receiver : NodeId} {message : Message}
    (hrel : MessageRel initial h sender receiver message)
    (ext : h.Extends h') : MessageRel initial h' sender receiver message := by
  cases message with
  | requestVote request =>
      obtain ⟨c, hc, hfacts⟩ := hrel
      exact ⟨c, ext.campaigns hc, hfacts⟩
  | requestVoteResponse response =>
      intro hgranted
      obtain ⟨a, ha, hfacts⟩ := hrel hgranted
      exact ⟨a, ext.votes ha, hfacts⟩
  | appendEntries request =>
      obtain ⟨helected, before, hinit, hlength, hterm, hle, hcovered⟩ := hrel
      exact ⟨ext.elected helected, before,
        hinit.trans (ext.leaderLog _ _ helected), hlength, hterm, hle,
        ext.covered hcovered le_rfl ext.clock⟩
  | appendEntriesResponse response =>
      intro hsuccess
      obtain ⟨a, ha, hfacts⟩ := hrel hsuccess
      exact ⟨a, ext.acks ha, hfacts⟩
  | installSnapshot request =>
      obtain ⟨helected, hpos, covered, hinit, hlength, hterm, hconfig,
        hcovered⟩ := hrel
      exact ⟨ext.elected helected, hpos, covered,
        hinit.trans (ext.leaderLog _ _ helected), hlength, hterm, hconfig,
        ext.covered hcovered le_rfl ext.clock⟩
  | installSnapshotResponse response =>
      rcases hrel with ⟨a, ha, hfacts⟩ | ⟨covered, hlength, hcovered⟩
      · exact Or.inl ⟨a, ext.acks ha, hfacts⟩
      · exact Or.inr ⟨covered, hlength,
          ext.covered hcovered le_rfl ext.clock⟩

namespace NodeRel

variable (hrel : NodeRel initial h node)
include hrel

theorem term : h.term node.id = node.currentTerm :=
  hrel.durable.term

theorem log : node.log =
    (h.log node.id).drop node.snapshot.lastIncludedIndex :=
  hrel.durable.log

theorem snapshotTerm : node.snapshot.lastIncludedTerm =
    (membership initial).lastTerm
      ((h.log node.id).take node.snapshot.lastIncludedIndex) :=
  hrel.durable.snapshotTerm

theorem boundary_le_commit :
    node.snapshot.lastIncludedIndex ≤ node.commitIndex := by
  rw [← hrel.commit]
  exact hrel.durable.boundary

theorem snapshotConfig (hknows : node.KnowsStart initial) :
    node.snapshotConfig = (membership initial).latest initial
      ((h.log node.id).take node.snapshot.lastIncludedIndex) := by
  rcases Nat.eq_zero_or_pos node.snapshot.lastIncludedIndex with hzero | hpos
  · rw [hknows.resolve_left (by omega), hzero, List.take_zero]
    rfl
  · exact hrel.durable.snapshotConfig hpos

/-- What a part of the log above the boundary changes the configuration to. -/
theorem latest_of_take {count : Nat}
    (hknows : node.KnowsStart initial ∨ (latestConfigurationIn
      (node.log.take count) node.snapshot.lastIncludedIndex).isSome) :
    ((latestConfigurationIn (node.log.take count)
        node.snapshot.lastIncludedIndex).map Prod.fst).getD node.snapshotConfig =
      (membership initial).latest initial
        ((h.log node.id).take node.snapshot.lastIncludedIndex ++
          node.log.take count) := by
  rw [Rules.latest_append, ← latestConfigurationIn_latest initial _
    (node.log.take count) node.snapshot.lastIncludedIndex]
  cases hfound : latestConfigurationIn (node.log.take count)
      node.snapshot.lastIncludedIndex with
  | some found => rfl
  | none =>
      simp only [hfound, Option.isSome_none, Bool.false_eq_true, or_false] at hknows
      exact hrel.snapshotConfig hknows

/-- A node's current configuration is the one in force after its log. -/
theorem currentConfig (hinformed : node.Informed initial) : node.currentConfig =
    (membership initial).latest initial (h.log node.id) := by
  have hfst : node.currentConfig = _ := congrArg Prod.fst hrel.config
  have hlatest := @latest_of_take _ _ _ hrel node.log.length
    (by rw [List.take_length]; exact hinformed)
  conv_rhs => rw [← List.take_append_drop node.snapshot.lastIncludedIndex
    (h.log node.id)]
  rw [List.take_length] at hlatest
  rw [← hrel.log, ← hlatest, hfst]
  cases latestConfigurationIn node.log node.snapshot.lastIncludedIndex <;> rfl

/-- From the index of the current configuration on, the log holds no other. -/
theorem no_config_above {k : Nat} (hk : node.currentConfigIndex ≤ k) :
    (membership initial).configs ((h.log node.id).drop k) = [] := by
  have hsnd := congrArg Prod.snd hrel.config
  have hnone : node.snapshot.lastIncludedIndex ≤ node.currentConfigIndex ∧
      (membership initial).configs (node.log.drop (node.currentConfigIndex -
        node.snapshot.lastIncludedIndex)) = [] := by
    cases hfound : latestConfigurationIn node.log
        node.snapshot.lastIncludedIndex with
    | none =>
        simp only [hfound, Option.getD_none] at hsnd
        rw [hsnd, Nat.sub_self, List.drop_zero]
        exact ⟨le_rfl, (latestConfigurationIn_eq_none initial).mp hfound⟩
    | some found =>
        obtain ⟨config, index⟩ := found
        simp only [hfound, Option.getD_some] at hsnd
        obtain ⟨hlow, -, hdrop⟩ := latestConfigurationIn_index initial hfound
        rw [hsnd]
        exact ⟨hlow.le, hdrop⟩
  obtain ⟨hlow, hdrop⟩ := hnone
  rw [hrel.log, List.drop_drop] at hdrop
  rw [show k = node.snapshot.lastIncludedIndex + (node.currentConfigIndex -
    node.snapshot.lastIncludedIndex) + (k - node.currentConfigIndex) by omega,
    ← List.drop_drop]
  refine List.filterMap_eq_nil_iff.mpr (fun e he => ?_)
  exact List.filterMap_eq_nil_iff.mp hdrop e (List.mem_of_mem_drop he)

variable (s : h.Sound (membership initial))
include s

theorem commit_le_length : node.commitIndex ≤ (h.log node.id).length := by
  rw [← hrel.commit]
  exact s.node_commit node.id

theorem boundary_le_length :
    node.snapshot.lastIncludedIndex ≤ (h.log node.id).length :=
  hrel.boundary_le_commit.trans (hrel.commit_le_length s)

theorem lastLogIndex : node.lastLogIndex = (h.log node.id).length := by
  have hle := hrel.boundary_le_length s
  rw [Node.lastLogIndex, hrel.log, List.length_drop]
  omega

omit s in
theorem lastLogTerm : node.lastLogTerm =
    (membership initial).lastTerm (h.log node.id) := by
  rw [lastTerm_drop initial _ node.snapshot.lastIncludedIndex, Node.lastLogTerm,
    ← hrel.log, ← hrel.snapshotTerm]

/-- What the node has committed is committed in the run. -/
theorem committed_covered : h.Covered node.currentTerm h.clock
    ((h.log node.id).take node.commitIndex) := by
  rw [← hrel.term, ← hrel.commit]
  exact s.node_covered node.id

theorem snapshot_covered : h.Covered node.currentTerm h.clock
    ((h.log node.id).take node.snapshot.lastIncludedIndex) :=
  (hrel.committed_covered s).shorten
    (List.take_prefix_take_left hrel.boundary_le_commit)

omit s in
/-- From the boundary to the end, `termAt` reads the term of the full log. -/
theorem termAt {index : Nat} (hpos : 0 < index)
    (hlow : node.snapshot.lastIncludedIndex ≤ index)
    (hhigh : index ≤ (h.log node.id).length) :
    node.termAt index = some
      ((membership initial).lastTerm ((h.log node.id).take index)) := by
  unfold Node.termAt
  rw [if_neg (by omega)]
  split
  · rename_i hboundary
    rw [hrel.snapshotTerm, hboundary]
  · rename_i hne
    rw [if_neg (by omega), Node.entryAt, if_neg (by omega), Node.vecIndex,
      hrel.log, List.getElem?_drop]
    obtain ⟨k, rfl⟩ : ∃ k, index = k + 1 := ⟨index - 1, by omega⟩
    have hk : node.snapshot.lastIncludedIndex +
        (k + 1 - node.snapshot.lastIncludedIndex - 1) = k := by omega
    rw [hk, lastTerm_take_succ initial _ (List.getElem?_eq_getElem (by omega)),
      List.getElem?_eq_getElem (by omega)]
    rfl

omit s in
/-- Above the boundary a node reads the entries of the full log. -/
theorem entryAt {index : Nat}
    (hlow : node.snapshot.lastIncludedIndex < index) :
    node.entryAt index = (h.log node.id)[index - 1]? := by
  rw [Node.entryAt, if_neg (by omega), Node.vecIndex, hrel.log,
    List.getElem?_drop]
  congr 1
  omega

/-- Conversely, a term read from the node is the one of the full log. -/
theorem termAt_some {index term : Nat} (hterm : node.termAt index = some term) :
    0 < index ∧ node.snapshot.lastIncludedIndex ≤ index ∧
      index ≤ (h.log node.id).length ∧
      (membership initial).lastTerm ((h.log node.id).take index) = term := by
  obtain ⟨hpos, hlow, hhigh⟩ := Node.termAt_range hterm
  rw [hrel.lastLogIndex s] at hhigh
  rw [hrel.termAt hpos hlow hhigh] at hterm
  exact ⟨hpos, hlow, hhigh, Option.some.inj hterm⟩

end NodeRel

end Kurogane.Sim
