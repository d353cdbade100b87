import Kurogane.Raft.Lockstep
import Kurogane.Raft.Replicating

/-!
What a request does to the indexes a leader keeps of its peers: nothing, seed
them, or move those of one peer, forward on an acknowledgement and back by one
on a rejection. Whatever a leader sends to replicate is what it owes by the
indexes it has kept.
-/

namespace Kurogane.Raft

/-- The messages a leader brings a peer up to date by. -/
def Message.replicates : Message → Bool
  | .appendEntries _ | .installSnapshot _ => true
  | _ => false

namespace Node

variable {node node' : Node} {effects : List Effect} {peer : NodeId}

/-- How the indexes of a node that leads after a request came about. -/
inductive ProgressStep (node node' : Node) : Operation → Prop
  | kept {operation : Operation} :
      node.role = .leader → node'.nextIndex = node.nextIndex →
      node'.matchIndex = node.matchIndex → ProgressStep node node' operation
  | seeded {operation : Operation} (targets : List NodeId) (next : Nat) :
      node'.nextIndex =
        targets.foldl (fun progress peer => progress.insert peer (next + 1)) ∅ →
      node'.matchIndex =
        targets.foldl (fun progress peer => progress.insert peer 0) ∅ →
      ProgressStep node node' operation
  | joined {id : NodeId} (next : Nat) : node.role = .leader →
      node'.nextIndex = node.nextIndex.insertIfNew id (next + 1) →
      node'.matchIndex = node.matchIndex.insertIfNew id 0 →
      ProgressStep node node' (.addLearner id)
  | acknowledged {sender : NodeId} {message : Message} (matched : Nat) :
      node.role = .leader →
      node'.nextIndex = node.nextIndex.insert sender (matched + 1) →
      node'.matchIndex = node.matchIndex.insert sender matched →
      ProgressStep node node' (.receive sender message)
  | backedOff {sender : NodeId} {response : AppendEntriesResponse} (next : Nat) :
      node.isMember sender = true → node.role = .leader →
      response.term = node.currentTerm → response.success = false →
      node.nextIndex[sender]? = some next →
      node'.nextIndex = node.nextIndex.insert sender (max (next - 1) 1) →
      node'.matchIndex = node.matchIndex →
      ProgressStep node node' (.receive sender (.appendEntriesResponse response))

/-! ### Requests that keep or seed the indexes -/

theorem ProgressStep.same {operation : Operation} (hrole : node.role = .leader) :
    ProgressStep node node operation := .kept hrole rfl rfl

theorem becomeLeader_progress {operation : Operation} {campaigning : Node}
    (h : campaigning.becomeLeader = some (node', effects)) :
    ProgressStep node node' operation := by
  obtain ⟨sends, -, h⟩ := Option.bind_eq_some_iff.mp h
  cases h
  exact .seeded _ _ rfl rfl

theorem onTick_progress {nextTimeout : Nat} {operation : Operation}
    (h : node.onTick nextTimeout = some (node', effects)) (hrole : node'.role = .leader) :
    ProgressStep node node' operation := by
  unfold onTick at h
  split at h
  · rename_i hleader
    unfold onLeaderTick at h
    dsimp only at h
    split at h
    · cases h
      exact .kept hleader rfl rfl
    · obtain ⟨sends, -, h⟩ := Option.bind_eq_some_iff.mp h
      cases h
      exact .kept hleader rfl rfl
  rename_i hfollows
  dsimp only at h
  split at h
  · cases h
    exact absurd hrole hfollows
  unfold startElection at h
  split at h
  · cases h
    exact absurd hrole hfollows
  dsimp only at h
  split at h
  · obtain ⟨⟨leader, sends⟩, hleader, h⟩ := Option.bind_eq_some_iff.mp h
    cases h
    exact becomeLeader_progress hleader
  · cases h
    cases hrole

theorem followLeader_progress {term : Nat}
    (hrole : (node.followLeader term).1.role = .leader) :
    node.role = .leader ∧ (node.followLeader term).1.nextIndex = node.nextIndex ∧
      (node.followLeader term).1.matchIndex = node.matchIndex := by
  unfold followLeader at hrole ⊢
  by_cases hlater : node.currentTerm < term
  · simp only [hlater, decide_true, ite_true] at hrole
    cases hrole
  · simp only [hlater, decide_false, Bool.false_eq_true, ite_false] at hrole ⊢
    split
    · rename_i hcandidate
      rw [if_pos hcandidate] at hrole
      cases hrole
    · rename_i hcandidate
      rw [if_neg hcandidate] at hrole
      exact ⟨hrole, rfl, rfl⟩

theorem mergeEntries_progress (entries : List LogEntry) :
    ∀ (node : Node) (changedFrom : Option Nat) (index : Nat),
      (node.mergeEntries changedFrom index entries).1.nextIndex = node.nextIndex ∧
        (node.mergeEntries changedFrom index entries).1.matchIndex =
          node.matchIndex := by
  induction entries with
  | nil => exact fun _ _ _ => ⟨rfl, rfl⟩
  | cons entry rest ih =>
      intro node changedFrom index
      unfold mergeEntries
      split
      · exact ih _ _ _
      split
      · split <;> exact ih _ _ _
      · exact ih _ _ _

theorem onAppendEntries_progress {sender : NodeId} {request : AppendEntries}
    {operation : Operation}
    (h : node.onAppendEntries sender request = some (node', effects))
    (hrole : node'.role = .leader) : ProgressStep node node' operation := by
  unfold onAppendEntries at h
  split at h
  · cases h
    exact .same hrole
  have hfollow := @followLeader_progress node request.term
  generalize node.followLeader request.term = followed at *
  obtain ⟨follower, persistTerm⟩ := followed
  dsimp only at h hfollow
  split at h
  · cases h
    obtain ⟨hleader, hnext, hmatch⟩ := hfollow hrole
    exact .kept hleader hnext hmatch
  · obtain ⟨persistLog, -, h⟩ := Option.bind_eq_some_iff.mp h
    cases h
    have hmerged := mergeEntries_role request.entries follower none
      (request.prevLogIndex + 1)
    obtain ⟨hnext, hmatch⟩ := mergeEntries_progress request.entries follower none
      (request.prevLogIndex + 1)
    generalize follower.mergeEntries none (request.prevLogIndex + 1)
      request.entries = result at *
    have hsame : ∀ merged : Node, merged.role = follower.role →
        merged.nextIndex = follower.nextIndex →
        merged.matchIndex = follower.matchIndex →
        (merged.followCommit request.leaderCommit).role = .leader →
        ProgressStep node (merged.followCommit request.leaderCommit) operation := by
      intro merged hmergedRole hmergedNext hmergedMatch hleads
      unfold followCommit at hleads ⊢
      split at hleads
      · rename_i hraises
        obtain ⟨hleader, hnext, hmatch⟩ := hfollow (hmergedRole ▸ hleads)
        rw [if_pos hraises]
        exact .kept hleader (hmergedNext.trans hnext) (hmergedMatch.trans hmatch)
      · rename_i hstays
        obtain ⟨hleader, hnext, hmatch⟩ := hfollow (hmergedRole ▸ hleads)
        rw [if_neg hstays]
        exact .kept hleader (hmergedNext.trans hnext) (hmergedMatch.trans hmatch)
    split at hrole
    · rename_i hchanged
      rw [if_pos hchanged]
      exact hsame _ hmerged hnext hmatch hrole
    · rename_i hunchanged
      rw [if_neg hunchanged]
      exact hsame _ hmerged hnext hmatch hrole

theorem onInstallSnapshot_progress {sender : NodeId} {request : InstallSnapshot}
    {operation : Operation}
    (h : node.onInstallSnapshot sender request = some (node', effects))
    (hrole : node'.role = .leader) : ProgressStep node node' operation := by
  unfold onInstallSnapshot at h
  split at h
  · cases h
    exact .same hrole
  have hfollow := @followLeader_progress node request.term
  generalize node.followLeader request.term = followed at *
  obtain ⟨follower, persistTerm⟩ := followed
  dsimp only at h hfollow
  split at h
  · cases h
    obtain ⟨hleader, hnext, hmatch⟩ := hfollow hrole
    exact .kept hleader hnext hmatch
  · cases h
    obtain ⟨hleader, hnext, hmatch⟩ := hfollow hrole
    exact .kept hleader hnext hmatch

theorem onRequestVoteResponse_progress {sender : NodeId}
    {response : RequestVoteResponse} {operation : Operation}
    (h : node.onRequestVoteResponse sender response = some (node', effects))
    (hrole : node'.role = .leader) : ProgressStep node node' operation := by
  unfold onRequestVoteResponse at h
  split at h
  · cases h
    cases hrole
  split at h
  · cases h
    exact .same hrole
  rename_i hcurrent
  simp only [not_or, ne_eq, not_not] at hcurrent
  split at h
  · dsimp only at h
    split at h
    · exact becomeLeader_progress h
    · cases h
      exact absurd (hcurrent.2.symm.trans hrole) (by decide)
  · cases h
    exact .same hrole

/-! ### Responses of peers -/

theorem advanced_progress {sender : NodeId} {message : Message} {matched : Nat}
    {first : List Effect} (hleader : node.role = .leader)
    (hadvance : (node.trackProgress sender matched).advanceCommitIndex =
      some (node', first)) (hrole : node'.role = .leader) :
    ProgressStep node node' (.receive sender message) := by
  have hcarries := advanceCommitIndex_carries hadvance hrole
  exact .acknowledged matched hleader hcarries.next hcarries.matched

theorem onInstallSnapshotResponse_progress {sender : NodeId}
    {response : InstallSnapshotResponse}
    (h : node.onInstallSnapshotResponse sender response = some (node', effects))
    (hrole : node'.role = .leader) :
    ProgressStep node node'
      (.receive sender (.installSnapshotResponse response)) := by
  unfold onInstallSnapshotResponse at h
  split at h
  · cases h
    cases hrole
  split at h
  · cases h
    exact .same hrole
  rename_i hcurrent
  simp only [not_or, ne_eq, not_not] at hcurrent
  obtain ⟨matchIndex, -, h⟩ := Option.bind_eq_some_iff.mp h
  obtain ⟨⟨next, first⟩, hadvance, h⟩ := Option.bind_eq_some_iff.mp h
  obtain ⟨more, -, h⟩ := Option.bind_eq_some_iff.mp h
  cases h
  exact advanced_progress hcurrent.2 hadvance hrole

theorem onAppendEntriesResponse_progress {sender : NodeId}
    {response : AppendEntriesResponse} (hmember : node.isMember sender = true)
    (h : node.onAppendEntriesResponse sender response = some (node', effects))
    (hrole : node'.role = .leader) :
    ProgressStep node node' (.receive sender (.appendEntriesResponse response)) := by
  unfold onAppendEntriesResponse at h
  split at h
  · cases h
    cases hrole
  rename_i hnewer
  split at h
  · cases h
    exact .same hrole
  rename_i hcurrent
  simp only [not_or, ne_eq, not_not] at hcurrent
  split at h
  · obtain ⟨matchIndex, -, h⟩ := Option.bind_eq_some_iff.mp h
    obtain ⟨⟨next, first⟩, hadvance, h⟩ := Option.bind_eq_some_iff.mp h
    obtain ⟨more, -, h⟩ := Option.bind_eq_some_iff.mp h
    cases h
    exact advanced_progress hcurrent.2 hadvance hrole
  · rename_i hrejected
    obtain ⟨next, hnext, h⟩ := Option.bind_eq_some_iff.mp h
    obtain ⟨more, -, h⟩ := Option.bind_eq_some_iff.mp h
    cases h
    exact .backedOff next hmember hcurrent.2 (by omega) (by simpa using hrejected) hnext
      rfl rfl

/-! ### All requests -/

theorem receive_progress {sender : NodeId} {message : Message}
    (h : node.step (.step sender message) = some (node', effects))
    (hrole : node'.role = .leader) :
    ProgressStep node node' (.receive sender message) := by
  have hignored : some (node, []) = some (node', effects) →
      ProgressStep node node' (.receive sender message) := by
    intro heq
    cases heq
    exact .same hrole
  cases message with
  | requestVote request =>
      simp only [step] at h
      split at h
      · exact hignored h
      split at h
      · exact hignored h
      · obtain rfl := onRequestVote_leader h hrole
        exact .same hrole
  | requestVoteResponse response =>
      simp only [step] at h
      split at h
      · exact hignored h
      · exact onRequestVoteResponse_progress h hrole
  | appendEntries request =>
      simp only [step] at h
      split at h
      · exact hignored h
      · exact onAppendEntries_progress h hrole
  | appendEntriesResponse response =>
      simp only [step] at h
      split at h
      · exact hignored h
      · rename_i hmember
        exact onAppendEntriesResponse_progress (by simpa using hmember) h hrole
  | installSnapshot request =>
      simp only [step] at h
      split at h
      · exact hignored h
      · exact onInstallSnapshot_progress h hrole
  | installSnapshotResponse response =>
      simp only [step] at h
      split at h
      · exact hignored h
      · exact onInstallSnapshotResponse_progress h hrole

theorem appendOwn_progress {entry : LogEntry} {index : Nat} {operation : Operation}
    (hleader : node.role = .leader)
    (h : node.appendOwn entry = some (node', index, effects))
    (hrole : node'.role = .leader) : ProgressStep node node' operation := by
  obtain ⟨⟨last, rest⟩, hadvance, h⟩ := Option.bind_eq_some_iff.mp h
  cases h
  have hcarries := advanceCommitIndex_carries hadvance hrole
  exact .kept hleader hcarries.next hcarries.matched

/-- Every request that leaves a leader moves the indexes in one of five ways. -/
theorem perform_progress {operation : Operation}
    (h : node.perform operation = some (node', effects)) (hrole : node'.role = .leader) :
    ProgressStep node node' operation := by
  cases operation with
  | tick nextTimeout =>
      have htick : node.onTick nextTimeout = some (node', effects) := h
      exact onTick_progress htick hrole
  | receive sender message => exact receive_progress h hrole
  | propose command =>
      obtain ⟨answer, hanswer, h⟩ := Option.bind_eq_some_iff.mp h
      unfold propose at hanswer
      split at hanswer
      · cases hanswer
        cases h
        exact .same hrole
      · rename_i hleader
        obtain ⟨appended, happended, hanswer⟩ := Option.bind_eq_some_iff.mp hanswer
        cases hanswer
        cases h
        exact appendOwn_progress (not_not.mp hleader) happended hrole
  | proposeConfigChange newVoters =>
      obtain ⟨answer, hanswer, h⟩ := Option.bind_eq_some_iff.mp h
      unfold proposeConfigChange at hanswer
      split at hanswer
      · cases hanswer
        cases h
        exact .same hrole
      · rename_i hserves
        simp only [not_or, ne_eq, not_not] at hserves
        obtain ⟨⟨last, index, rest⟩, happended, hanswer⟩ :=
          Option.bind_eq_some_iff.mp hanswer
        cases hanswer
        cases h
        obtain ⟨⟨last', rest'⟩, hadvance, happended⟩ :=
          Option.bind_eq_some_iff.mp happended
        cases happended
        have hcarries := advanceCommitIndex_carries hadvance hrole
        exact .kept hserves.1 hcarries.next hcarries.matched
  | addLearner id =>
      obtain rfl := congrArg Prod.fst (Option.some.inj h)
      unfold addLearner at hrole ⊢
      split at hrole
      · rename_i hrefused
        rw [if_pos hrefused]
        exact .same hrole
      · rename_i hserves
        rw [if_neg hserves]
        exact .joined _ hrole rfl rfl
  | removeLearner id =>
      obtain rfl := congrArg Prod.fst (Option.some.inj h)
      unfold removeLearner at hrole ⊢
      split at hrole
      · rename_i hrefused
        rw [if_pos hrefused]
        exact .same hrole
      · rename_i hserves
        rw [if_neg hserves]
        exact .kept hrole rfl rfl
  | compact upToIndex snapshotData =>
      obtain ⟨answer, hanswer, h⟩ := Option.bind_eq_some_iff.mp h
      rcases answer with _ | ⟨last, rest⟩
      · cases h
        exact .same hrole
      · cases h
        rcases compact_cases hanswer with ⟨-, rfl, -⟩ |
          ⟨term, config, log, -, -, -, -, -, rfl, -⟩
        · exact .same hrole
        · exact .kept hrole rfl rfl

/-! ### What a leader sends -/

/-- Every message to replicate is the one `node` owes its receiver. -/
def Owes (node : Node) (effects : List Effect) : Prop :=
  ∀ receiver message, .send receiver message ∈ effects →
    message.replicates = true →
    node.replicateTo receiver = some (.send receiver message)

theorem Owes.append {first second : List Effect} (hfirst : node.Owes first)
    (hsecond : node.Owes second) : node.Owes (first ++ second) := by
  intro receiver message hmem
  rcases List.mem_append.mp hmem with hmem | hmem
  · exact hfirst receiver message hmem
  · exact hsecond receiver message hmem

/-- Effects to persist and answers to others are not owed to a peer. -/
theorem owes_of_routine
    (h : ∀ receiver message, .send receiver message ∈ effects →
      message.replicates = false) : node.Owes effects := by
  intro receiver message hmem hreplicates
  rw [h receiver message hmem] at hreplicates
  cases hreplicates

theorem owes_nil : node.Owes [] :=
  owes_of_routine (fun _ _ hmem => absurd hmem List.not_mem_nil)

theorem owes_persist (other : Node) (persists : Bool) :
    node.Owes (if persists then [other.persistHardState] else []) := by
  cases persists with
  | false => exact owes_nil
  | true =>
      apply owes_of_routine
      intro receiver message hmem
      cases List.mem_singleton.mp hmem

theorem owes_broadcast (h : node.broadcastReplication = some effects) :
    node.Owes effects := by
  intro receiver message hmem _
  obtain ⟨peer, -, hsend⟩ := mem_broadcastReplication h hmem
  obtain ⟨found, heq⟩ := replicateTo_send hsend
  cases heq
  exact hsend

theorem owes_continue (h : node.continueReplication peer = some effects) :
    node.Owes effects := by
  unfold continueReplication at h
  split at h
  · obtain ⟨next, -, h⟩ := Option.bind_eq_some_iff.mp h
    split at h
    · obtain ⟨effect, heffect, h⟩ := Option.bind_eq_some_iff.mp h
      cases h
      intro receiver message hmem _
      rw [← List.mem_singleton.mp hmem] at heffect
      obtain ⟨found, heq⟩ := replicateTo_send heffect
      cases heq
      exact heffect
    · cases h
      exact owes_nil
  · cases h
    exact owes_nil

theorem becomeLeader_owes {campaigning : Node}
    (h : campaigning.becomeLeader = some (node', effects)) : node'.Owes effects := by
  obtain ⟨sends, hsends, h⟩ := Option.bind_eq_some_iff.mp h
  cases h
  exact owes_broadcast hsends

theorem onTick_owes {nextTimeout : Nat}
    (h : node.onTick nextTimeout = some (node', effects)) : node'.Owes effects := by
  unfold onTick at h
  split at h
  · unfold onLeaderTick at h
    dsimp only at h
    split at h
    · cases h
      exact owes_nil
    · obtain ⟨sends, hsends, h⟩ := Option.bind_eq_some_iff.mp h
      cases h
      exact owes_broadcast hsends
  dsimp only at h
  split at h
  · cases h
    exact owes_nil
  unfold startElection at h
  split at h
  · cases h
    exact owes_nil
  dsimp only at h
  split at h
  · obtain ⟨⟨leader, sends⟩, hleader, h⟩ := Option.bind_eq_some_iff.mp h
    cases h
    exact (owes_persist _ true).append (becomeLeader_owes hleader)
  · cases h
    apply (owes_persist _ true).append
    apply owes_of_routine
    intro receiver message hmem
    obtain ⟨peer, -, heq⟩ := List.mem_map.mp hmem
    cases heq
    rfl

/-- Entries to persist are not sent. -/
theorem advanceCommitIndex_owes (owner : Node)
    (h : node.advanceCommitIndex = some (node', effects)) : owner.Owes effects := by
  apply owes_of_routine
  intro receiver message hmem
  obtain ⟨candidate, -, ⟨-, -, rfl⟩ | ⟨-, last, rest, hrest, -, rfl⟩⟩ :=
    advanceCommitIndex_cases h
  · exact absurd hmem List.not_mem_nil
  · obtain ⟨_, -, -, rfl⟩ := advanceCommitIndex_plain
      (by rw [recomputeConfig_push_followUp]) hrest
    cases List.mem_singleton.mp hmem

theorem appendOwn_owes (owner : Node) {entry : LogEntry} {index : Nat}
    (h : node.appendOwn entry = some (node', index, effects)) : owner.Owes effects := by
  obtain ⟨⟨last, rest⟩, hadvance, h⟩ := Option.bind_eq_some_iff.mp h
  cases h
  intro receiver message hmem hreplicates
  rcases List.mem_cons.mp hmem with heq | hmem
  · cases heq
  · exact advanceCommitIndex_owes owner hadvance receiver message hmem hreplicates

theorem owes_reply {receiver : NodeId} {message : Message}
    (h : message.replicates = false) : node.Owes [.send receiver message] := by
  apply owes_of_routine
  intro other found hmem
  cases List.mem_singleton.mp hmem
  exact h

theorem onRequestVote_owes {sender : NodeId} {request : RequestVote}
    (h : node.onRequestVote sender request = some (node', effects)) :
    node'.Owes effects := by
  unfold onRequestVote at h
  split at h
  · cases h
    exact owes_reply rfl
  split at h
  · cases h
    exact owes_reply rfl
  split at h
  · cases h
    exact owes_reply rfl
  · cases h
    exact (owes_persist _ _).append (owes_reply rfl)

theorem onRequestVoteResponse_owes {sender : NodeId} {response : RequestVoteResponse}
    (h : node.onRequestVoteResponse sender response = some (node', effects)) :
    node'.Owes effects := by
  unfold onRequestVoteResponse at h
  split at h
  · cases h
    exact owes_persist _ true
  split at h
  · cases h
    exact owes_nil
  split at h
  · dsimp only at h
    split at h
    · exact becomeLeader_owes h
    · cases h
      exact owes_nil
  · cases h
    exact owes_nil

theorem owes_followLeader (owner : Node) {term : Nat} :
    owner.Owes (node.followLeader term).2 := owes_persist _ _

theorem onAppendEntries_owes {sender : NodeId} {request : AppendEntries}
    (h : node.onAppendEntries sender request = some (node', effects)) :
    node'.Owes effects := by
  unfold onAppendEntries at h
  split at h
  · cases h
    exact owes_reply rfl
  have hfollow : ∀ owner : Node, owner.Owes (node.followLeader request.term).2 :=
    fun owner => node.owes_followLeader owner
  generalize node.followLeader request.term = followed at *
  obtain ⟨follower, persistTerm⟩ := followed
  dsimp only at h hfollow
  split at h
  · cases h
    exact (hfollow _).append (owes_reply rfl)
  · obtain ⟨persistLog, hpersist, h⟩ := Option.bind_eq_some_iff.mp h
    cases h
    apply ((hfollow _).append _).append (owes_reply rfl)
    apply owes_of_routine
    intro receiver message hmem
    generalize (follower.mergeEntries none (request.prevLogIndex + 1)
      request.entries).2 = changed at hpersist
    cases changed with
    | none =>
        cases hpersist
        exact absurd hmem List.not_mem_nil
    | some fromIndex =>
        obtain ⟨entries, -, hpersist⟩ := Option.bind_eq_some_iff.mp hpersist
        cases hpersist
        cases List.mem_singleton.mp hmem

theorem onInstallSnapshot_owes {sender : NodeId} {request : InstallSnapshot}
    (h : node.onInstallSnapshot sender request = some (node', effects)) :
    node'.Owes effects := by
  unfold onInstallSnapshot at h
  split at h
  · cases h
    exact owes_reply rfl
  dsimp only at h
  split at h
  · cases h
    exact (node.owes_followLeader _).append (owes_reply rfl)
  · cases h
    apply (node.owes_followLeader _).append
    apply owes_of_routine
    intro receiver message hmem
    rcases List.mem_cons.mp hmem with heq | hmem
    · cases heq
    rcases List.mem_cons.mp hmem with heq | hmem
    · cases heq
    · cases List.mem_singleton.mp hmem
      rfl

theorem onAppendEntriesResponse_owes {sender : NodeId} {response : AppendEntriesResponse}
    (h : node.onAppendEntriesResponse sender response = some (node', effects)) :
    node'.Owes effects := by
  unfold onAppendEntriesResponse at h
  split at h
  · cases h
    exact owes_persist _ true
  split at h
  · cases h
    exact owes_nil
  split at h
  · obtain ⟨matchIndex, -, h⟩ := Option.bind_eq_some_iff.mp h
    obtain ⟨⟨next, first⟩, hadvance, h⟩ := Option.bind_eq_some_iff.mp h
    obtain ⟨more, hmore, h⟩ := Option.bind_eq_some_iff.mp h
    cases h
    exact (advanceCommitIndex_owes _ hadvance).append (owes_continue hmore)
  · obtain ⟨next, -, h⟩ := Option.bind_eq_some_iff.mp h
    obtain ⟨more, hmore, h⟩ := Option.bind_eq_some_iff.mp h
    cases h
    exact owes_continue hmore

theorem onInstallSnapshotResponse_owes {sender : NodeId}
    {response : InstallSnapshotResponse}
    (h : node.onInstallSnapshotResponse sender response = some (node', effects)) :
    node'.Owes effects := by
  unfold onInstallSnapshotResponse at h
  split at h
  · cases h
    exact owes_persist _ true
  split at h
  · cases h
    exact owes_nil
  · obtain ⟨matchIndex, -, h⟩ := Option.bind_eq_some_iff.mp h
    obtain ⟨⟨next, first⟩, hadvance, h⟩ := Option.bind_eq_some_iff.mp h
    obtain ⟨more, hmore, h⟩ := Option.bind_eq_some_iff.mp h
    cases h
    exact (advanceCommitIndex_owes _ hadvance).append (owes_continue hmore)

theorem receive_owes {sender : NodeId} {message : Message}
    (h : node.step (.step sender message) = some (node', effects)) :
    node'.Owes effects := by
  have hignored : some (node, []) = some (node', effects) → node'.Owes effects := by
    intro heq
    cases heq
    exact owes_nil
  cases message with
  | requestVote request =>
      simp only [step] at h
      split at h
      · exact hignored h
      split at h
      · exact hignored h
      · exact onRequestVote_owes h
  | requestVoteResponse response =>
      simp only [step] at h
      split at h
      · exact hignored h
      · exact onRequestVoteResponse_owes h
  | appendEntries request =>
      simp only [step] at h
      split at h
      · exact hignored h
      · exact onAppendEntries_owes h
  | appendEntriesResponse response =>
      simp only [step] at h
      split at h
      · exact hignored h
      · exact onAppendEntriesResponse_owes h
  | installSnapshot request =>
      simp only [step] at h
      split at h
      · exact hignored h
      · exact onInstallSnapshot_owes h
  | installSnapshotResponse response =>
      simp only [step] at h
      split at h
      · exact hignored h
      · exact onInstallSnapshotResponse_owes h

theorem owes_learners (other : Node) : node.Owes [other.persistLearners] := by
  apply owes_of_routine
  intro receiver message hmem
  cases List.mem_singleton.mp hmem

theorem owes_dropped (owner : Node) {newVoters : List NodeId} :
    owner.Owes (node.dropPromoted newVoters).2 := by
  unfold dropPromoted
  dsimp only
  split
  · exact owes_learners _
  · exact owes_nil

/-- Whatever a node sends to replicate, it owes in the state it has come to. -/
theorem perform_owes {operation : Operation}
    (h : node.perform operation = some (node', effects)) : node'.Owes effects := by
  cases operation with
  | tick nextTimeout =>
      have htick : node.onTick nextTimeout = some (node', effects) := h
      exact onTick_owes htick
  | receive sender message => exact receive_owes h
  | propose command =>
      obtain ⟨answer, hanswer, h⟩ := Option.bind_eq_some_iff.mp h
      unfold propose at hanswer
      split at hanswer
      · cases hanswer
        cases h
        exact owes_nil
      · obtain ⟨appended, happended, hanswer⟩ := Option.bind_eq_some_iff.mp hanswer
        cases hanswer
        cases h
        exact appendOwn_owes _ happended
  | proposeConfigChange newVoters =>
      obtain ⟨answer, hanswer, h⟩ := Option.bind_eq_some_iff.mp h
      unfold proposeConfigChange at hanswer
      split at hanswer
      · cases hanswer
        cases h
        exact owes_nil
      · obtain ⟨⟨last, index, rest⟩, happended, hanswer⟩ :=
          Option.bind_eq_some_iff.mp hanswer
        cases hanswer
        cases h
        exact (owes_dropped _).append (appendOwn_owes _ happended)
  | addLearner id =>
      have h : some (node.addLearner id) = some (node', effects) := h
      unfold addLearner at h
      split at h
      · cases h
        exact owes_nil
      · cases h
        exact owes_learners _
  | removeLearner id =>
      have h : some (node.removeLearner id) = some (node', effects) := h
      unfold removeLearner at h
      split at h
      · cases h
        exact owes_nil
      · cases h
        exact owes_learners _
  | compact upToIndex snapshotData =>
      obtain ⟨answer, hanswer, h⟩ := Option.bind_eq_some_iff.mp h
      rcases answer with _ | ⟨last, rest⟩
      · cases h
        exact owes_nil
      · cases h
        apply owes_of_routine
        intro receiver message hmem
        rcases compact_cases hanswer with ⟨-, -, rfl⟩ |
          ⟨term, config, log, -, -, -, -, -, -, rfl⟩
        · exact absurd hmem List.not_mem_nil
        · rcases List.mem_cons.mp hmem with heq | hmem
          · cases heq
          · cases List.mem_singleton.mp hmem

end Node

end Kurogane.Raft
