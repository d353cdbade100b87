import Kurogane.Raft.Merging
import Kurogane.Raft.PeerProgress
import Kurogane.Sim.FixedMembership

/-!
Where the entries of a log come from. While the membership is fixed a leader
appends commands alone, each at the end of its log, and everybody else copies.
So what is true of the commands at the indices they were proposed for is true of
every entry that is stored or sent.
-/

namespace Kurogane.Raft

/-- The entries of a message meet `Q` at the indices they are meant for. -/
def Message.Places (Q : Nat → LogEntry → Prop) : Message → Prop
  | .appendEntries request => ∀ offset entry, request.entries[offset]? = some entry →
      Q (request.prevLogIndex + 1 + offset) entry
  | _ => True

namespace Node

def Places (Q : Nat → LogEntry → Prop) (node : Node) : Prop :=
  ∀ index entry, node.entryAt index = some entry → Q index entry

variable {Q : Nat → LogEntry → Prop} {node node' : Node} {effects : List Effect}

theorem Places.congr (h : node.Places Q) (hlog : node'.log = node.log)
    (hsnapshot : node'.snapshot = node.snapshot) : node'.Places Q := by
  intro index entry hentry
  apply h index entry
  rw [← hentry]
  unfold entryAt vecIndex
  rw [hlog, hsnapshot]

theorem Places.of_appends (h : node.Places Q) (happends : Appends node [] node') :
    node'.Places Q :=
  h.congr (by rw [happends.log, List.append_nil]) happends.snapshot

theorem Places.push (h : node.Places Q) {entry : LogEntry}
    (hentry : Q (node.lastLogIndex + 1) entry) : (node.push entry).Places Q := by
  intro index other hother
  obtain ⟨offset, rfl, hfound⟩ := entryAt_eq_some.mp hother
  have hfound : (node.log ++ [entry])[offset]? = some other := hfound
  rcases Nat.lt_or_ge offset node.log.length with hold | hnew
  · rw [List.getElem?_append_left hold] at hfound
    exact h _ other (entryAt_eq_some.mpr ⟨offset, rfl, hfound⟩)
  · rw [List.getElem?_append_right hnew, List.getElem?_singleton,
      Option.ite_none_right_eq_some] at hfound
    obtain ⟨hlast, hsame⟩ := hfound
    cases hsame
    rw [show (node.push entry).snapshot.lastIncludedIndex + offset + 1 =
        node.lastLogIndex + 1 by unfold lastLogIndex Node.push; dsimp only; omega]
    exact hentry

/-- A plain configuration has no follow-up. -/
theorem Places.advanceCommitIndex (h : node.Places Q)
    (hplain : node.currentConfig.oldVoters = none)
    (hadvance : node.advanceCommitIndex = some (node', effects)) : node'.Places Q := by
  obtain ⟨candidate, -, rfl, -⟩ := advanceCommitIndex_plain hplain hadvance
  exact (h.of_appends (node.commitTo_appends candidate)).of_appends
    (retireIfExcluded_appends _)

theorem Places.onAppendEntriesResponse (h : node.Places Q)
    (hplain : node.currentConfig.oldVoters = none) {sender : NodeId}
    {response : AppendEntriesResponse}
    (hresponse : node.onAppendEntriesResponse sender response = some (node', effects)) :
    node'.Places Q := by
  unfold Node.onAppendEntriesResponse at hresponse
  split at hresponse
  · cases hresponse
    exact h.congr rfl rfl
  split at hresponse
  · cases hresponse
    exact h
  split at hresponse
  · obtain ⟨matchIndex, -, hresponse⟩ := Option.bind_eq_some_iff.mp hresponse
    obtain ⟨⟨last, first⟩, hadvance, hresponse⟩ := Option.bind_eq_some_iff.mp hresponse
    obtain ⟨more, -, hresponse⟩ := Option.bind_eq_some_iff.mp hresponse
    cases hresponse
    have htracked : (node.trackProgress sender (max matchIndex response.matchIndex)).Places Q :=
      h.congr rfl rfl
    exact htracked.advanceCommitIndex hplain hadvance
  · obtain ⟨nextIndex, -, hresponse⟩ := Option.bind_eq_some_iff.mp hresponse
    obtain ⟨more, -, hresponse⟩ := Option.bind_eq_some_iff.mp hresponse
    cases hresponse
    exact h.congr rfl rfl

theorem Places.onInstallSnapshotResponse (h : node.Places Q)
    (hplain : node.currentConfig.oldVoters = none) {sender : NodeId}
    {response : InstallSnapshotResponse}
    (hresponse : node.onInstallSnapshotResponse sender response = some (node', effects)) :
    node'.Places Q := by
  unfold Node.onInstallSnapshotResponse at hresponse
  split at hresponse
  · cases hresponse
    exact h.congr rfl rfl
  split at hresponse
  · cases hresponse
    exact h
  obtain ⟨matchIndex, -, hresponse⟩ := Option.bind_eq_some_iff.mp hresponse
  obtain ⟨⟨last, first⟩, hadvance, hresponse⟩ := Option.bind_eq_some_iff.mp hresponse
  obtain ⟨more, -, hresponse⟩ := Option.bind_eq_some_iff.mp hresponse
  cases hresponse
  have htracked : (node.trackProgress sender
      (max matchIndex response.lastIncludedIndex)).Places Q := h.congr rfl rfl
  exact htracked.advanceCommitIndex hplain hadvance

/-- A follower keeps its entries up to the first new one of the message, and has
those of the message from there on. -/
theorem Places.onAppendEntries (h : node.Places Q) {sender : NodeId}
    {request : AppendEntries} (hrequest : Message.Places Q (.appendEntries request))
    (happend : node.onAppendEntries sender request = some (node', effects)) :
    node'.Places Q := by
  by_cases hterm : node.currentTerm ≤ request.term
  case neg =>
    rw [onAppendEntries_stale (Nat.not_le.mp hterm)] at happend
    cases happend
    exact h
  obtain ⟨hlog, hsnapshot, -⟩ := node.followLeader_log request.term
  have hfollower : (node.followLeader request.term).1.Places Q := h.congr hlog hsnapshot
  cases hprev : node.prevLogSatisfied request with
  | false =>
      rw [onAppendEntries_rejects hterm hprev] at happend
      cases happend
      exact hfollower
  | true =>
      rw [onAppendEntries_accepts hterm hprev] at happend
      cases happend
      suffices hadopted : ((node.followLeader request.term).1.adopt
          (node.firstNew (request.prevLogIndex + 1) request.entries)).Places Q from
        hadopted.of_appends (followCommit_appends _ _)
      cases hnew : node.firstNew (request.prevLogIndex + 1) request.entries with
      | none => exact hfollower
      | some found =>
          obtain ⟨fromIndex, rest⟩ := found
          have hindex : request.prevLogIndex + 1 ≤ node.lastLogIndex + 1 :=
            Nat.succ_le_succ (prevLogSatisfied_le hprev)
          obtain ⟨hlow, hle, hhigh, hsplit, -⟩ := firstNew_range hindex hnew
          have hlast : (node.followLeader request.term).1.lastLogIndex =
              node.lastLogIndex := by
            unfold lastLogIndex
            rw [hlog, hsnapshot]
          intro index entry hentry
          have habove := (entryAt_range hentry).1
          rw [adopt_snapshot] at habove
          rw [adopt_entryAt (by rw [hsnapshot]; exact hlow) (by rw [hlast]; exact hhigh)
            habove] at hentry
          split at hentry
          · exact hfollower index entry hentry
          · rename_i hfrom
            have hskipped : (request.entries.take
                (fromIndex - (request.prevLogIndex + 1))).length =
                fromIndex - (request.prevLogIndex + 1) := by
              have hlength := congrArg List.length hsplit
              have hrest := (List.getElem?_eq_some_iff.mp hentry).1
              rw [List.length_append, List.length_take] at hlength
              rw [List.length_take]
              omega
            have hoffset := hrequest (index - (request.prevLogIndex + 1)) entry (by
              rw [hsplit, List.getElem?_append_right (by omega), hskipped, ← hentry]
              congr 1
              omega)
            rw [show request.prevLogIndex + 1 + (index - (request.prevLogIndex + 1)) =
              index by omega] at hoffset
            exact hoffset

/-- A leader puts a command behind all it holds. -/
theorem propose_entryAt {command : Bytes} {index : Nat}
    (h : node.propose command = some (some (node', index, effects))) :
    node.role = .leader ∧ index = node.lastLogIndex + 1 ∧
      node'.entryAt index = some ⟨node.currentTerm, .command command⟩ := by
  obtain ⟨rfl, more, happends, -⟩ := propose_appends h
  refine ⟨?_, rfl, entryAt_eq_some.mpr ⟨node.log.length, ?_, ?_⟩⟩
  · unfold Node.propose at h
    split at h
    · cases h
    · rename_i hrole
      exact not_not.mp hrole
  · unfold lastLogIndex
    rw [happends.snapshot]
  · rw [happends.log, List.getElem?_append_right (Nat.le_refl _), Nat.sub_self]
    rfl

/-- What a node sends are entries of its own log. -/
theorem Places.sent (h : node.Places Q) (howes : node.Owes effects) {receiver : NodeId}
    {message : Message} (hmem : .send receiver message ∈ effects) : message.Places Q := by
  cases message with
  | appendEntries request =>
      have hsend := howes receiver _ hmem rfl
      obtain ⟨nextIndex, -, hsend⟩ := Option.bind_eq_some_iff.mp hsend
      split at hsend
      · cases hsend
      rename_i habove
      obtain ⟨entries, hentries, hsend⟩ := Option.bind_eq_some_iff.mp hsend
      cases hsend
      simp only [entriesFrom, Option.ite_none_right_eq_some, Option.some.injEq] at hentries
      obtain ⟨-, rfl⟩ := hentries
      intro offset entry hentry
      rw [List.getElem?_drop] at hentry
      refine h _ entry (entryAt_eq_some.mpr ⟨_, ?_, hentry⟩)
      unfold vecIndex
      dsimp only
      omega
  | _ => trivial

end Node

end Kurogane.Raft

namespace Kurogane.Sim

open Kurogane.Raft Kurogane.Runtime

variable {Q : Nat → LogEntry → Prop} {node node' : Node} {effects : List Effect}

/-- Among commands alone no configuration is joint. -/
theorem plain_of_commands (hin : node.Within IsCommand) :
    node.currentConfig.oldVoters = none := by
  by_contra hjoint
  obtain ⟨term, hcommand⟩ := hin.config (Option.isSome_iff_ne_none.mpr hjoint)
  cases hcommand

theorem propose_places (h : node.Places Q) (hin : node.Within IsCommand)
    {command : Bytes} {index : Nat}
    (hnew : Q (node.lastLogIndex + 1) ⟨node.currentTerm, .command command⟩)
    (hpropose : node.propose command = some (some (node', index, effects))) :
    node'.Places Q := by
  unfold Node.propose at hpropose
  split at hpropose
  · cases hpropose
  obtain ⟨⟨last, reached, rest⟩, happend, hpropose⟩ := Option.bind_eq_some_iff.mp hpropose
  cases hpropose
  obtain ⟨⟨last, more⟩, hadvance, happend⟩ := Option.bind_eq_some_iff.mp happend
  cases happend
  have hpushed : (node.push ⟨node.currentTerm, .command command⟩).recomputeConfig.Places Q :=
    (h.push hnew).congr rfl rfl
  have hcommands : (node.push ⟨node.currentTerm, .command command⟩).recomputeConfig.Within
      IsCommand := hin.push rfl
  exact hpushed.advanceCommitIndex (plain_of_commands hcommands) hadvance

theorem perform_places (h : node.Places Q) (hin : node.Within IsCommand)
    {operation : Operation} (hsteady : node.Steady operation)
    (hmessage : ∀ sender message, operation = .receive sender message →
      message.Within IsCommand ∧ message.Places Q)
    (hnew : ∀ command, operation = .propose command → node.role = .leader →
      Q (node.lastLogIndex + 1) ⟨node.currentTerm, .command command⟩)
    (hperform : node.perform operation = some (node', effects)) : node'.Places Q := by
  have hplain := plain_of_commands hin
  cases operation with
  | tick nextTimeout =>
      have htick : node.onTick nextTimeout = some (node', effects) := hperform
      exact h.of_appends (Node.onTick_appends htick)
  | receive sender message =>
      have hstep : node.step (.step sender message) = some (node', effects) := hperform
      obtain ⟨hwithin, hplaces⟩ := hmessage sender message rfl
      cases message with
      | requestVote request =>
          simp only [Node.step] at hstep
          split at hstep
          · cases hstep
            exact h
          split at hstep
          · cases hstep
            exact h
          · exact h.of_appends (Node.onRequestVote_appends hstep)
      | requestVoteResponse response =>
          simp only [Node.step] at hstep
          split at hstep
          · cases hstep
            exact h
          · exact h.of_appends (Node.onRequestVoteResponse_appends hstep)
      | appendEntries request =>
          simp only [Node.step] at hstep
          split at hstep
          · cases hstep
            exact h
          · exact h.onAppendEntries hplaces hstep
      | appendEntriesResponse response =>
          simp only [Node.step] at hstep
          split at hstep
          · cases hstep
            exact h
          · exact h.onAppendEntriesResponse hplain hstep
      | installSnapshot request => exact hwithin.elim
      | installSnapshotResponse response =>
          simp only [Node.step] at hstep
          split at hstep
          · cases hstep
            exact h
          · exact h.onInstallSnapshotResponse hplain hstep
  | propose command =>
      obtain ⟨answer, hanswer, hperform⟩ := Option.bind_eq_some_iff.mp hperform
      rcases answer with _ | ⟨last, index, rest⟩
      · cases hperform
        exact h
      · cases hperform
        exact propose_places h hin (hnew command rfl (Node.propose_entryAt hanswer).1) hanswer
  | _ => exact hsteady.elim

/-! ### The cluster -/

/-- Every entry in the cluster meets `Q` at its index. Storages without a node
hold what the node had stored. -/
structure Cluster.Places (Q : Nat → LogEntry → Prop) (cluster : Cluster) : Prop where
  nodes : ∀ (id : NodeId) (server : Server), cluster.servers[id]? = some server →
    ∀ node ∈ server.node, node.Places Q
  storage : ∀ (id : NodeId) (server : Server), cluster.servers[id]? = some server →
    ∀ position entry, server.storage.log[position]? = some entry → Q (position + 1) entry
  network : ∀ envelope ∈ cluster.network, envelope.message.Places Q

variable {cluster cluster' : Cluster} {h : Ghost}

theorem Cluster.Places.imp {Q' : Nat → LogEntry → Prop} (hplaces : cluster.Places Q)
    (hmono : ∀ index entry, Q index entry → Q' index entry) : cluster.Places Q' where
  nodes id server hserver node hnode index entry hentry :=
    hmono _ _ (hplaces.nodes id server hserver node hnode index entry hentry)
  storage id server hserver position entry hentry :=
    hmono _ _ (hplaces.storage id server hserver position entry hentry)
  network envelope hmem := by
    have hold := hplaces.network envelope hmem
    obtain ⟨sender, receiver, message⟩ := envelope
    cases message with
    | appendEntries request => exact fun offset entry hentry => hmono _ _ (hold offset entry hentry)
    | _ => trivial

theorem boot_places {peers : List NodeId} {members : List (NodeId × Nat × Nat)}
    (hboot : Cluster.boot peers members = .ok cluster) : cluster.Places Q := by
  obtain ⟨-, hnetwork, hservers⟩ := Cluster.boot_ok hboot
  refine ⟨?_, ?_, by simp [hnetwork]⟩
  · intro id server hserver node hnode index entry hentry
    obtain ⟨node, _, _, rfl, hnew⟩ := hservers id server hserver
    cases hnode
    have hlog : node.log = [] :=
      congrArg (fun d : Durable => d.log) (Node.recover_ok hnew).2.2.2.2.2.1
    obtain ⟨offset, -, hfound⟩ := Node.entryAt_eq_some.mp hentry
    rw [hlog] at hfound
    cases hfound
  · intro id server hserver position entry hentry
    obtain ⟨node, _, _, rfl, -⟩ := hservers id server hserver
    cases hentry

/-- What is true of a leader's next entry when it takes in a command. -/
def Cluster.Admits (Q : Nat → LogEntry → Prop) (cluster : Cluster) : Action → Prop
  | .perform id (.propose command) => ∀ node ∈ cluster.node id, node.role = .leader →
      Q (node.lastLogIndex + 1) ⟨node.currentTerm, .command command⟩
  | .interrupt _ _ _ => False
  | _ => True

theorem Cluster.Places.update (hplaces : cluster.Places Q) {id : NodeId} {server : Server}
    (hnode : ∀ node ∈ server.node, node.Places Q)
    (hstorage : ∀ position entry, server.storage.log[position]? = some entry →
      Q (position + 1) entry)
    (hsent : ∀ receiver message, .send receiver message ∈ effects → message.Places Q) :
    (cluster.update id server effects).Places Q where
  nodes other found hfound := by
    rw [Cluster.servers_update, Std.ExtTreeMap.getElem?_insert] at hfound
    split at hfound
    · cases hfound
      exact hnode
    · exact hplaces.nodes other found hfound
  storage other found hfound := by
    rw [Cluster.servers_update, Std.ExtTreeMap.getElem?_insert] at hfound
    split at hfound
    · cases hfound
      exact hstorage
    · exact hplaces.storage other found hfound
  network envelope hmem := by
    rcases List.mem_append.mp hmem with hmem | hmem
    · exact hplaces.network envelope hmem
    · exact hsent _ _ (mem_sent hmem).2

/-- A storage that stands for a node without snapshot has its whole log. -/
theorem Backs.places {storage : Storage} (hbacks : Backs storage node.durable)
    (hboundary : node.snapshot.lastIncludedIndex = 0) :
    node.Places Q ↔
      ∀ position entry, storage.log[position]? = some entry → Q (position + 1) entry := by
  obtain ⟨data, learners, hmirrors⟩ := hbacks
  have hlog : storage.log = node.log := hmirrors.log
  rw [hlog]
  constructor
  · intro hplaces position entry hentry
    exact hplaces _ entry (Node.entryAt_eq_some.mpr ⟨position, by omega, hentry⟩)
  · intro hstored index entry hentry
    obtain ⟨position, rfl, hfound⟩ := Node.entryAt_eq_some.mp hentry
    rw [hboundary, Nat.zero_add]
    exact hstored position entry hfound

/-- What holds where commands are taken in holds wherever they get to. -/
theorem Cluster.Places.step {h' : Ghost} {action : Action} (hplaces : cluster.Places Q)
    (hin : cluster.Within IsCommand) (hsteady : cluster.Serving Node.Steady action)
    (hadmits : cluster.Admits Q action) (hstep : cluster.step action = some cluster')
    (hrel' : ClusterRel cluster' h') (hin' : cluster'.Within IsCommand) :
    cluster'.Places Q := by
  cases action with
  | perform id operation =>
      obtain ⟨server, node, node', effects, storage, hserver, hnode, hdelivers, hperform,
        happly, rfl⟩ := Cluster.step_perform hstep
      have hfound := Cluster.node_of_server hserver hnode
      have hplaces' : node'.Places Q := by
        refine perform_places (hplaces.nodes id server hserver node hnode)
          (hin.nodes id server hserver node hnode) (hsteady hdelivers node hfound) ?_ ?_
          hperform
        · rintro sender message rfl
          refine ⟨hin.delivered hdelivers sender message rfl, ?_⟩
          have hmem : (⟨sender, id, message⟩ : Envelope) ∈ cluster.network := by
            simpa [Cluster.delivers] using hdelivers
          exact hplaces.network _ hmem
        · rintro command rfl hrole
          exact hadmits node hfound hrole
      have hserver' : (cluster.update id ⟨some node', storage⟩ effects).servers[id]? =
          some ⟨some node', storage⟩ := by
        rw [Cluster.servers_update, Std.ExtTreeMap.getElem?_insert_self]
      obtain ⟨-, -, hbacks⟩ := (hrel'.servers id _ hserver').node node' rfl
      have hboundary := (hin'.nodes id _ hserver' node' rfl).boundary
      refine hplaces.update (fun found hsame => ?_) ((hbacks.places hboundary).mp hplaces')
        (fun receiver message hmem => hplaces'.sent (Node.perform_owes hperform) hmem)
      cases hsame
      exact hplaces'
  | interrupt id operation written => exact hadmits.elim
  | crash id =>
      obtain ⟨server, hserver, rfl⟩ := Cluster.step_crash hstep
      exact hplaces.update (by simp) (hplaces.storage id server hserver) (by simp)
  | restart id electionTimeout heartbeatInterval =>
      obtain ⟨server, node, hserver, -, rfl⟩ := Cluster.step_restart hstep
      have hserver' : (cluster.update id ⟨some node, server.storage⟩ []).servers[id]? =
          some ⟨some node, server.storage⟩ := by
        rw [Cluster.servers_update, Std.ExtTreeMap.getElem?_insert_self]
      obtain ⟨-, -, hbacks⟩ := (hrel'.servers id _ hserver').node node rfl
      have hboundary := (hin'.nodes id _ hserver' node rfl).boundary
      have hstored := hplaces.storage id server hserver
      refine hplaces.update (fun found hsame => ?_) hstored (by simp)
      cases hsame
      exact (hbacks.places hboundary).mpr hstored

end Kurogane.Sim
