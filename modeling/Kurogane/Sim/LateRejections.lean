import Kurogane.Raft.PeerProgress
import Kurogane.Sim.Cluster

/-!
A rejection that arrives late. An acknowledgement raises a peer's indexes to
the larger of what is known and what is said, so a late one changes nothing. A
rejection lowers the next index whatever is known; once the peer has
acknowledged the index before it, that goes back behind the acknowledgement.
-/

namespace Kurogane.Raft.Node

/-- `node` comes from `start` by requests that meet `ok` when they are served. -/
def Reaches (ok : Node → Operation → Prop) : Node → Node → Prop :=
  Relation.ReflTransGen (fun node node' =>
    ∃ operation effects, ok node operation ∧
      node.perform operation = some (node', effects))

theorem Reaches.invariant {ok : Node → Operation → Prop} {Inv : Node → Prop}
    {start node : Node}
    (hstep : ∀ n operation n' effects, Inv n → ok n operation →
      n.perform operation = some (n', effects) → Inv n')
    (hrun : Reaches ok start node) (h : Inv start) : Inv node := by
  induction hrun with
  | refl => exact h
  | tail _ hlast ih =>
      obtain ⟨operation, effects, hok, hperform⟩ := hlast
      exact hstep _ operation _ effects ih hok hperform

/-- Serves requests as long as each meets `ok`. -/
def serveAll (ok : Node → Operation → Prop) [∀ node, DecidablePred (ok node)]
    (node : Node) (operations : List Operation) : Option Node :=
  operations.foldlM (fun node operation =>
    if ok node operation then (node.perform operation).map Prod.fst else none) node

theorem Reaches.of_serveAll {ok : Node → Operation → Prop}
    [∀ node, DecidablePred (ok node)] {operations : List Operation} :
    ∀ {start node : Node}, start.serveAll ok operations = some node →
      Reaches ok start node := by
  induction operations with
  | nil =>
      intro start node h
      cases h
      exact .refl
  | cons operation rest ih =>
      intro start node h
      obtain ⟨middle, hmiddle, h⟩ := Option.bind_eq_some_iff.mp h
      simp only [Option.ite_none_right_eq_some] at hmiddle
      obtain ⟨⟨next, effects⟩, hperform, rfl⟩ := Option.map_eq_some_iff.mp hmiddle.2
      exact .head ⟨operation, effects, hmiddle.1, hperform⟩ (ih h)

/-- A rejection the leader takes for news of the peer's log finds its next index
more than one above what the peer has acknowledged, if it has anything. -/
def BacksOffAbove (node : Node) : Operation → Prop
  | .receive sender (.appendEntriesResponse response) =>
      node.isMember sender = true → node.role = .leader →
        response.term = node.currentTerm → response.success = false →
        ∀ matched ∈ node.matchIndex[sender]?, ∀ next ∈ node.nextIndex[sender]?,
          matched = 0 ∨ matched + 1 < next
  | _ => True

instance (node : Node) : DecidablePred node.BacksOffAbove := fun operation =>
  match operation with
  | .receive _ (.appendEntriesResponse _) => inferInstanceAs (Decidable (_ → _))
  | .receive _ (.requestVote _) | .receive _ (.requestVoteResponse _)
  | .receive _ (.appendEntries _) | .receive _ (.installSnapshot _)
  | .receive _ (.installSnapshotResponse _) | .tick _ | .propose _
  | .proposeConfigChange _ | .addLearner _ | .removeLearner _ | .compact _ _ =>
      inferInstanceAs (Decidable True)

/-- The next index of every tracked peer is above what it has acknowledged. -/
def Ahead (node : Node) : Prop :=
  ∀ (peer : NodeId) (matched next : Nat), node.matchIndex[peer]? = some matched →
    node.nextIndex[peer]? = some next → matched < next

/-- What keeps a leader ahead: the peers with an acknowledged index are among
those with a next one, which is never zero. -/
structure Paced (node : Node) : Prop where
  ahead : node.Ahead
  known : ∀ (peer : NodeId) (matched : Nat), node.matchIndex[peer]? = some matched →
    (node.nextIndex[peer]?).isSome = true
  next : ∀ (peer : NodeId) (next : Nat), node.nextIndex[peer]? = some next → 0 < next

variable {node node' : Node} {effects : List Effect}

theorem Paced.of_same (h : node.Paced) (hnext : node'.nextIndex = node.nextIndex)
    (hmatch : node'.matchIndex = node.matchIndex) : node'.Paced := by
  constructor
  · unfold Ahead
    rw [hnext, hmatch]
    exact h.ahead
  · rw [hnext, hmatch]
    exact h.known
  · rw [hnext]
    exact h.next

theorem getElem?_foldl_insert_empty {targets : List NodeId} {value found : Nat}
    {peer : NodeId} (h : (targets.foldl (fun progress peer =>
      progress.insert peer value) (∅ : Progress))[peer]? = some found) :
    found = value ∧ peer ∈ targets := by
  have hvalue : found = value := by
    rcases foldl_insert_const _ _ _ h with heq | hempty
    · exact heq
    · rw [Std.ExtTreeMap.getElem?_empty] at hempty
      cases hempty
  refine ⟨hvalue, ?_⟩
  by_contra hno
  have hnone : ∀ (rest : List NodeId) (progress : Progress), peer ∉ rest →
      (rest.foldl (fun progress peer => progress.insert peer value) progress)[peer]? =
        progress[peer]? := by
    intro rest
    induction rest with
    | nil => exact fun _ _ => rfl
    | cons target rest ih =>
        intro progress hout
        rw [List.mem_cons, not_or] at hout
        obtain ⟨hne, hrest⟩ := hout
        rw [List.foldl_cons, ih _ hrest, Std.ExtTreeMap.getElem?_insert, if_neg]
        intro heq
        exact hne (Std.LawfulEqCmp.eq_of_compare heq).symm
  rw [hnone targets ∅ hno, Std.ExtTreeMap.getElem?_empty] at h
  cases h

theorem paced_seeded {targets : List NodeId} {next : Nat}
    (hnext : node.nextIndex =
      targets.foldl (fun progress peer => progress.insert peer (next + 1)) ∅)
    (hmatch : node.matchIndex =
      targets.foldl (fun progress peer => progress.insert peer 0) ∅) : node.Paced := by
  constructor
  · intro peer matched found hmatched hfound
    rw [hmatch] at hmatched
    rw [hnext] at hfound
    rw [(getElem?_foldl_insert_empty hmatched).1, (getElem?_foldl_insert_empty hfound).1]
    exact Nat.succ_pos _
  · intro peer matched hmatched
    rw [hmatch] at hmatched
    rw [hnext, getElem?_foldl_insert (getElem?_foldl_insert_empty hmatched).2]
    rfl
  · intro peer found hfound
    rw [hnext] at hfound
    rw [(getElem?_foldl_insert_empty hfound).1]
    exact Nat.succ_pos _

/-- A new learner starts at the end of the log with nothing acknowledged. -/
theorem Paced.joined (h : node.Paced) {id : NodeId} {next : Nat}
    (hnext : node'.nextIndex = node.nextIndex.insertIfNew id (next + 1))
    (hmatch : node'.matchIndex = node.matchIndex.insertIfNew id 0) : node'.Paced := by
  have hpos : ∀ (peer : NodeId) (found : Nat), node'.nextIndex[peer]? = some found →
      0 < found := by
    intro peer found hfound
    rw [hnext] at hfound
    rcases getElem?_insertIfNew_cases hfound with rfl | hold
    · exact Nat.succ_pos _
    · exact h.next peer found hold
  refine ⟨?_, ?_, hpos⟩
  · intro peer matched found hmatched hfound
    have hfresh := hpos peer found hfound
    rw [hmatch] at hmatched
    rcases getElem?_insertIfNew_cases hmatched with rfl | hold
    · exact hfresh
    · obtain ⟨known, hknown⟩ := Option.isSome_iff_exists.mp (h.known peer matched hold)
      rw [hnext, Std.ExtTreeMap.getElem?_insertIfNew, if_neg, hknown] at hfound
      · cases hfound
        exact h.ahead peer matched _ hold hknown
      · rintro ⟨heq, hno⟩
        rw [Std.LawfulEqCmp.eq_of_compare heq, Std.ExtTreeMap.mem_iff_isSome_getElem?,
          hknown] at hno
        exact hno rfl
  · intro peer matched hmatched
    rw [hnext]
    apply isSome_insertIfNew
    rw [hmatch, Std.ExtTreeMap.getElem?_insertIfNew] at hmatched
    split at hmatched
    · rename_i heq
      exact Or.inl (Std.LawfulEqCmp.eq_of_compare heq.1).symm
    · exact Or.inr (h.known peer matched hmatched)

/-- The next index of one peer moves to `next`, above what it has acknowledged. -/
theorem Paced.moved (h : node.Paced) {peer : NodeId} {next : Nat}
    (hnext : node'.nextIndex = node.nextIndex.insert peer next)
    (hpeer : ∀ matched, node'.matchIndex[peer]? = some matched → matched < next)
    (hothers : ∀ other : NodeId, other ≠ peer →
      node'.matchIndex[other]? = node.matchIndex[other]?)
    (hpos : 0 < next) : node'.Paced := by
  have hfind : ∀ other : NodeId, other ≠ peer →
      node'.nextIndex[other]? = node.nextIndex[other]? := by
    intro other hne
    rw [hnext, Std.ExtTreeMap.getElem?_insert, if_neg]
    intro heq
    exact hne (Std.LawfulEqCmp.eq_of_compare heq).symm
  have hself : node'.nextIndex[peer]? = some next := by
    rw [hnext, Std.ExtTreeMap.getElem?_insert_self]
  constructor
  · intro other matched found hmatched hfound
    by_cases heq : other = peer
    · rw [heq] at hmatched hfound
      rw [hself] at hfound
      cases hfound
      exact hpeer matched hmatched
    · rw [hothers other heq] at hmatched
      rw [hfind other heq] at hfound
      exact h.ahead other matched found hmatched hfound
  · intro other matched hmatched
    by_cases heq : other = peer
    · rw [heq, hself]
      rfl
    · rw [hothers other heq] at hmatched
      rw [hfind other heq]
      exact h.known other matched hmatched
  · intro other found hfound
    by_cases heq : other = peer
    · rw [heq, hself] at hfound
      cases hfound
      exact hpos
    · rw [hfind other heq] at hfound
      exact h.next other found hfound

theorem Paced.step {operation : Operation} (h : node.role = .leader → node.Paced)
    (hok : node.BacksOffAbove operation)
    (hperform : node.perform operation = some (node', effects))
    (hrole : node'.role = .leader) : node'.Paced := by
  cases perform_progress hperform hrole with
  | kept hleader hnext hmatch => exact (h hleader).of_same hnext hmatch
  | seeded targets next hnext hmatch => exact paced_seeded hnext hmatch
  | joined next hleader hnext hmatch => exact (h hleader).joined hnext hmatch
  | @acknowledged sender message matched hleader hnext hmatch =>
      apply (h hleader).moved hnext
      · intro found hfound
        rw [hmatch, Std.ExtTreeMap.getElem?_insert_self] at hfound
        cases hfound
        exact Nat.lt_succ_self _
      · intro other hne
        rw [hmatch, Std.ExtTreeMap.getElem?_insert, if_neg]
        intro heq
        exact hne (Std.LawfulEqCmp.eq_of_compare heq).symm
      · exact Nat.succ_pos _
  | backedOff next hmember hleader hterm hrejected hknown hnext hmatch =>
      apply (h hleader).moved hnext
      · intro matched hmatched
        rw [hmatch] at hmatched
        have habove := hok hmember hleader hterm hrejected matched hmatched next hknown
        omega
      · intro other _
        rw [hmatch]
      · omega

theorem not_backsOffAbove {operation : Operation} (h : ¬ node.BacksOffAbove operation) :
    ∃ sender response matched next,
      operation = .receive sender (.appendEntriesResponse response) ∧
      node.isMember sender = true ∧ node.role = .leader ∧
      response.term = node.currentTerm ∧ response.success = false ∧
      node.matchIndex[sender]? = some matched ∧ node.nextIndex[sender]? = some next ∧
      matched ≠ 0 ∧ next ≤ matched + 1 := by
  unfold BacksOffAbove at h
  split at h
  · rename_i sender response
    simp only [Classical.not_imp, not_forall, not_or, Nat.not_lt] at h
    obtain ⟨hmember, hleader, hterm, hrejected, matched, hmatched, next, hnext, hpos,
      hnear⟩ := h
    exact ⟨sender, response, matched, next, rfl, hmember, hleader, hterm, hrejected,
      hmatched, hnext, hpos, hnear⟩
  · exact absurd trivial h

/-- A leader takes a rejection of its term for news, whenever it was sent. -/
theorem onAppendEntriesResponse_rejected {sender : NodeId}
    {response : AppendEntriesResponse} {next : Nat} (hleader : node.role = .leader)
    (hterm : response.term = node.currentTerm) (hrejected : response.success = false)
    (hnext : node.nextIndex[sender]? = some next)
    (h : node.onAppendEntriesResponse sender response = some (node', effects)) :
    node' = { node with
      nextIndex := node.nextIndex.insert sender (max (next - 1) 1) } := by
  unfold onAppendEntriesResponse at h
  rw [if_neg (by omega), if_neg (by simp [hterm, hleader]), if_neg (by simp [hrejected])] at h
  obtain ⟨found, hfound, h⟩ := Option.bind_eq_some_iff.mp h
  obtain ⟨more, -, h⟩ := Option.bind_eq_some_iff.mp h
  rw [hnext] at hfound
  cases hfound
  cases h
  rfl

theorem Built.follows (h : Built node) : node.role = .follower := by
  cases h with
  | new hnew => exact (recover_ok hnew).2.2.1
  | recover hrecover => exact (recover_ok hrecover).2.2.1
  | newLearner hlearner => exact (newLearner_ok hlearner).2.1

/-- In a run whose rejections meet the condition, a leader stays ahead of what
its peers have acknowledged: it sends them neither that again nor, unless its
snapshot reaches further, its snapshot. A rejection that does not meet the
condition takes the next index back to the acknowledged one. -/
theorem leaders_stay_ahead {start : Node} (hstart : Built start)
    (hrun : Reaches BacksOffAbove start node) :
    (node.role = .leader → node.Ahead) ∧
      ∀ operation node' effects, node.perform operation = some (node', effects) →
        (node.BacksOffAbove operation → node'.role = .leader →
          ∀ receiver message, .send receiver message ∈ effects →
          ∀ matched, node'.matchIndex[receiver]? = some matched →
            (∀ request, message = .appendEntries request →
              matched ≤ request.prevLogIndex) ∧
            ∀ request, message = .installSnapshot request →
              matched < node'.snapshot.lastIncludedIndex) ∧
        (¬ node.BacksOffAbove operation → node'.role = .leader ∧ ¬ node'.Ahead) := by
  have hpaced : node.role = .leader → node.Paced := by
    apply hrun.invariant (fun n operation n' effects hn hok hperform => Paced.step hn hok hperform)
    intro hleads
    rw [hstart.follows] at hleads
    cases hleads
  refine ⟨fun hleader => (hpaced hleader).ahead, ?_⟩
  intro operation node' effects hperform
  constructor
  · intro hok hrole receiver message hmem matched hmatched
    have hafter := Paced.step hpaced hok hperform hrole
    have howes := perform_owes hperform receiver message hmem
    constructor
    · rintro request rfl
      obtain ⟨next, hnext, hsend⟩ := Option.bind_eq_some_iff.mp (howes rfl)
      have hlt := hafter.ahead receiver matched next hmatched hnext
      split at hsend
      · cases hsend
      · obtain ⟨entries, -, hsend⟩ := Option.bind_eq_some_iff.mp hsend
        cases hsend
        exact Nat.le_sub_one_of_lt hlt
    · rintro request rfl
      obtain ⟨next, hnext, hsend⟩ := Option.bind_eq_some_iff.mp (howes rfl)
      have hlt := hafter.ahead receiver matched next hmatched hnext
      split at hsend
      · rename_i hbelow
        exact lt_of_lt_of_le hlt hbelow
      · obtain ⟨entries, -, hsend⟩ := Option.bind_eq_some_iff.mp hsend
        cases hsend
  · intro hno
    obtain ⟨sender, response, matched, next, rfl, hmember, hleader, hterm, hrejected,
      hmatched, hnext, hpos, hnear⟩ := not_backsOffAbove hno
    have hlt := (hpaced hleader).ahead sender matched next hmatched hnext
    have hstep : node.step (.step sender (.appendEntriesResponse response)) =
        some (node', effects) := hperform
    simp only [step, hmember, Bool.not_true, Bool.false_eq_true, if_false] at hstep
    have hback := onAppendEntriesResponse_rejected hleader hterm hrejected hnext hstep
    constructor
    · rw [hback]
      exact hleader
    · intro hahead
      have hafter : node'.nextIndex[sender]? = some (max (next - 1) 1) := by
        rw [hback, Std.ExtTreeMap.getElem?_insert_self]
      have hkept : node'.matchIndex[sender]? = some matched := by
        rw [hback]
        exact hmatched
      have habove := hahead sender matched _ hkept hafter
      omega

/-- The second server rejects what the new leader takes it to have. -/
def rejectedOnce : List Operation :=
  [.tick 1, .receive ⟨2⟩ (.requestVoteResponse ⟨1, true⟩), .propose [7],
    .receive ⟨2⟩ (.appendEntriesResponse ⟨1, false, 0⟩)]

theorem rejected_leader_stays_ahead : ∃ start node : Node,
    new ⟨1⟩ [⟨1⟩, ⟨2⟩] 1 1 = .ok start ∧ Reaches BacksOffAbove start node ∧
      node.role = .leader ∧ node.matchIndex[(⟨2⟩ : NodeId)]? = some 0 ∧ node.Ahead := by
  have hcheck : ((new ⟨1⟩ [⟨1⟩, ⟨2⟩] 1 1).toOption.bind (fun start =>
      (start.serveAll BacksOffAbove rejectedOnce).map (fun node =>
        decide (node.role = .leader ∧
          node.matchIndex[(⟨2⟩ : NodeId)]? = some 0)))) = some true := by
    decide +kernel
  obtain ⟨start, hstart, hcheck⟩ := Option.bind_eq_some_iff.mp hcheck
  obtain ⟨node, hserved, hcheck⟩ := Option.map_eq_some_iff.mp hcheck
  obtain ⟨hrole, hmatched⟩ := of_decide_eq_true hcheck
  have hnew := ok_of_toOption hstart
  have hrun := Reaches.of_serveAll hserved
  exact ⟨start, node, hnew, hrun, hrole, hmatched,
    (leaders_stay_ahead (.new hnew) hrun).1 hrole⟩

end Kurogane.Raft.Node

namespace Kurogane.Sim

open Kurogane.Raft

/-- Node one leads in term one, takes in a command, restarts and leads again. -/
def leadsAgain : List Action :=
  [.perform ⟨1⟩ (.tick 1),
    .perform ⟨2⟩ (.receive ⟨1⟩ (.requestVote ⟨1, ⟨1⟩, 0, 0⟩)),
    .perform ⟨1⟩ (.receive ⟨2⟩ (.requestVoteResponse ⟨1, true⟩)),
    .perform ⟨1⟩ (.propose [7]), .crash ⟨1⟩, .restart ⟨1⟩ 1 1,
    .perform ⟨1⟩ (.tick 1),
    .perform ⟨2⟩ (.receive ⟨1⟩ (.requestVote ⟨2, ⟨1⟩, 1, 1⟩)),
    .perform ⟨1⟩ (.receive ⟨2⟩ (.requestVoteResponse ⟨2, true⟩))]

def rejection : Operation := .receive ⟨2⟩ (.appendEntriesResponse ⟨2, false, 0⟩)

/-- Node two rejects once, then acknowledges two entries; node one compacts. -/
def acknowledgedAfterRejection : List Action :=
  [.perform ⟨2⟩ (.receive ⟨1⟩ (.appendEntries ⟨2, ⟨1⟩, 1, 1, [], 0⟩)),
    .perform ⟨1⟩ rejection,
    .perform ⟨2⟩ (.receive ⟨1⟩ (.appendEntries
      ⟨2, ⟨1⟩, 0, 0, [⟨1, .command [7]⟩], 0⟩)),
    .perform ⟨1⟩ (.receive ⟨2⟩ (.appendEntriesResponse ⟨2, true, 1⟩)),
    .perform ⟨1⟩ (.propose [8]), .perform ⟨1⟩ (.tick 1),
    .perform ⟨2⟩ (.receive ⟨1⟩ (.appendEntries
      ⟨2, ⟨1⟩, 1, 1, [⟨2, .command [8]⟩], 0⟩)),
    .perform ⟨1⟩ (.receive ⟨2⟩ (.appendEntriesResponse ⟨2, true, 2⟩)),
    .perform ⟨1⟩ (.compact 2 [7, 8])]

/-- A second copy of the rejection takes the next index back to the
acknowledged one, and the snapshot is sent to a peer that holds all of it. -/
theorem duplicate_rejection_sends_the_snapshot : ∃ start now later : Cluster,
    Cluster.boot [⟨1⟩, ⟨2⟩] [(⟨1⟩, 1, 1), (⟨2⟩, 9, 1)] = .ok start ∧
      Run (fun _ _ => True) start now ∧ Run (fun _ _ => True) now later ∧
      now.step (.perform ⟨1⟩ rejection) = some later ∧
      (∃ leader ∈ later.node ⟨1⟩, leader.role = .leader ∧ ¬ leader.Ahead ∧
        leader.matchIndex[(⟨2⟩ : NodeId)]? = some leader.snapshot.lastIncludedIndex) ∧
      ∃ request, ⟨⟨1⟩, ⟨2⟩, .installSnapshot request⟩ ∈ later.network ∧
        ⟨⟨1⟩, ⟨2⟩, .installSnapshot request⟩ ∉ now.network := by
  obtain ⟨start, now, later, hboot, hnow, hlater, hstep, hleader, hsent⟩ :=
    Run.of_check (fun _ _ => True) [⟨1⟩, ⟨2⟩] [(⟨1⟩, 1, 1), (⟨2⟩, 9, 1)]
      (leadsAgain ++ acknowledgedAfterRejection) [.perform ⟨1⟩ rejection]
      (fun _ now later => now.step (.perform ⟨1⟩ rejection) = some later ∧
        (∃ leader ∈ later.node ⟨1⟩, leader.role = .leader ∧
          leader.snapshot.lastIncludedIndex = 2 ∧
          leader.matchIndex[(⟨2⟩ : NodeId)]? = some 2 ∧
          leader.nextIndex[(⟨2⟩ : NodeId)]? = some 2) ∧
        ⟨⟨1⟩, ⟨2⟩, .installSnapshot
            ⟨2, ⟨1⟩, 2, 2, [7, 8], ⟨[⟨1⟩, ⟨2⟩], none⟩⟩⟩ ∈ later.network ∧
        ⟨⟨1⟩, ⟨2⟩, .installSnapshot
            ⟨2, ⟨1⟩, 2, 2, [7, 8], ⟨[⟨1⟩, ⟨2⟩], none⟩⟩⟩ ∉ now.network)
      (by decide +kernel)
  obtain ⟨leader, hnode, hrole, hboundary, hmatched, hnext⟩ := hleader
  refine ⟨start, now, later, hboot, hnow, hlater, hstep, ⟨leader, hnode, hrole, ?_, ?_⟩,
    _, hsent⟩
  · intro hahead
    exact Nat.lt_irrefl 2 (hahead ⟨2⟩ 2 2 hmatched hnext)
  · rw [hmatched, hboundary]

end Kurogane.Sim
