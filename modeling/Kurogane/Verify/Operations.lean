import Kurogane.Kv.Boundaries
import Kurogane.Sim.Relation
import Kurogane.Verify.Harness
import Kurogane.Verify.Histories
import Mathlib.Data.List.FinRange

/-!
The operations of clients against the replicated log. A leader puts the entry of an
operation behind all it holds, so index and term tell operations apart. What a client
has been answered is what a committed log answers; of such logs one goes furthest,
and its commands, first to last, are an order that explains all answers.
-/

namespace Kurogane.Verify

open Kurogane.Raft Kurogane.Kv Kurogane.Consensus
open Kurogane.Sim (Ghost membership)

/-- The log entry of an operation. -/
def PendingOp.entry (op : PendingOp) : LogEntry :=
  ⟨op.term, .command op.command.encode⟩

/-- The leader of its term has the operation where the harness was told. -/
def PendingOp.Issued (h : Ghost) (op : PendingOp) : Prop :=
  0 < op.index ∧ ∃ n, h.Elected op.term n ∧
    (h.leaderLog op.term n)[op.index - 1]? = some op.entry

/-- The operation is the next of a leader. -/
def PendingOp.Next (h : Ghost) (op : PendingOp) : Prop :=
  ∃ n, h.Elected op.term n ∧ op.index = (h.leaderLog op.term n).length + 1

/-- A committed log, all of whose entries are those of operations. -/
structure Attested (h : Ghost) (ops : List PendingOp) (log : List LogEntry) : Prop where
  committed : h.Committed log
  placed : ∀ position entry, log[position]? = some entry →
    ∃ op ∈ ops, op.index = position + 1 ∧ op.entry = entry

/-- `result` is what `log` answers to the operation. -/
def Explains (log : List LogEntry) (op : PendingOp) (result : ApplyResult) : Prop :=
  log[op.index - 1]? = some op.entry ∧ StateMachine.resultAt log op.index = some result

/-- Something else has been committed where the operation was to be. -/
def Overtaken (h : Ghost) (op : PendingOp) : Prop :=
  ∃ log entry, h.Committed log ∧ log[op.index - 1]? = some entry ∧ entry.term ≠ op.term

/-- The same on record, with `read` of its command. -/
def HistoryEntry.reading (read : Command → Command) (entry : HistoryEntry) : HistoryEntry :=
  { entry with command := read entry.command }

/-- What has gone on record, each answer with its operation, if the harness had one. -/
abbrev Filed := List (HistoryEntry × Option PendingOp)

/-- The books of a harness: `ops` are all operations that a leader has taken in. -/
structure Ledger (h : Ghost) (ops : List PendingOp) (filed : Filed) : Prop where
  issued : ∀ op ∈ ops, op.Issued h
  distinct : ∀ a ∈ ops, ∀ b ∈ ops, a.index = b.index → a.term = b.term → a = b
  nodup : ops.Nodup
  rejected : ∀ entry, (entry, none) ∈ filed → entry.outcome = .rejected
  answered : ∀ entry op, (entry, some op) ∈ filed → op ∈ ops ∧
    entry.invokeTick = op.invokeTick ∧ entry.command = op.command ∧
    entry.outcome ≠ .rejected
  explained : ∀ entry op result, (entry, some op) ∈ filed →
    entry.outcome = .applied result → ∃ log, Attested h ops log ∧ Explains log op result
  realTime : ∀ entry op result finish, (entry, some op) ∈ filed →
    entry.outcome = .applied result → entry.returnTick = some finish →
    ∀ other ∈ ops, finish ≤ other.invokeTick →
      op.index < other.index ∨ Overtaken h other

section

variable {initial : ClusterConfig} {h h' : Ghost} {ops : List PendingOp} {filed : Filed}
  {op : PendingOp} {log : List LogEntry} {result : ApplyResult}

theorem PendingOp.Issued.later (hissued : op.Issued h) (ext : h.Extends h') :
    op.Issued h' := by
  obtain ⟨hpos, n, hn, hentry⟩ := hissued
  obtain ⟨rest, hrest⟩ := ext.leaderLog _ _ hn
  refine ⟨hpos, n, ext.elected hn, ?_⟩
  rw [← hrest, List.getElem?_append_left (List.getElem?_eq_some_iff.mp hentry).1, hentry]

/-- An entry of a committed log with the index and term of an operation is its own. -/
theorem PendingOp.Issued.entry_eq (hissued : op.Issued h)
    (s : h.Sound (membership initial)) (hlog : h.Committed log) {entry : LogEntry}
    (hentry : log[op.index - 1]? = some entry) (hterm : entry.term = op.term) :
    entry = op.entry := by
  obtain ⟨-, n, hn, hown⟩ := hissued
  obtain ⟨m, hm, hfound⟩ := s.committed_entry hlog hentry
  have hterm : (membership initial).term entry = op.term := hterm
  rw [hterm] at hm hfound
  rw [s.elected_unique hm hn, hown] at hfound
  exact (Option.some.inj hfound).symm

theorem Attested.later (hlog : Attested h ops log) (ext : h.Extends h')
    (more : List PendingOp) : Attested h' (ops ++ more) log where
  committed := ext.committed hlog.committed
  placed position entry hentry := by
    obtain ⟨op, hop, hindex, hsame⟩ := hlog.placed position entry hentry
    exact ⟨op, List.mem_append_left _ hop, hindex, hsame⟩

theorem Overtaken.later (hover : Overtaken h op) (ext : h.Extends h') :
    Overtaken h' op := by
  obtain ⟨log, entry, hlog, hentry, hterm⟩ := hover
  exact ⟨log, entry, ext.committed hlog, hentry, hterm⟩

theorem Explains.mono {more : List LogEntry} (hexplains : Explains log op result)
    (hinit : log <+: more) : Explains more op result := by
  obtain ⟨rest, rfl⟩ := hinit
  refine ⟨?_, StateMachine.resultAt_append hexplains.2 rest⟩
  rw [List.getElem?_append_left (List.getElem?_eq_some_iff.mp hexplains.1).1, hexplains.1]

/-- Nobody has the index and term of the next operation of a leader. -/
theorem PendingOp.Next.fresh {other : PendingOp} (hnext : op.Next h)
    (s : h.Sound (membership initial)) (hissued : other.Issued h)
    (hindex : other.index = op.index) : other.term ≠ op.term := by
  intro hterm
  obtain ⟨n, hn, hlength⟩ := hnext
  obtain ⟨hpos, m, hm, hentry⟩ := hissued
  rw [hterm] at hm hentry
  rw [s.elected_unique hm hn] at hentry
  have hlt := (List.getElem?_eq_some_iff.mp hentry).1
  omega

/-- The next operation of a leader comes behind what has been committed, or is lost. -/
theorem PendingOp.Next.behind (hnext : op.Next h) (s : h.Sound (membership initial))
    (hlog : h.Committed log) : log.length < op.index ∨ Overtaken h op := by
  obtain ⟨n, hn, hindex⟩ := hnext
  rcases Nat.lt_or_ge log.length op.index with hlt | hge
  · exact Or.inl hlt
  · have hinside : op.index - 1 < log.length := by omega
    refine Or.inr ⟨log, log[op.index - 1], hlog, List.getElem?_eq_getElem hinside, ?_⟩
    intro hterm
    obtain ⟨m, hm, hfound⟩ := s.committed_entry hlog (List.getElem?_eq_getElem hinside)
    have hterm : (membership initial).term log[op.index - 1] = op.term := hterm
    rw [hterm] at hm hfound
    rw [s.elected_unique hm hn] at hfound
    have hlt := (List.getElem?_eq_some_iff.mp hfound).1
    omega

end

namespace Ledger

variable {initial : ClusterConfig} {h h' : Ghost} {ops : List PendingOp} {filed : Filed}
  {op : PendingOp}

theorem empty : Ledger h [] [] where
  issued := nofun
  distinct := nofun
  nodup := List.nodup_nil
  rejected := nofun
  answered := nofun
  explained := nofun
  realTime := nofun

theorem later (ledger : Ledger h ops filed) (ext : h.Extends h') : Ledger h' ops filed where
  issued op hop := (ledger.issued op hop).later ext
  distinct := ledger.distinct
  nodup := ledger.nodup
  rejected := ledger.rejected
  answered := ledger.answered
  explained entry op result hmem happlied := by
    obtain ⟨log, hlog, hexplains⟩ := ledger.explained entry op result hmem happlied
    refine ⟨log, ?_, hexplains⟩
    rw [← List.append_nil ops]
    exact hlog.later ext []
  realTime entry op result finish hmem happlied hreturn other hother hbefore :=
    (ledger.realTime entry op result finish hmem happlied hreturn other hother hbefore).imp_right
      (fun hover => hover.later ext)

/-- A leader takes an operation in. -/
theorem take (ledger : Ledger h ops filed) (s : h.Sound (membership initial))
    (hnext : op.Next h) (ext : h.Extends h') (hissued : op.Issued h') :
    Ledger h' (ops ++ [op]) filed where
  issued other hother := by
    rcases List.mem_append.mp hother with hold | hnew
    · exact (ledger.issued other hold).later ext
    · rw [List.mem_singleton.mp hnew]
      exact hissued
  distinct a ha b hb hindex hterm := by
    have hfresh : ∀ other ∈ ops, other.index = op.index → other.term ≠ op.term :=
      fun other hother hsame => hnext.fresh s (ledger.issued other hother) hsame
    rcases List.mem_append.mp ha with hold | hnew <;>
      rcases List.mem_append.mp hb with hold' | hnew'
    · exact ledger.distinct a hold b hold' hindex hterm
    · obtain rfl := List.mem_singleton.mp hnew'
      exact absurd hterm (hfresh a hold hindex)
    · obtain rfl := List.mem_singleton.mp hnew
      exact absurd hterm.symm (hfresh b hold' hindex.symm)
    · rw [List.mem_singleton.mp hnew, List.mem_singleton.mp hnew']
  nodup := by
    refine List.nodup_append.mpr ⟨ledger.nodup, List.nodup_singleton op, ?_⟩
    rintro other hother found hfound rfl
    rw [List.mem_singleton.mp hfound] at hother
    exact hnext.fresh s (ledger.issued op hother) rfl rfl
  rejected := ledger.rejected
  answered entry other hmem := by
    obtain ⟨hother, hrest⟩ := ledger.answered entry other hmem
    exact ⟨List.mem_append_left _ hother, hrest⟩
  explained entry other result hmem happlied := by
    obtain ⟨log, hlog, hexplains⟩ := ledger.explained entry other result hmem happlied
    exact ⟨log, hlog.later ext [op], hexplains⟩
  realTime entry other result finish hmem happlied hreturn last hlast hbefore := by
    rcases List.mem_append.mp hlast with hold | hnew
    · exact (ledger.realTime entry other result finish hmem happlied hreturn last hold
        hbefore).imp_right (fun hover => hover.later ext)
    · rw [List.mem_singleton.mp hnew]
      obtain ⟨log, hlog, hexplains⟩ := ledger.explained entry other result hmem happlied
      have hheld := (List.getElem?_eq_some_iff.mp hexplains.1).1
      rcases hnext.behind s hlog.committed with hlt | hover
      · exact Or.inl (by omega)
      · exact Or.inr (hover.later ext)

/-- Something goes on record that is no operation's, or an answer that is right, at a
time after which no operation has been invoked. -/
theorem file (ledger : Ledger h ops filed) {entry : HistoryEntry} {own : Option PendingOp}
    (hnone : own = none → entry.outcome = .rejected)
    (hsome : ∀ op, own = some op → op ∈ ops ∧ entry.invokeTick = op.invokeTick ∧
      entry.command = op.command ∧ entry.outcome ≠ .rejected ∧
      ∀ result, entry.outcome = .applied result →
        (∃ log, Attested h ops log ∧ Explains log op result) ∧
        ∀ finish, entry.returnTick = some finish → ∀ other ∈ ops, other.invokeTick < finish) :
    Ledger h ops (filed ++ [(entry, own)]) where
  issued := ledger.issued
  distinct := ledger.distinct
  nodup := ledger.nodup
  rejected found hmem := by
    rcases List.mem_append.mp hmem with hold | hnew
    · exact ledger.rejected found hold
    · obtain ⟨rfl, hown⟩ := Prod.mk.inj (List.mem_singleton.mp hnew)
      exact hnone hown.symm
  answered found op hmem := by
    rcases List.mem_append.mp hmem with hold | hnew
    · exact ledger.answered found op hold
    · obtain ⟨rfl, hown⟩ := Prod.mk.inj (List.mem_singleton.mp hnew)
      obtain ⟨hop, hinvoke, hcommand, hunrejected, -⟩ := hsome op hown.symm
      exact ⟨hop, hinvoke, hcommand, hunrejected⟩
  explained found op result hmem happlied := by
    rcases List.mem_append.mp hmem with hold | hnew
    · exact ledger.explained found op result hold happlied
    · obtain ⟨rfl, hown⟩ := Prod.mk.inj (List.mem_singleton.mp hnew)
      exact ((hsome op hown.symm).2.2.2.2 result happlied).1
  realTime found op result finish hmem happlied hreturn other hother hbefore := by
    rcases List.mem_append.mp hmem with hold | hnew
    · exact ledger.realTime found op result finish hold happlied hreturn other hother hbefore
    · obtain ⟨rfl, hown⟩ := Prod.mk.inj (List.mem_singleton.mp hnew)
      have hafter := ((hsome op hown.symm).2.2.2.2 result happlied).2 finish hreturn other hother
      omega

/-- One log explains all that has been answered. -/
theorem exists_log (ledger : Ledger h ops filed) (s : h.Sound (membership initial)) :
    ∃ log, Attested h ops log ∧ ∀ entry op result, (entry, some op) ∈ filed →
      entry.outcome = .applied result → Explains log op result := by
  have hall : ∀ part, part ⊆ filed → ∃ log, Attested h ops log ∧
      ∀ entry op result, (entry, some op) ∈ part → entry.outcome = .applied result →
        Explains log op result := by
    intro part
    induction part with
    | nil => exact fun _ => ⟨[], ⟨History.committed_nil h, nofun⟩, nofun⟩
    | cons first rest ih =>
        intro hsub
        obtain ⟨hfirst, hrest⟩ := List.cons_subset.mp hsub
        obtain ⟨log, hlog, hexplains⟩ := ih hrest
        by_cases happlied : ∃ op result, first.2 = some op ∧
            first.1.outcome = .applied result
        case neg =>
          refine ⟨log, hlog, fun entry op result hmem houtcome => ?_⟩
          rcases List.mem_cons.mp hmem with rfl | hmem
          · exact absurd ⟨op, result, rfl, houtcome⟩ happlied
          · exact hexplains entry op result hmem houtcome
        obtain ⟨entry, own⟩ := first
        obtain ⟨op, result, rfl, houtcome⟩ := happlied
        obtain ⟨other, hother, hown⟩ := ledger.explained entry op result hfirst houtcome
        have hfirst : ∀ answer, entry.outcome = .applied answer → answer = result := by
          intro answer hanswer
          rw [houtcome] at hanswer
          cases hanswer
          rfl
        rcases s.committed_comparable hlog.committed hother.committed with hinit | hinit
        · refine ⟨other, hother, fun found last answer hmem hanswer => ?_⟩
          rcases List.mem_cons.mp hmem with hsame | hmem
          · cases hsame
            exact hfirst answer hanswer ▸ hown
          · exact (hexplains found last answer hmem hanswer).mono hinit
        · refine ⟨log, hlog, fun found last answer hmem hanswer => ?_⟩
          rcases List.mem_cons.mp hmem with hsame | hmem
          · cases hsame
            exact hfirst answer hanswer ▸ hown.mono hinit
          · exact hexplains found last answer hmem hanswer
  exact hall filed (List.Subset.refl filed)

end Ledger

/-! ### The order of a log -/

/-- The commands of a log from some index on, in order, get the answers of the log. -/
theorem answers_of_log {machine : StateMachine} {log : List LogEntry}
    {entries : List HistoryEntry} {reached : Nat}
    (hreplay : StateMachine.new.replay (log.take reached) = some machine)
    (hmatch : ∀ offset entry, entries[offset]? = some entry → ∃ bytes,
      Command.decode bytes = .ok entry.command ∧
      (log[reached + offset]?).map LogEntry.payload = some (.command bytes) ∧
      ∀ result, entry.outcome = .applied result →
        StateMachine.resultAt log (reached + offset + 1) = some result) :
    Answers machine entries := by
  induction entries generalizing machine reached with
  | nil => trivial
  | cons entry rest ih =>
      obtain ⟨bytes, hdecode, hpayload, hresult⟩ := hmatch 0 entry rfl
      obtain ⟨x, hx, hpayload⟩ := Option.map_eq_some_iff.mp hpayload
      rw [Nat.add_zero] at hx
      have happly : machine.applyEntry x = some (machine.apply entry.command).1 := by
        unfold StateMachine.applyEntry
        rw [hpayload]
        dsimp only
        rw [hdecode]
      constructor
      · intro result happlied
        have hanswer := hresult result happlied
        rw [Nat.add_zero] at hanswer
        unfold StateMachine.resultAt at hanswer
        rw [Nat.add_sub_cancel, hreplay, hx] at hanswer
        simp only [Option.bind_eq_bind, Option.bind_some, hpayload, hdecode] at hanswer
        exact Option.some.inj hanswer
      · refine @ih _ (reached + 1) ?_ ?_
        · rw [StateMachine.replay_succ hx, hreplay]
          exact happly
        · intro offset found hfound
          have hlater := hmatch (offset + 1) found hfound
          rwa [show reached + (offset + 1) = reached + 1 + offset by omega] at hlater

/-- What nobody has written is not read. -/
theorem Answers.unwritten {machine : StateMachine} {entries : List HistoryEntry} {key : Bytes}
    (h : Answers machine entries) (hnone : machine.contents key = none)
    (hunwritten : ∀ entry ∈ entries, ∀ value, entry.command ≠ .set key value) :
    ∀ entry ∈ entries, entry.command = .get key →
      ∀ result, entry.outcome = .applied result → result = .get none := by
  induction entries generalizing machine with
  | nil => nofun
  | cons first rest ih =>
      obtain ⟨hanswer, hrest⟩ := h
      obtain ⟨hfirst, hlater⟩ := List.forall_mem_cons.mp hunwritten
      have hnext : (machine.apply first.command).1.contents key = none := by
        rw [StateMachine.apply_contents]
        by_cases htouches : first.command.write.Touches key
        · obtain ⟨value, hwrite⟩ := htouches
          rw [hwrite, overwrite, Function.update_self]
          cases hcommand : first.command with
          | set written found =>
              rw [hcommand] at hwrite hfirst
              cases hwrite
              exact absurd rfl (hfirst found)
          | delete written =>
              rw [hcommand] at hwrite
              cases hwrite
              rfl
          | get read =>
              rw [hcommand] at hwrite
              cases hwrite
        · rw [overwrite_of_not_touches htouches]
          exact hnone
      refine List.forall_mem_cons.mpr ⟨fun hcommand result happlied => ?_,
        ih hrest hnext hlater⟩
      rw [← hanswer result happlied, hcommand]
      exact congrArg ApplyResult.get hnone

theorem Linearization.unwritten {history : List HistoryEntry} {order : List (HistoryEntry × Nat)}
    {key : Bytes} (h : Linearization history order)
    (hunwritten : ∀ entry ∈ history, ∀ value, entry.command ≠ .set key value)
    {entry : HistoryEntry} (hmem : entry ∈ history) (hcommand : entry.command = .get key)
    {result : ApplyResult} (happlied : entry.outcome = .applied result) :
    result = .get none := by
  obtain ⟨position, hposition⟩ := List.mem_iff_getElem?.mp hmem
  have hplaced : (entry, position) ∈ order :=
    h.complete _ (List.mem_zipIdx_iff_getElem?.mpr hposition) ⟨result, happlied⟩
  refine h.answers.unwritten (StateMachine.contents_new key) (fun other hother => ?_) entry
    (List.mem_map_of_mem hplaced) hcommand result happlied
  obtain ⟨x, hx, rfl⟩ := List.mem_map.mp hother
  exact hunwritten x.1 (List.mem_of_getElem? (List.mem_zipIdx_iff_getElem?.mp (h.subset x hx)))

variable {initial : ClusterConfig} {h : Ghost} {ops : List PendingOp} {filed : Filed}

/-- An operation is on record once. -/
theorem position_unique (hnodup : (filed.filterMap Prod.snd).Nodup) {op : PendingOp}
    {entry other : HistoryEntry} {p q : Nat} (hp : filed[p]? = some (entry, some op))
    (hq : filed[q]? = some (other, some op)) : p = q := by
  have hne : ∀ {a b : Nat} {x y : HistoryEntry}, filed[a]? = some (x, some op) →
      filed[b]? = some (y, some op) → ¬ a < b := by
    intro a b x y ha hb hlt
    obtain ⟨hinside, ha⟩ := List.getElem?_eq_some_iff.mp ha
    obtain ⟨hinside', hb⟩ := List.getElem?_eq_some_iff.mp hb
    have hpairwise := List.pairwise_iff_getElem.mp (List.pairwise_filterMap.mp hnodup) a b
      hinside hinside' hlt
    rw [ha, hb] at hpairwise
    exact hpairwise op rfl op rfl rfl
  rcases Nat.lt_trichotomy p q with hlt | hsame | hgt
  · exact absurd hlt (hne hp hq)
  · exact hsame
  · exact absurd hgt (hne hq hp)

/-- Where all operations are on record, what has been answered is linearizable, once each
command is taken as what is read of it. -/
theorem Ledger.linearization (ledger : Ledger h ops filed) (s : h.Sound (membership initial))
    (hall : (filed.filterMap Prod.snd).Perm ops) {read : Command → Command}
    (hread : ∀ op ∈ ops, Command.decode op.command.encode = .ok (read op.command)) :
    ∃ order, Linearization (filed.map (fun x => x.1.reading read)) order := by
  obtain ⟨log, hlog, hexplains⟩ := ledger.exists_log s
  have hnodup : (filed.filterMap Prod.snd).Nodup := hall.nodup_iff.mpr ledger.nodup
  -- the operation of each entry of the log, with its place in the history
  have hplace : ∀ k : Fin log.length, ∃ (x : HistoryEntry × Nat) (op : PendingOp),
      filed[x.2]? = some (x.1, some op) ∧ op.index = k + 1 ∧ log[k.1]? = some op.entry := by
    intro k
    obtain ⟨op, hop, hindex, hentry⟩ := hlog.placed k _ (List.getElem?_eq_getElem k.2)
    obtain ⟨⟨entry, own⟩, hmem, hown⟩ := List.mem_filterMap.mp (hall.mem_iff.mpr hop)
    obtain rfl : own = some op := hown
    obtain ⟨p, hp⟩ := List.mem_iff_getElem?.mp hmem
    exact ⟨(entry, p), op, hp, hindex, by rw [List.getElem?_eq_getElem k.2, hentry]⟩
  choose pick op hpick hindex hentry using hplace
  have hmem : ∀ k, ((pick k).1, some (op k)) ∈ filed := fun k =>
    List.mem_of_getElem? (hpick k)
  refine ⟨List.ofFn (fun k => ((pick k).1.reading read, (pick k).2)), ?_, ?_, ?_, ?_, ?_, ?_⟩
  · refine List.nodup_ofFn.mpr (fun i j hsame => Fin.ext ?_)
    have hi := hpick i
    rw [(Prod.mk.inj hsame).2, hpick j] at hi
    have hop : op j = op i := by
      injection hi with hi
      injection hi with _ hi
      exact Option.some.inj hi
    have hindices := (hindex j).symm.trans ((congrArg PendingOp.index hop).trans (hindex i))
    omega
  · intro x hx
    obtain ⟨k, rfl⟩ := List.mem_ofFn.mp hx
    rw [List.mem_zipIdx_iff_getElem?, List.getElem?_map, hpick k]
    rfl
  · intro x hx
    obtain ⟨k, rfl⟩ := List.mem_ofFn.mp hx
    exact (ledger.answered _ _ (hmem k)).2.2.2
  · rintro ⟨found, position⟩ hx ⟨result, happlied⟩
    rw [List.mem_zipIdx_iff_getElem?, List.getElem?_map] at hx
    obtain ⟨⟨entry, own⟩, hfiled, hsame⟩ := Option.map_eq_some_iff.mp hx
    obtain rfl : entry.reading read = found := hsame
    have happlied : entry.outcome = .applied result := happlied
    cases own with
    | none =>
        rw [ledger.rejected _ (List.mem_of_getElem? hfiled)] at happlied
        cases happlied
    | some own =>
        have hmem' := List.mem_of_getElem? hfiled
        have hown := (hexplains _ own result hmem' happlied).1
        have hpos := (ledger.issued own (ledger.answered _ own hmem').1).1
        have hinside := (List.getElem?_eq_some_iff.mp hown).1
        let k : Fin log.length := ⟨own.index - 1, hinside⟩
        have hsame : own = op k := by
          refine ledger.distinct own (ledger.answered _ own hmem').1 (op k)
            (ledger.answered _ _ (hmem k)).1 ?_ ?_
          · rw [hindex k]
            show own.index = own.index - 1 + 1
            omega
          · exact congrArg LogEntry.term (Option.some.inj (hown.symm.trans (hentry k)))
        rw [hsame] at hfiled
        have hposition : position = (pick k).2 := position_unique hnodup hfiled (hpick k)
        rw [hposition, hpick k] at hfiled
        obtain rfl : (pick k).1 = entry := by
          injection hfiled with hfiled
          injection hfiled
        exact List.mem_ofFn.mpr ⟨k, Prod.ext rfl hposition.symm⟩
  · refine List.pairwise_ofFn.mpr (fun i j hlt => ?_)
    rintro ⟨⟨result, happlied⟩, finish, hreturn, hbefore⟩
    have hbefore : finish ≤ (pick i).1.invokeTick := hbefore
    obtain ⟨hop, hinvoke, -, -⟩ := ledger.answered _ _ (hmem i)
    rw [hinvoke] at hbefore
    rcases ledger.realTime _ _ result finish (hmem j) happlied hreturn (op i) hop hbefore with
      hindices | ⟨other, entry, hother, hfound, hterm⟩
    · rw [hindex i, hindex j] at hindices
      have hlt : i.1 < j.1 := hlt
      omega
    · rw [hindex i, Nat.add_sub_cancel] at hfound
      rw [s.committed_agree hother hlog.committed hfound (hentry i)] at hterm
      exact hterm rfl
  · have hreplay : StateMachine.new.replay (log.take 0) = some .new := by
      rw [List.take_zero]
      rfl
    refine answers_of_log hreplay (fun offset entry hoffset => ?_)
    rw [List.getElem?_map] at hoffset
    obtain ⟨x, hx, rfl⟩ := Option.map_eq_some_iff.mp hoffset
    rw [List.getElem?_ofFn] at hx
    split at hx
    case isFalse => cases hx
    rename_i hinside
    obtain rfl := Option.some.inj hx
    obtain ⟨hop, -, hcommand, -⟩ := ledger.answered _ _ (hmem ⟨offset, hinside⟩)
    rw [Nat.zero_add]
    refine ⟨(op ⟨offset, hinside⟩).command.encode, ?_, ?_, fun result happlied => ?_⟩
    · rw [hread _ hop, ← hcommand]
      rfl
    · rw [hentry ⟨offset, hinside⟩]
      rfl
    · have hown := (hexplains _ _ result (hmem ⟨offset, hinside⟩) happlied).2
      rwa [hindex ⟨offset, hinside⟩] at hown

end Kurogane.Verify
