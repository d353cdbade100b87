import Kurogane.Verify.Driver
import Kurogane.Wire.Text

/-!
The file a seed and its configuration are kept in, so that a run can be made again.
-/

namespace Kurogane.Verify

open Kurogane.Raft (NodeId)
open Kurogane.Wire

/-- The numbers of a configuration under their names. -/
def RunConfig.numbers (config : RunConfig) : List (String × Nat) :=
  [("election_timeout", config.electionTimeout),
    ("heartbeat_interval", config.heartbeatInterval),
    ("min_delay", config.minDelay),
    ("max_delay", config.maxDelay),
    ("apply_timeout_ticks", config.applyTimeoutTicks),
    ("client_count", config.clientCount),
    ("total_ticks", config.totalTicks),
    ("submit_chance_percent", config.submitChancePercent),
    ("fault_chance_percent", config.faultChancePercent)]

def savedFields (seed : UInt64) (config : RunConfig) : List (Text × Text) :=
  ("seed".toList, decimal seed.toNat) ::
    ("peers".toList, [','].intercalate (config.peers.map (fun peer => decimal peer.id))) ::
      config.numbers.map (fun (name, number) => (name.toList, decimal number))

def savedLine : Text × Text → Text
  | (name, value) => name ++ '=' :: value

/-- What `save_seed` writes. -/
def saveSeed (seed : UInt64) (config : RunConfig) : Text :=
  ((savedFields seed config).map savedLine).flatMap (fun line => line ++ ['\n'])

/-- A name that comes twice has the value it comes with last. -/
def fieldOf (fields : List (Text × Text)) (name : String) : Option Text :=
  fields.reverse.lookup name.toList

def numberOf (fields : List (Text × Text)) (name : String) : Option Nat :=
  (fieldOf fields name).bind parseU64

/-- What `load_seed` reads; `none` where it panics. -/
def loadSeed (contents : Text) : Option (UInt64 × RunConfig) := do
  let fields ← (lines contents).mapM (splitOnce '=')
  let peers ← (((← fieldOf fields "peers").splitOn ',').filter (· ≠ [])).mapM
    (fun piece => (parseU64 piece).map NodeId.mk)
  let seed ← numberOf fields "seed"
  let electionTimeout ← numberOf fields "election_timeout"
  let heartbeatInterval ← numberOf fields "heartbeat_interval"
  let minDelay ← numberOf fields "min_delay"
  let maxDelay ← numberOf fields "max_delay"
  let applyTimeoutTicks ← numberOf fields "apply_timeout_ticks"
  let clientCount ← numberOf fields "client_count"
  let totalTicks ← numberOf fields "total_ticks"
  let submitChancePercent ← numberOf fields "submit_chance_percent"
  let faultChancePercent ← numberOf fields "fault_chance_percent"
  some (.ofNat seed, {
    peers
    electionTimeout
    heartbeatInterval
    minDelay
    maxDelay
    applyTimeoutTicks
    clientCount
    totalTicks
    submitChancePercent
    faultChancePercent })

/-- All numbers have 64 bits. -/
structure RunConfig.Fits (config : RunConfig) : Prop where
  peers : ∀ peer ∈ config.peers, peer.id < 2 ^ 64
  numbers : ∀ number ∈ config.numbers, number.2 < 2 ^ 64

instance : DecidablePred RunConfig.Fits := fun config =>
  decidable_of_iff ((∀ peer ∈ config.peers, peer.id < 2 ^ 64) ∧
    ∀ number ∈ config.numbers, number.2 < 2 ^ 64) ⟨fun h => ⟨h.1, h.2⟩, fun h => ⟨h.1, h.2⟩⟩

section

variable {seed : UInt64} {config : RunConfig}

/-- The names are told apart, and nothing in them ends a name or a line. -/
theorem savedFields_names (seed : UInt64) (config : RunConfig) :
    ((savedFields seed config).map Prod.fst).Nodup ∧
    ∀ field ∈ savedFields seed config, '=' ∉ field.1 ∧ '\n' ∉ field.1 ∧ '\r' ∉ field.1 := by
  have hnames : (savedFields seed config).map Prod.fst = ["seed", "peers", "election_timeout",
      "heartbeat_interval", "min_delay", "max_delay", "apply_timeout_ticks", "client_count",
      "total_ticks", "submit_chance_percent", "fault_chance_percent"].map String.toList := rfl
  refine ⟨by rw [hnames]; decide, fun field hmem => ?_⟩
  have hname : field.1 ∈ (savedFields seed config).map Prod.fst :=
    List.mem_map.mpr ⟨field, hmem, rfl⟩
  rw [hnames] at hname
  revert hname
  generalize field.1 = name
  revert name
  decide

theorem savedFields_values {field : Text × Text} (h : field ∈ savedFields seed config) :
    ∀ c ∈ field.2, c.isDigit = true ∨ c = ',' := by
  intro c hc
  rcases List.mem_cons.mp h with rfl | h
  · exact Or.inl (isDigit_of_mem_decimal hc)
  rcases List.mem_cons.mp h with rfl | h
  · rcases mem_intercalate hc with rfl | ⟨piece, hpiece, hc⟩
    · exact Or.inr rfl
    · obtain ⟨peer, -, rfl⟩ := List.mem_map.mp hpiece
      exact Or.inl (isDigit_of_mem_decimal hc)
  · obtain ⟨number, -, rfl⟩ := List.mem_map.mp h
    exact Or.inl (isDigit_of_mem_decimal hc)

theorem lines_saveSeed :
    lines (saveSeed seed config) = (savedFields seed config).map savedLine := by
  refine lines_terminated (List.forall_mem_map.mpr fun field hfield => ?_)
  obtain ⟨-, hfeed, hreturn⟩ := (savedFields_names seed config).2 field hfield
  have hvalue := savedFields_values hfield
  have hclean : ∀ c : Char, c ∉ field.1 → c ≠ '=' → c.isDigit = false → c ≠ ',' →
      c ∉ savedLine field := by
    intro c hname hequals hdigit hcomma hmem
    rcases List.mem_append.mp hmem with hmem | hmem
    · exact hname hmem
    rcases List.mem_cons.mp hmem with rfl | hmem
    · exact hequals rfl
    · rcases hvalue c hmem with hc | rfl
      · rw [hdigit] at hc
        cases hc
      · exact hcomma rfl
  exact ⟨hclean _ hfeed (by decide) (by decide) (by decide),
    hclean _ hreturn (by decide) (by decide) (by decide)⟩

/-- The peers are read as they were written. -/
theorem peers_round_trip {peers : List NodeId} (hfits : ∀ peer ∈ peers, peer.id < 2 ^ 64) :
    ((([','].intercalate (peers.map (fun peer => decimal peer.id))).splitOn ',').filter
      (· ≠ [])).mapM (fun piece => (parseU64 piece).map NodeId.mk) = some peers := by
  have hread : (peers.map (fun peer => decimal peer.id)).mapM
      (fun piece => (parseU64 piece).map NodeId.mk) = some peers := by
    induction peers with
    | nil => rfl
    | cons peer rest ih =>
        obtain ⟨hpeer, hrest⟩ := List.forall_mem_cons.mp hfits
        rw [List.map_cons, List.mapM_cons, parseU64_decimal hpeer, ih hrest]
        rfl
  cases hpeers : peers with
  | nil => rfl
  | cons peer rest =>
      rw [← hpeers, List.splitOn_intercalate, List.filter_eq_self.mpr, hread]
      · refine List.forall_mem_map.mpr fun peer _ => ?_
        exact decide_eq_true Nat.toDigits_ne_nil
      · exact List.forall_mem_map.mpr fun peer _ => not_mem_decimal (by decide)
      · rw [hpeers]
        exact List.cons_ne_nil _ _

/-- Lines in another order are split into the same fields. -/
theorem splitLines_perm {contents : Text}
    (hlines : (lines contents).Perm (lines (saveSeed seed config))) :
    ∃ fields, (lines contents).mapM (splitOnce '=') = some fields ∧
      fields.Perm (savedFields seed config) := by
  have hline : ∀ field ∈ savedFields seed config,
      splitOnce '=' (savedLine field) = some field := fun field hfield =>
    splitOnce_append ((savedFields_names seed config).2 field hfield).1 field.2
  refine ⟨(lines contents).map (fun line => (splitOnce '=' line).getD ([], [])),
    mapM_eq_some_map fun line hmem => ?_, ?_⟩
  · rw [hlines.mem_iff, lines_saveSeed] at hmem
    obtain ⟨field, hfield, rfl⟩ := List.mem_map.mp hmem
    rw [hline field hfield, Option.getD_some]
  · refine (hlines.map _).trans (List.Perm.of_eq ?_)
    rw [lines_saveSeed, List.map_map]
    refine (List.map_congr_left fun field hfield => ?_).trans (List.map_id _)
    rw [Function.comp_apply, hline field hfield, Option.getD_some, id]

theorem fieldOf_saved {fields : List (Text × Text)}
    (hperm : fields.Perm (savedFields seed config)) {name : String} {value : Text}
    (hmem : (name.toList, value) ∈ savedFields seed config) :
    fieldOf fields name = some value := by
  have hsame : fields.reverse.Perm (savedFields seed config) :=
    (List.reverse_perm fields).trans hperm
  have hdistinct := (hsame.map Prod.fst).nodup_iff.mpr (savedFields_names seed config).1
  exact lookup_of_mem hdistinct (hsame.mem_iff.mpr hmem)

theorem numberOf_saved {fields : List (Text × Text)}
    (hperm : fields.Perm (savedFields seed config)) {name : String} {number : Nat}
    (hfits : number < 2 ^ 64)
    (hmem : (name.toList, decimal number) ∈ savedFields seed config) :
    numberOf fields name = some number := by
  rw [numberOf, fieldOf_saved hperm hmem]
  exact parseU64_decimal hfits

/-- A seed and its configuration are read from the file they were saved in, also when its
lines have been put in another order. -/
theorem saved_seed_loads {contents : Text} (hfits : config.Fits)
    (hlines : (lines contents).Perm (lines (saveSeed seed config))) :
    loadSeed contents = some (seed, config) := by
  obtain ⟨fields, hread, hperm⟩ := splitLines_perm hlines
  have hseed : numberOf fields "seed" = some seed.toNat :=
    numberOf_saved hperm seed.toNat_lt List.mem_cons_self
  have hpeers : fieldOf fields "peers" = some ([','].intercalate
      (config.peers.map (fun peer => decimal peer.id))) :=
    fieldOf_saved hperm (List.mem_cons_of_mem _ List.mem_cons_self)
  have hnumbers : ∀ number ∈ config.numbers, numberOf fields number.1 = some number.2 :=
    fun number hmem => numberOf_saved hperm (hfits.numbers number hmem)
      (List.mem_cons_of_mem _ (List.mem_cons_of_mem _ (List.mem_map.mpr ⟨_, hmem, rfl⟩)))
  simp only [RunConfig.numbers, List.forall_mem_cons] at hnumbers
  obtain ⟨helection, hheartbeat, hmin, hmax, happly, hclients, hticks, hsubmit, hfault, -⟩ :=
    hnumbers
  refine Option.bind_eq_some_iff.mpr ⟨_, hread, ?_⟩
  refine Option.bind_eq_some_iff.mpr ⟨_, hpeers, ?_⟩
  refine Option.bind_eq_some_iff.mpr ⟨_, peers_round_trip hfits.peers, ?_⟩
  refine Option.bind_eq_some_iff.mpr ⟨_, hseed, ?_⟩
  refine Option.bind_eq_some_iff.mpr ⟨_, helection, ?_⟩
  refine Option.bind_eq_some_iff.mpr ⟨_, hheartbeat, ?_⟩
  refine Option.bind_eq_some_iff.mpr ⟨_, hmin, ?_⟩
  refine Option.bind_eq_some_iff.mpr ⟨_, hmax, ?_⟩
  refine Option.bind_eq_some_iff.mpr ⟨_, happly, ?_⟩
  refine Option.bind_eq_some_iff.mpr ⟨_, hclients, ?_⟩
  refine Option.bind_eq_some_iff.mpr ⟨_, hticks, ?_⟩
  refine Option.bind_eq_some_iff.mpr ⟨_, hsubmit, ?_⟩
  refine Option.bind_eq_some_iff.mpr ⟨_, hfault, ?_⟩
  rw [UInt64.ofNat_toNat]

/-- The lines of a saved run, last to first. -/
theorem reversed_seed_loads : loadSeed ((lines (saveSeed 8 faultyRun)).reverse.flatMap
    (fun line => line ++ ['\n'])) = some (8, faultyRun) :=
  saved_seed_loads (by decide) (by decide +kernel)

end

end Kurogane.Verify
