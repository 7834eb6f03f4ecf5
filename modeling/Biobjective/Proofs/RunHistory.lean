import Biobjective.Proofs.Redaction

/-!
# A method over its history

A method can be run again and again, on one oracle or on several. Each run starts over: of
what came before it reads the configuration only, and where the results are written, or
whether they can be, changes nothing else. The counters of a conclusion are those of the
dialogue with the oracle. If the nodes of the answers do not fit the counter the run crashes,
and it crashes in this way for no other reason. The main result is `Method.run_afterAll`.
-/

namespace Biobjective

/-- The nodes of all answers together. -/
def nodesOf {K : Type} (answers : List (Answer K)) : ℕ := (answers.map Answer.nodes).sum

@[simp] theorem nodesOf_nil {K : Type} : nodesOf ([] : List (Answer K)) = 0 := rfl

@[simp] theorem nodesOf_cons {K : Type} (a : Answer K) (answers : List (Answer K)) :
    nodesOf (a :: answers) = a.nodes + nodesOf answers := rfl

namespace Work

variable {K : Type}

/-- Answers are counted one by one, until the nodes do not fit any more. -/
theorem tally?_eq {work : Work} (hwork : work.nodes < nodeBound) (answers : List (Answer K)) :
    work.tally? answers =
      if work.nodes + nodesOf answers < nodeBound then
        some ⟨work.calls + answers.length, work.nodes + nodesOf answers⟩
      else none := by
  induction answers generalizing work with
  | nil => simp [hwork]
  | cons a answers ih =>
      rw [tally?_cons, record?, nodesOf_cons, List.length_cons, ← Nat.add_assoc]
      by_cases hfits : work.nodes + a.nodes < nodeBound
      · rw [if_pos hfits, Option.bind_some, ih hfits, Nat.add_right_comm work.calls,
          ← Nat.add_assoc]
      · have hsum : ¬work.nodes + a.nodes + nodesOf answers < nodeBound :=
          fun hlt => hfits (Nat.lt_of_le_of_lt (Nat.le_add_right _ _) hlt)
        rw [if_neg hfits, if_neg hsum, Option.bind_none]

theorem tally?_start (answers : List (Answer K)) :
    ({} : Work).tally? answers =
      if nodesOf answers < nodeBound then some ⟨answers.length, nodesOf answers⟩ else none := by
  simpa using @tally?_eq K {} (by decide) answers

theorem tally?_start_eq_none_iff {answers : List (Answer K)} :
    ({} : Work).tally? answers = none ↔ nodeBound ≤ nodesOf answers := by
  rw [tally?_start, ite_eq_right_iff]
  simp

theorem of_tally?_start {answers : List (Answer K)} {work : Work}
    (h : ({} : Work).tally? answers = some work) :
    work.calls = answers.length ∧ work.nodes = nodesOf answers := by
  rw [tally?_start] at h
  split at h
  · cases h
    exact ⟨rfl, rfl⟩
  · cases h

end Work

/-- The counters of a conclusion are those of the dialogue, and only a node counter that
overflows makes a run crash in an addition. -/
theorem Run.session_accounts {K σ : Type} [Scalar K] (cfg : Config K) (o : Oracle K σ)
    (clock : Clock) (fuel : ℕ) (s : σ) :
    let ran := (session cfg o.dimension fuel).exec o clock (.start s)
    let answers := answersOf ran.2.record.toList
    (ran.1 = .error (.crash .addOverflow) ↔ Work.nodeBound ≤ nodesOf answers) ∧
      ∀ c, ran.1 = .ok c →
        c.statistics.oracleCalls = answers.length ∧ c.statistics.branchingNodes = nodesOf answers := by
  intro ran answers
  have hconforms := session_conforms (r := {}) (q := {}) o.vouches_trivial o.vouches_trivial
    (Phase.Rules.allowsFirst_trivial cfg) {} {} (fun _ => trivial) clock fuel (s := s) trivial trivial
    fun _ _ _ _ => trivial
  exact ⟨hconforms.overflow_iff.trans Work.tally?_start_eq_none_iff,
    fun c hc => Work.of_tally?_start (hconforms.work c hc)⟩

/-- A run that is asked for: on which oracle, in which state, under which clock, and with
which files. -/
structure Method.Request (K : Type) where
  State : Type
  oracle : Oracle K State
  state : State
  clock : Clock
  fuel : ℕ
  format : ReportFormat K
  files : Files

@[simp] theorem Config.redact_true {K : Type} (output? : Option String) (cfg : Config K) :
    cfg.redact true output? = { cfg with output? } := by
  simp [redact]

@[simp] theorem Conclusion.redact_true {K : Type} (c : Conclusion K) : c.redact true = c := by
  simp [redact]

namespace Method

variable {K : Type} [Scalar K]

def serve (m : Method K) (x : Request K) : Ran K x.State :=
  m.run x.format x.oracle x.clock x.fuel x.state x.files

/-- The method after a history of runs. -/
def afterAll (m : Method K) (history : List (Request K)) : Method K :=
  history.foldl (fun m x => (m.serve x).method) m

theorem afterAll_config (m : Method K) (history : List (Request K)) :
    (m.afterAll history).config = m.config := by
  induction history generalizing m with
  | nil => rfl
  | cons x history ih => exact (ih (m.serve x).method).trans (run_config ..)

/-- The result and the dialogue of a run are those of any other method with the same
configuration but for the output, with any files, and with any clock that agrees on when time
is over. -/
theorem serve_eq {m m' : Method K} {output? : Option String}
    (hconfig : m'.config = { m.config with output? }) (x : Request K) (format : ReportFormat K)
    (files : Files) {clock : Clock}
    (hclock : ∀ t, m.config.timeLimit ≤ x.clock t ↔ m.config.timeLimit ≤ clock t) :
    let other := m'.run format x.oracle clock x.fuel x.state files
    other.result.map Conclusion.timeless = (m.serve x).result.map Conclusion.timeless ∧
      other.world = (m.serve x).world := by
  intro other
  have hredact : m'.config = m.config.redact true output? :=
    hconfig.trans (Config.redact_true output? m.config).symm
  have hmirrored := run_mirrored true output? hredact x.format format x.oracle hclock x.fuel
    x.state x.files files
  simp only [Run.Redacts, Conclusion.redact_true] at hmirrored
  exact hmirrored

theorem run_of_dimension_zero {σ : Type} (m : Method K) (fmt : ReportFormat K) (o : Oracle K σ)
    (hdim : o.dimension = 0) (clock : Clock) (fuel : ℕ) (s : σ) (files : Files) :
    (m.run fmt o clock fuel s files).result = .error (.fault (.invalid .noDecisions)) ∧
      (m.run fmt o clock fuel s files).world = .start s := by
  rw [run_result, run_world, Run.session, if_pos hdim]
  exact ⟨rfl, rfl⟩

/-- Whatever was run before, a run comes to the result and holds the dialogue of a fresh method
with the same configuration, wherever the results go. If it concludes, the method is done and
has the statistics of the conclusion, whose counters are those of the dialogue; a sum of nodes
that does not fit the counter is a crash instead. If it is at fault, the method has failed and
has no statistics left. Without variables to decide, the oracle is told and asked nothing. -/
theorem run_afterAll (m : Method K) (history : List (Request K)) (x : Request K) :
    let ran := (m.afterAll history).serve x
    let answers := answersOf ran.world.record.toList
    (∀ (m' : Method K) (output? : Option String), m'.config = { m.config with output? } →
      ∀ (format : ReportFormat K) (files : Files) (clock : Clock),
      (∀ t, m.config.timeLimit ≤ x.clock t ↔ m.config.timeLimit ≤ clock t) →
        let other := m'.run format x.oracle clock x.fuel x.state files
        other.result.map Conclusion.timeless = ran.result.map Conclusion.timeless ∧
          other.world = ran.world) ∧
    (∀ c, ran.result = .ok c →
      ran.method.state = .done ∧ ran.method.statistics = c.statistics ∧
        c.statistics.oracleCalls = solveCount ran.world.record.toList ∧
        c.statistics.branchingNodes = nodesOf answers) ∧
    (ran.result = .error (.crash .addOverflow) ↔ 2 ^ 64 ≤ nodesOf answers) ∧
    (∀ fault, ran.result = .error (.fault fault) →
      ran.method.state = .failed ∧ ran.method.statistics = {}) ∧
    (x.oracle.dimension = 0 →
      ran.result = .error (.fault (.invalid .noDecisions)) ∧ ran.world = .start x.state) ∧
    ran.world.Tracks x.oracle x.state := by
  intro ran answers
  -- Of the method only the configuration enters a session, and no run changes it.
  have hconfig : (m.afterAll history).config = m.config := m.afterAll_config history
  have hmethod : ran.method = (m.afterAll history).after ran.result := run_method ..
  obtain ⟨hoverflow, hcounters⟩ := Run.session_accounts (m.afterAll history).config x.oracle
    x.clock x.fuel x.state
  rw [← run_result _ x.format x.oracle x.clock x.fuel x.state x.files,
    ← run_world _ x.format x.oracle x.clock x.fuel x.state x.files] at hoverflow hcounters
  refine ⟨?_, fun c hc => ?_, hoverflow, fun fault hfault => ?_, fun hdim => ?_, ?_⟩
  · intro m' output? hm' format files clock hclock
    rw [← hconfig] at hm' hclock
    exact serve_eq hm' x format files hclock
  · obtain ⟨hcalls, hnodes⟩ := hcounters c hc
    rw [hmethod, hc]
    exact ⟨rfl, rfl, hcalls.trans (length_answersOf _), hnodes⟩
  · rw [hmethod, hfault]
    exact ⟨rfl, rfl⟩
  · exact run_of_dimension_zero _ x.format x.oracle hdim x.clock x.fuel x.state x.files
  · obtain ⟨tail, hrecord, -, horacle⟩ := Session.exec_record x.oracle x.clock
      (Run.session (m.afterAll history).config x.oracle.dimension x.fuel) (.start x.state)
    rw [← run_world _ x.format x.oracle x.clock x.fuel x.state x.files] at hrecord horacle
    have hstart : ran.world.record.toList = tail := hrecord
    rw [World.Tracks, hstart]
    exact horacle

/-- A run on three items, one on an oracle without variables, and the first one again. -/
theorem run_afterAll_pickOne :
    let idle : Oracle ℚ Unit := ⟨0, fun s _ => s, fun s => (.infeasible, s)⟩
    let vain : Request ℚ := ⟨Unit, idle, (), .still, 9, .bare, .empty⟩
    let three : Request ℚ :=
      ⟨Enumerator ℚ, Enumerator.oracle pickOne, .ofProgram pickOne none, .still, 9, .bare, .empty⟩
    let m : Method ℚ := { config := .plain .splitting }
    let second := (m.afterAll [three]).serve vain
    let third := (m.afterAll [three, vain]).serve three
    second.method.state = .failed ∧ second.method.statistics = {} ∧ second.world.record = #[] ∧
      third.method.state = .done ∧
      third.method.statistics.branchingNodes = nodesOf (answersOf third.world.record.toList) ∧
      third.result.map Conclusion.timeless = (m.serve three).result.map Conclusion.timeless := by
  intro idle vain three m
  obtain ⟨-, -, -, hfault, hnone, -⟩ := run_afterAll m [three] vain
  obtain ⟨hinvalid, hworld⟩ := hnone rfl
  obtain ⟨hfailed, hzero⟩ := hfault _ hinvalid
  obtain ⟨hsame, hok, -, -, -, -⟩ := run_afterAll m [three, vain] three
  obtain ⟨hresult, -⟩ := hsame m none rfl .bare .empty .still fun _ => Iff.rfl
  have hthird : ((m.afterAll [three, vain]).serve three).result.map (·.status) =
      .ok .completed := by decide +kernel
  obtain ⟨c, hc, -⟩ := exists_of_map_eq_ok hthird
  obtain ⟨hdone, hstatistics, -, hnodes⟩ := hok c hc
  exact ⟨hfailed, hzero, congrArg World.record hworld, hdone,
    (congrArg Statistics.branchingNodes hstatistics).trans hnodes, hresult.symm⟩

end Method

end Biobjective
