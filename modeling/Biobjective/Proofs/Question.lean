import Biobjective.Proofs.Exclusion

/-!
# Questions without exclusions

Where nothing is excluded, an answer can be read on outcomes instead of masks:
an optimum is a feasible outcome within the ranges that has the least weighted
sum of all of these. `asking` is the enumerator with given weights and ranges
and no exclusion.

`Unhindered` runs have no limit on the nodes and no reading of the clock past
the time limit. Only these two can cut a phase on a feasible program, and
`Excused` says which cut is whose fault.
-/

namespace Biobjective

/-- The enumerator of a program with weights and ranges and no exclusion. -/
def asking (p : Program ℚ) (limit? : Option ℕ) (w : Weights ℚ) (first second : Interval ℚ) :
    Enumerator ℚ :=
  excluding p limit? w first second []

theorem inForce_start (p : Program ℚ) (limit? : Option ℕ) :
    InForce (asking p limit? ⟨1, 1⟩ .unbounded .unbounded)
      (.start (Enumerator.ofProgram p limit?)) :=
  ⟨0, rfl⟩

/-- The optimum is a feasible outcome within the ranges, and none has a smaller
weighted sum. -/
structure IsBest (p : Program ℚ) (w : Weights ℚ) (first second : Interval ℚ) (o : Optimum ℚ) :
    Prop where
  mem : o.toPoint ∈ p.outcomes
  first_allows : first.allows o.z1 = true
  second_allows : second.allows o.z2 = true
  value_eq : o.value = w.value o.toPoint
  value_le : ∀ y ∈ p.outcomes, first.allows y.z1 = true → second.allows y.z2 = true →
    o.value ≤ w.value y

/-- What an answer says where nothing is excluded. -/
theorem outcome_of_answers {p : Program ℚ} {limit? : Option ℕ} {w : Weights ℚ}
    {first second : Interval ℚ} {a : Answer ℚ}
    (h : (asking p limit? w first second).Answers a) :
    (∃ o, a = .optimal o ∧ IsBest p w first second o) ∨
      (a = .infeasible ∧
        ∀ y ∈ p.outcomes, ¬(first.allows y.z1 = true ∧ second.allows y.z2 = true)) ∨
      ∃ nodes, a = .timedOut nodes ∧ limit? ≠ none := by
  rcases found_of_answers (fun _ hm => absurd hm List.not_mem_nil) h with
    ⟨o, mask, rfl, hfound⟩ | ⟨rfl, hnone⟩ | htimedOut
  · refine Or.inl ⟨o, rfl, ?_, hfound.first_allows, hfound.second_allows, hfound.value_eq, ?_⟩
    · rw [hfound.toPoint_eq]
      exact hfound.feasible.maskOutcome_mem
    · intro y hy h1 h2
      obtain ⟨m, hm, rfl⟩ := (p.mem_outcomes_iff y).1 hy
      exact hfound.value_le m hm List.not_mem_nil h1 h2
  · refine Or.inr (Or.inl ⟨rfl, fun y hy => ?_⟩)
    obtain ⟨m, hm, rfl⟩ := (p.mem_outcomes_iff y).1 hy
    exact hnone m hm List.not_mem_nil
  · exact Or.inr (Or.inr htimedOut)

/-- The time limit is never reached. -/
def NeverOver (cfg : Config ℚ) (c : Clock) : Prop := ∀ m, ¬cfg.timeLimit ≤ c m

/-- Neither a limit on the nodes nor the time limit can cut the run short. -/
def Unhindered (cfg : Config ℚ) (c : Clock) (limit? : Option ℕ) : Prop :=
  limit? = none ∧ NeverOver cfg c

/-- The tolerances are those for whole numbers: below one for domination, and
positive and at most one half for ties. -/
structure Tolerances.Fine (t : Tolerances ℚ) : Prop where
  dominance_nonneg : 0 ≤ t.dominance
  dominance_lt_one : t.dominance < 1
  tie_pos : 0 < t.tie
  tie_le_half : t.tie ≤ 1 / 2

/-- A first phase may be cut by time, unless the run is unhindered, and by an
infeasible answer, if the program has no feasible outcome. -/
inductive Excused (p : Program ℚ) (cfg : Config ℚ) (c : Clock) (limit? : Option ℕ) : Cut → Prop
  | timeout (h : ¬Unhindered cfg c limit?) : Excused p cfg c limit? .timeout
  | infeasible (stage : Stage) (h : p.outcomes = ∅) : Excused p cfg c limit? (.infeasible stage)

theorem Program.outcomes_ne_empty {p : Program ℚ} (h : ∃ x, p.Feasible x) : p.outcomes ≠ ∅ := by
  obtain ⟨x, hx⟩ := h
  exact Set.Nonempty.ne_empty ⟨_, x, hx, rfl⟩

theorem not_unhindered_of_over {cfg : Config ℚ} {c : Clock} {limit? : Option ℕ} {m : Moment}
    (h : cfg.timeLimit ≤ c m) : ¬Unhindered cfg c limit? :=
  fun hun => hun.2 m h

theorem not_unhindered_of_limit {cfg : Config ℚ} {c : Clock} {limit? : Option ℕ}
    (h : limit? ≠ none) : ¬Unhindered cfg c limit? :=
  fun hun => h hun.1

/-- A phase that checks the time either goes on or has a hindrance as its excuse. -/
theorem Phase.ensures_checkTime_of {p : Program ℚ} {cfg : Config ℚ} {c : Clock}
    {limit? : Option ℕ} {q : Progress ℚ} {w : World ℚ (Enumerator ℚ)}
    {ok : Unit → Progress ℚ → World ℚ (Enumerator ℚ) → Prop}
    {err : Cut → Progress ℚ → World ℚ (Enumerator ℚ) → Prop}
    (herr : ¬Unhindered cfg c limit? → err .timeout q (w.time c).2)
    (hok : ok () q (w.time c).2) :
    Ensures (Enumerator.oracle p) c (Phase.checkTime cfg.timeLimit) q w ok err := by
  rw [ensures_checkTime]
  by_cases hover : cfg.timeLimit ≤ c w.moment
  · rw [if_pos hover]
    exact herr (not_unhindered_of_over hover)
  · rw [if_neg hover]
    exact hok

/-- Three items of which one is to be taken. None is as good as another in both
objectives, and the second one lies above the chord of the others. -/
def pickOne : Program ℚ :=
  { c1 := [1, 3, 4]
    c2 := [4, 3, 1]
    rows := [⟨[1, 1, 1], .equal, 1⟩]
    c1_ne_nil := by decide
    c1_length_le := by decide
    c2_length := by decide
    coefs_length := by decide }

/-- The standard tolerances as fractions, with a strategy. -/
def Config.plain (s : Strategy) : Config ℚ :=
  { strategy := s, tolerances := ⟨1 / 10, 1 / 1000⟩ }

theorem wholeObjectives_pickOne : pickOne.WholeObjectives := by
  constructor
  · intro c hc
    simp only [pickOne, List.mem_cons, List.not_mem_nil, or_false] at hc
    rcases hc with rfl | rfl | rfl
    · exact ⟨1, by norm_num⟩
    · exact ⟨3, by norm_num⟩
    · exact ⟨4, by norm_num⟩
  · intro c hc
    simp only [pickOne, List.mem_cons, List.not_mem_nil, or_false] at hc
    rcases hc with rfl | rfl | rfl
    · exact ⟨4, by norm_num⟩
    · exact ⟨3, by norm_num⟩
    · exact ⟨1, by norm_num⟩

theorem feasible_pickOne : ∃ x, pickOne.Feasible x := by
  refine ⟨[1, 0, 0], rfl, by simp, ?_⟩
  intro r hr
  rw [List.mem_singleton.1 hr]
  norm_num [Row.satisfied, dot, Scalar.slack, Scalar.magnitude_rat]

theorem Config.fine_plain (s : Strategy) : (plain s).tolerances.Fine := by
  constructor
  · simp only [plain]
    norm_num
  · simp only [plain]
    norm_num
  · simp only [plain]
    norm_num
  · simp only [plain]
    norm_num

theorem Config.neverOver_plain (s : Strategy) : NeverOver (plain s) .still := by
  intro m
  change ¬Duration.ofParts 3600 0 ≤ Duration.zero
  decide

end Biobjective
