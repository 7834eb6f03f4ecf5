import Biobjective.Proofs.Rerun
import Mathlib.Data.Nat.Nth
import Mathlib.Data.Set.Card

/-!
# A limit on the nodes is all or nothing

A solve counts the feasible assignments that it meets before it looks at ranges and
exclusions, so whether it gives up depends on the program and the limit alone, and it gives up
at one place of the code: at the first feasible assignment beyond the limit. If the limit is
not below the number of feasible assignments, no solve ever gives up, and a run takes the same
course as without a limit. Otherwise the first solve gives up, and the run ends there, before
anything was found: `Method.run_nodeLimit`.

What a solve reports as its work is another count, that of all assignments met, feasible or
not. Hence the limit does not bound the work reported, and `Enumerator.nodes_under_limit` says
when it does.
-/

namespace Biobjective

open Phase

namespace Program

variable {p : Program ℚ}

/-- The assignment in place `k` of the code is feasible. -/
def FeasibleAt (p : Program ℚ) (k : ℕ) : Prop :=
  k < 2 ^ p.dimension ∧ p.Feasible (p.decisions (k ^^^ (k >>> 1)))

/-- The number of feasible assignments. -/
noncomputable def feasibleCount (p : Program ℚ) : ℕ := {x | p.Feasible x}.ncard

theorem feasibleAt_iff {k : ℕ} :
    p.FeasibleAt k ↔ k < 2 ^ p.dimension ∧ p.rowsHold (gray k) = true := by
  rw [FeasibleAt, rowsHold, rowsSatisfied_position]
  rfl

instance (p : Program ℚ) : DecidablePred p.FeasibleAt :=
  fun _ => decidable_of_iff _ feasibleAt_iff.symm

/-- Each feasible assignment has one place in the code. -/
theorem feasibleCount_eq_count (p : Program ℚ) :
    p.feasibleCount = Nat.count p.FeasibleAt (2 ^ p.dimension) := by
  have hplaces : {x | p.Feasible x} = (fun k => p.decisions (gray k)) ''
      ↑((Finset.range (2 ^ p.dimension)).filter p.FeasibleAt) := by
    ext x
    simp only [Set.mem_ofPred_eq, Set.mem_image, Finset.mem_coe, Finset.mem_filter,
      Finset.mem_range]
    constructor
    · intro hx
      obtain ⟨mask, hmask, rfl⟩ := p.exists_mask hx.length_eq hx.zero_or_one
      obtain ⟨k, hk, rfl⟩ := exists_gray hmask
      exact ⟨k, ⟨hk, hk, hx⟩, rfl⟩
    · rintro ⟨k, ⟨-, hk⟩, rfl⟩
      exact hk.2
  have hinj : Set.InjOn (fun k => p.decisions (gray k))
      ↑((Finset.range (2 ^ p.dimension)).filter p.FeasibleAt) := by
    intro j hj k hk heq
    simp only [Finset.mem_coe, Finset.mem_filter, Finset.mem_range] at hj hk
    exact gray_injective (p.decisions_injOn (gray_lt hj.1) (gray_lt hk.1) heq)
  rw [feasibleCount, hplaces, hinj.ncard_image, Set.ncard_coe_finset,
    Nat.count_eq_card_filter_range]

/-- The first feasible place of the code beyond the limit, if there is one. -/
theorem feasibleAt_nth {limit : ℕ} (h : limit < p.feasibleCount) :
    p.FeasibleAt (Nat.nth p.FeasibleAt limit) ∧
      Nat.count p.FeasibleAt (Nat.nth p.FeasibleAt limit) = limit := by
  rw [feasibleCount_eq_count] at h
  have hcard : ∀ hf : (Set.ofPred p.FeasibleAt).Finite, limit < hf.toFinset.card :=
    fun hf => h.trans_le (Nat.count_le_card hf _)
  exact ⟨Nat.nth_mem limit hcard, Nat.count_nth hcard⟩

/-- The feasible masks among the first ones of the code. -/
theorem length_filter_rowsHold (p : Program ℚ) {k : ℕ} (hk : k ≤ 2 ^ p.dimension) :
    (((List.range k).map gray).filter p.rowsHold).length = Nat.count p.FeasibleAt k := by
  induction k with
  | zero => rfl
  | succ k ih =>
      have hplace : p.FeasibleAt k ↔ p.rowsHold (gray k) = true := by
        rw [feasibleAt_iff, and_iff_right (Nat.lt_of_succ_le hk)]
      rw [List.range_succ, List.map_append, List.filter_append, List.length_append,
        ih (Nat.le_of_succ_le hk), Nat.count_succ]
      by_cases hrows : p.rowsHold (gray k) = true
      · simp [hrows, hplace]
      · simp [hrows, hplace]

end Program

namespace Enumerator

variable {e : Enumerator ℚ} {limit : ℕ}

/-- With room for all feasible assignments a limit does not matter. -/
theorem answer_of_feasibleCount_le (hlimit : e.nodeLimit? = some limit)
    (hle : e.program.feasibleCount ≤ limit) : e.answer = e.leastAnswer := by
  rcases e.answer_cases_of_limit with ⟨nodes, -, -, limit', hlimit', hlt⟩ | heq
  · rw [hlimit] at hlimit'
    cases hlimit'
    rw [grayMasks_eq_map, e.program.length_filter_rowsHold le_rfl,
      ← e.program.feasibleCount_eq_count] at hlt
    exact absurd hle hlt.not_ge
  · exact heq

/-- With too little room a solve gives up at the first feasible assignment beyond the limit. -/
theorem answer_of_lt_feasibleCount (hlimit : e.nodeLimit? = some limit)
    (hlt : limit < e.program.feasibleCount) :
    e.answer = .timedOut (Nat.nth e.program.FeasibleAt limit + 1) := by
  obtain ⟨hat, hcount⟩ := Program.feasibleAt_nth hlt
  generalize Nat.nth e.program.FeasibleAt limit = k at hcount hat
  obtain ⟨hk, hrows⟩ := Program.feasibleAt_iff.1 hat
  -- the masks before place `k`, the mask that is one too many, and the others
  have hmasks : grayMasks e.program.dimension = (List.range k).map gray ++ gray k ::
      ((List.range (2 ^ e.program.dimension)).drop (k + 1)).map gray := by
    have htake : (List.range (2 ^ e.program.dimension)).take k = List.range k := by
      rw [List.take_range, min_eq_left hk.le]
    have hdrop : (List.range (2 ^ e.program.dimension)).drop k =
        k :: (List.range (2 ^ e.program.dimension)).drop (k + 1) := by
      rw [List.drop_eq_getElem_cons (by simpa using hk), List.getElem_range]
    rw [grayMasks_eq_map, ← List.map_cons, ← List.map_append, ← htake, ← hdrop,
      List.take_append_drop]
  have hbefore := e.program.length_filter_rowsHold hk.le
  rw [hcount] at hbefore
  obtain ⟨-, hcases⟩ := e.foldl_examine ((List.range k).map gray) _ rfl
  rw [answer, Program.scan_eq_foldl, hmasks, List.foldl_append, List.foldl_cons]
  generalize ((List.range k).map gray).foldl (Scan.meetAt e.program e.examine)
    ⟨e.program.origin, 0, ⟨0, false, none⟩, false⟩ = s at hcases
  rcases hcases with ⟨-, -, limit', hlimit', hlt'⟩ | ⟨hgo, hmet, hsurvey, -⟩
  · rw [hlimit] at hlimit'
    cases hlimit'
    rw [hbefore] at hlt'
    exact absurd hlt' (lt_irrefl _)
  · have hexamined : s.gathered.examined = limit := by rw [hsurvey]; exact hbefore
    have hexamine : e.examine s.gathered (gray k) (e.program.position (gray k)).point =
        .done { s.gathered with examined := limit + 1, overLimit := true } := by
      simp [examine, hlimit, hexamined]
    have hstop : s.meetAt e.program e.examine (gray k) = ⟨e.program.position (gray k), s.met + 1,
        { s.gathered with examined := limit + 1, overLimit := true }, true⟩ := by
      rw [Scan.meetAt_of_rowsHold _ _ hgo hrows, hexamine]
    rw [hstop, Scan.foldl_meetAt_of_stopped _ _ rfl, hmet]
    simp

/-- The enumerator under a limit. -/
def limited (limit : ℕ) (e : Enumerator ℚ) : Enumerator ℚ := { e with nodeLimit? := some limit }

theorem follow_limited (limit : ℕ) (e : Enumerator ℚ) (d : Directive ℚ) :
    (e.limited limit).follow d = (e.follow d).limited limit := by
  rcases d with _ | ⟨_ | _, _⟩ | (_ | _) | _ <;> rfl

/-- No call changes the program or the limit. -/
theorem after_eq (p : Program ℚ) (e : Enumerator ℚ) (calls : List (Call ℚ)) :
    ((oracle p).after e calls).program = e.program ∧
      ((oracle p).after e calls).nodeLimit? = e.nodeLimit? := by
  induction calls generalizing e with
  | nil => exact ⟨rfl, rfl⟩
  | cons call calls ih =>
      cases call with
      | tell d =>
          obtain ⟨hprogram, hlimit⟩ := ih (e.follow d)
          exact ⟨hprogram.trans (e.follow_program d), hlimit.trans (e.follow_nodeLimit? d)⟩
      | solve => exact ih { e with solves := e.solves + 1 }

theorem leastAnswer_ne_timedOut (e : Enumerator ℚ) (nodes : ℕ) :
    e.leastAnswer ≠ .timedOut nodes := by
  rw [leastAnswer]
  split
  · simp
  · simp

theorem answer_eq_timedOut_iff (hlimit : e.nodeLimit? = some limit) (nodes : ℕ) :
    e.answer = .timedOut nodes ↔
      limit < e.program.feasibleCount ∧ nodes = Nat.nth e.program.FeasibleAt limit + 1 := by
  by_cases hlt : limit < e.program.feasibleCount
  · rw [answer_of_lt_feasibleCount hlimit hlt, Answer.timedOut.injEq, and_iff_right hlt, eq_comm]
  · rw [answer_of_feasibleCount_le hlimit (not_lt.1 hlt)]
    exact iff_of_false (e.leastAnswer_ne_timedOut nodes) fun h => hlt h.1

/-- What a solve that finds an optimum reports as its work is the number of all assignments. -/
theorem nodes_of_answer_eq_optimal {o : Optimum ℚ} (h : e.answer = .optimal o) :
    o.nodes = 2 ^ e.program.dimension := by
  have hanswers := e.answers_answer
  rw [h] at hanswers
  cases hanswers with
  | optimal mask hmask hleast => rfl

/-- A solve gives up after more assignments than the limit. The feasible ones that it has no
room for, but for the one at which it gives up, are among those not met. -/
theorem nodes_of_answer_eq_timedOut (hlimit : e.nodeLimit? = some limit) {nodes : ℕ}
    (h : e.answer = .timedOut nodes) :
    limit < nodes ∧ nodes + e.program.feasibleCount ≤ 2 ^ e.program.dimension + limit + 1 := by
  obtain ⟨hlt, rfl⟩ := (answer_eq_timedOut_iff hlimit nodes).1 h
  obtain ⟨⟨hk, -⟩, hcount⟩ := Program.feasibleAt_nth hlt
  rw [Program.feasibleCount_eq_count]
  generalize Nat.nth e.program.FeasibleAt limit = k at hcount hk
  have hbefore : Nat.count e.program.FeasibleAt k ≤ k := Nat.count_le _
  have hsplit : Nat.count e.program.FeasibleAt (2 ^ e.program.dimension) ≤
      Nat.count e.program.FeasibleAt k + (2 ^ e.program.dimension - k) := by
    obtain ⟨rest, hrest⟩ := Nat.exists_eq_add_of_lt hk
    have hcount' : Nat.count (fun j => e.program.FeasibleAt (k + j)) (rest + 1) ≤ rest + 1 :=
      Nat.count_le _
    rw [hrest, Nat.add_assoc, Nat.count_add]
    omega
  omega

/-- Under a limit a solve gives up exactly if more assignments are feasible than the limit
allows. It then has met more assignments than the limit, of which those that are not feasible
did not count. Otherwise the answer is the one without a limit, and it reports all assignments
as its work. So where some assignment is admitted, an optimum reports no more work than the
limit exactly if the solve gives up or the limit allows all assignments, feasible or not. -/
theorem nodes_under_limit {e : Enumerator ℚ} {limit : ℕ} (hlimit : e.nodeLimit? = some limit) :
    let all := 2 ^ e.program.dimension
    let feasible := e.program.feasibleCount
    ((∃ nodes, e.answer = .timedOut nodes) ↔ limit < feasible) ∧
    (∀ nodes, e.answer = .timedOut nodes →
      limit < nodes ∧ nodes + feasible ≤ all + limit + 1) ∧
    (feasible ≤ limit → e.answer = { e with nodeLimit? := none }.answer) ∧
    (∀ o, e.answer = .optimal o → o.nodes = all) ∧
    ((∃ mask, e.Admits mask) →
      ((∀ o, e.answer = .optimal o → o.nodes ≤ limit) ↔ limit < feasible ∨ all ≤ limit)) := by
  intro all feasible
  have hgives : (∃ nodes, e.answer = .timedOut nodes) ↔ limit < feasible := by
    constructor
    · rintro ⟨nodes, hnodes⟩
      exact ((answer_eq_timedOut_iff hlimit nodes).1 hnodes).1
    · intro hlt
      exact ⟨_, answer_of_lt_feasibleCount hlimit hlt⟩
  refine ⟨hgives, fun nodes => nodes_of_answer_eq_timedOut hlimit, ?_,
    fun o => nodes_of_answer_eq_optimal, ?_⟩
  · intro hle
    rw [answer_of_feasibleCount_le hlimit hle, answer_of_unlimited rfl]
    rfl
  · rintro ⟨mask, hmask⟩
    constructor
    · intro hbound
      by_contra hneither
      obtain ⟨hle, hlt⟩ := not_or.1 hneither
      have hanswers := e.answers_answer
      cases hanswer : e.answer with
      | optimal o =>
          have hnodes := hbound o hanswer
          rw [nodes_of_answer_eq_optimal hanswer] at hnodes
          exact hlt hnodes
      | infeasible =>
          rw [hanswer] at hanswers
          cases hanswers with
          | infeasible hnone => exact hnone mask hmask
      | timedOut nodes => exact hle (hgives.1 ⟨nodes, hanswer⟩)
    · intro hcases o ho
      rw [nodes_of_answer_eq_optimal ho]
      rcases hcases with hlt | hle
      · obtain ⟨nodes, hnodes⟩ := hgives.2 hlt
        cases ho.symm.trans hnodes
      · exact hle

/-- With room for seven of the eight assignments of `pickOne` a solve meets all eight of them:
the five that are not feasible do not count. -/
theorem nodes_under_limit_pickOne :
    let e := ofProgram pickOne (some 7)
    e.nodeLimit? = some 7 ∧ e.answer = .optimal ⟨⟨1, 4⟩, 5, [1, 0, 0], 8⟩ ∧
      pickOne.feasibleCount ≤ 7 ∧ ¬∀ o, e.answer = .optimal o → o.nodes ≤ 7 := by
  intro e
  have hanswer : e.answer = .optimal ⟨⟨1, 4⟩, 5, [1, 0, 0], 8⟩ := by decide +kernel
  have hlimit : e.nodeLimit? = some 7 := rfl
  obtain ⟨hgives, -, -, -, -⟩ := nodes_under_limit hlimit
  refine ⟨hlimit, hanswer, not_lt.1 fun hlt => ?_, fun hbound => ?_⟩
  · obtain ⟨nodes, hnodes⟩ := hgives.2 hlt
    cases hanswer.symm.trans hnodes
  · exact absurd (hbound _ hanswer) (by decide)

end Enumerator

namespace Run

/-- Where no solve gives up, a run under a limit takes the course of a run without one. -/
theorem session_limited (cfg : Config ℚ) {p : Program ℚ} {limit : ℕ}
    (hle : p.feasibleCount ≤ limit) (clock : Clock) (fuel : ℕ) :
    ∃ e, (session cfg p.dimension fuel).exec (Enumerator.oracle p) clock
        (.start (.ofProgram p (some limit))) =
      (((session cfg p.dimension fuel).exec (Enumerator.oracle p) clock
          (.start (.ofProgram p none))).1,
        { ((session cfg p.dimension fuel).exec (Enumerator.oracle p) clock
            (.start (.ofProgram p none))).2 with oracle := e }) := by
  let R (e e' : Enumerator ℚ) : Prop :=
    e.program = p ∧ e.nodeLimit? = none ∧ e' = e.limited limit
  have hfollow : ∀ e e' d, R e e' → R (e.follow d) (e'.follow d) := by
    rintro e e' d ⟨hprogram, hlimit, rfl⟩
    exact ⟨(e.follow_program d).trans hprogram, (e.follow_nodeLimit? d).trans hlimit,
      e.follow_limited limit d⟩
  have hsolve : ∀ e e', R e e' → e'.solve.1 = e.solve.1 ∧ R e.solve.2 e'.solve.2 := by
    rintro e e' ⟨hprogram, hlimit, rfl⟩
    refine ⟨?_, hprogram, hlimit, rfl⟩
    have hfree : e.answer = e.leastAnswer := Enumerator.answer_of_unlimited hlimit
    change (e.limited limit).answer = e.answer
    rw [hfree, Enumerator.answer_of_feasibleCount_le rfl (hprogram.symm ▸ hle)]
    rfl
  exact Session.exec_congr (o := Enumerator.oracle p) hfollow hsolve clock
    (session cfg p.dimension fuel) (.start (.ofProgram p none)) ⟨rfl, rfl, rfl⟩

/-- A first solve that gives up ends a run before anything was found. -/
theorem session_of_timedOut {K σ : Type} [Scalar K] (cfg : Config K) {o : Oracle K σ}
    (hdim : o.dimension ≠ 0) (hfits : o.dimension ≤ maxLength) (clock : Clock) (fuel : ℕ) {s : σ}
    {nodes : ℕ} (hnodes : nodes < Work.nodeBound)
    (hanswer : (o.solve (o.follow s (.weights Anchor.upperLeft.levelWeights))).1 =
      .timedOut nodes) :
    ∃ c w, (session cfg o.dimension fuel).exec o clock (.start s) = (.ok c, w) ∧
      c.status = .partly ∧ c.frontier = .empty cfg.tolerances.dominance ∧
      c.statistics.branchingNodes = nodes ∧ c.statistics.oracleCalls = 1 ∧
      w.moment.solves = 1 := by
  have hsolve : ((World.tell o (.weights Anchor.upperLeft.levelWeights) (.start s)).solve o).1 =
      .timedOut nodes := hanswer
  have hrecord : ({} : Work).record? nodes = some ⟨1, nodes⟩ := by
    rw [Work.record?, Nat.zero_add, if_pos hnodes]
  obtain ⟨w, hfirst, hsolves⟩ : ∃ w, firstPhase cfg o clock s =
      ((.ok .partly, ⟨.empty cfg.tolerances.dominance, ⟨1, nodes⟩⟩), w) ∧
        w.moment.solves = 1 := by
    have hfind : hold o clock (Anchor.upperLeft.find cfg)
        { frontier := .empty cfg.tolerances.dominance } (.start s) =
        ((.error .timeout, ⟨.empty cfg.tolerances.dominance, ⟨1, nodes⟩⟩),
          ((World.tell o (.weights Anchor.upperLeft.levelWeights) (.start s)).solve o).2) := by
      rw [Anchor.find, hold_tell_bind, hold_solve_bind, hsolve]
      simp only [Answer.nodes, hrecord]
      rfl
    rw [firstPhase, Supported.hold_phase, Supported.search, hold_bind, hfind]
    exact ⟨_, rfl, rfl⟩
  -- nothing is supported, so that the second phase has no gaps to fill
  obtain ⟨w', hsecond, hsolves'⟩ : ∃ w', hold o clock (secondPhase cfg o.dimension fuel)
      ⟨.empty cfg.tolerances.dominance, ⟨1, nodes⟩⟩ (w.time clock).2 =
        ((.ok .completed, ⟨.empty cfg.tolerances.dominance, ⟨1, nodes⟩⟩), w') ∧
        w'.moment.solves = w.moment.solves := by
    rw [secondPhase]
    cases cfg.strategy with
    | splitting => exact ⟨_, rfl, rfl⟩
    | ranking =>
        simp only [Ranking.phase, if_neg (not_lt.2 hfits)]
        exact ⟨_, rfl, rfl⟩
  rw [exec_session cfg o hdim, hfirst, exec_rest, hsecond]
  exact ⟨_, _, rfl, rfl, rfl, rfl, rfl, hsolves'.trans hsolves⟩

end Run

namespace Method

/-- Where two sessions differ in the state of the oracle only, so do the runs. -/
theorem run_of_session_eq {K σ : Type} [Scalar K] (m : Method K) (fmt : ReportFormat K)
    (o : Oracle K σ) (clock : Clock) (fuel : ℕ) {s s' s'' : σ} (files : Files)
    (h : (Run.session m.config o.dimension fuel).exec o clock (.start s') =
      (((Run.session m.config o.dimension fuel).exec o clock (.start s)).1,
        { ((Run.session m.config o.dimension fuel).exec o clock (.start s)).2 with
          oracle := s'' })) :
    m.run fmt o clock fuel s' files =
      { m.run fmt o clock fuel s files with
        world := { (m.run fmt o clock fuel s files).world with oracle := s'' } } := by
  simp only [run, h]
  rcases (Run.session m.config o.dimension fuel).exec o clock (.start s) with ⟨failure | c, world⟩
  · rfl
  · cases m.config.output? with
    | none => rfl
    | some path =>
        dsimp only
        cases Report.persist fmt files path c.statistics c.frontier with
        | error fault => rfl
        | ok files => rfl

/-- A limit that is not below the number of feasible assignments changes nothing at all but
the limit that the oracle holds. Under a smaller one the first solve is the only one: it gives
up at the first feasible assignment beyond the limit, and the run concludes in part, with
nothing found. Whether a solve gives up does not depend on what was told or asked before. -/
theorem run_nodeLimit (p : Program ℚ) (limit : ℕ) (m : Method ℚ) (fmt : ReportFormat ℚ)
    (clock : Clock) (fuel : ℕ) (files : Files) :
    let free := m.run fmt (Enumerator.oracle p) clock fuel (.ofProgram p none) files
    let ran := m.run fmt (Enumerator.oracle p) clock fuel (.ofProgram p (some limit)) files
    (p.feasibleCount ≤ limit →
      ran = { free with world := { free.world with oracle := ran.world.oracle } }) ∧
    (limit < p.feasibleCount →
      ∃ c, ran.result = .ok c ∧ c.status = .partly ∧
        c.frontier = .empty m.config.tolerances.dominance ∧
        c.statistics.branchingNodes = Nat.nth p.FeasibleAt limit + 1 ∧
        c.statistics.oracleCalls = 1 ∧ solveCount ran.world.record.toList = 1) ∧
    ∀ calls nodes,
      ((Enumerator.oracle p).solve
          ((Enumerator.oracle p).after (.ofProgram p (some limit)) calls)).1 = .timedOut nodes ↔
        limit < p.feasibleCount ∧ nodes = Nat.nth p.FeasibleAt limit + 1 := by
  intro free ran
  refine ⟨fun hle => ?_, fun hlt => ?_, fun calls nodes => ?_⟩
  · obtain ⟨e, he⟩ := Run.session_limited m.config hle clock fuel
    have hran : ran = { free with world := { free.world with oracle := e } } :=
      m.run_of_session_eq fmt (Enumerator.oracle p) clock fuel files he
    rw [hran]
  · obtain ⟨e, he⟩ : ∃ e, e = (Enumerator.ofProgram p (some limit)).follow
      (.weights Anchor.upperLeft.levelWeights) := ⟨_, rfl⟩
    have hprogram : e.program = p := by rw [he]; rfl
    have hanswer : e.answer = .timedOut (Nat.nth p.FeasibleAt limit + 1) := by
      subst hprogram
      exact Enumerator.answer_of_lt_feasibleCount (by rw [he]; rfl) hlt
    have hnodes : Nat.nth p.FeasibleAt limit + 1 < Work.nodeBound := by
      have hle := e.answers_answer.nodes_le
      rw [hanswer, hprogram] at hle
      exact lt_of_le_of_lt (hle.trans (Nat.pow_le_pow_right two_pos p.c1_length_le)) (by decide)
    have hfits : p.dimension ≤ maxLength := p.c1_length_le.trans (by decide)
    rw [he] at hanswer
    obtain ⟨c, w, hexec, hstatus, hfrontier, hbranching, hcalls, hsolves⟩ :=
      Run.session_of_timedOut m.config (o := Enumerator.oracle p) p.dimension_ne_zero hfits clock
        fuel hnodes hanswer
    have hcount := Session.solves_exec_start (Enumerator.oracle p) clock
      (Run.session m.config (Enumerator.oracle p).dimension fuel) (.ofProgram p (some limit))
    refine ⟨c, ?_, hstatus, hfrontier, hbranching, hcalls, ?_⟩
    · rw [run_result, hexec]
    · rw [run_world, ← hcount, hexec, hsolves]
  · obtain ⟨hprogram, hlimit⟩ := Enumerator.after_eq p (.ofProgram p (some limit)) calls
    have hiff := Enumerator.answer_eq_timedOut_iff hlimit nodes
    rw [hprogram] at hiff
    exact hiff

/-- `pickOne` has three feasible assignments, in places 1, 3 and 7 of the code: room for three
is enough, and with room for two the solve gives up at the last place. -/
theorem run_nodeLimit_pickOne :
    let ran (limit? : Option ℕ) := ({ config := .plain .ranking } : Method ℚ).run .bare
      (Enumerator.oracle pickOne) .still 9 (.ofProgram pickOne limit?) .empty
    (ran (some 3)).result = (ran none).result ∧
      ∃ c, (ran (some 2)).result = .ok c ∧ c.status = .partly ∧
        c.statistics.branchingNodes = 8 := by
  intro ran
  have hcount : pickOne.feasibleCount = 3 := by
    rw [Program.feasibleCount_eq_count]
    decide +kernel
  have hnth : Nat.nth pickOne.FeasibleAt 2 = 7 := by
    have hat : pickOne.FeasibleAt 7 := by decide +kernel
    have hbefore : Nat.count pickOne.FeasibleAt 7 = 2 := by decide +kernel
    rw [← hbefore, Nat.nth_count hat]
  obtain ⟨hroom, -, -⟩ :=
    run_nodeLimit pickOne 3 { config := .plain .ranking } .bare .still 9 .empty
  obtain ⟨-, htight, -⟩ :=
    run_nodeLimit pickOne 2 { config := .plain .ranking } .bare .still 9 .empty
  obtain ⟨c, hresult, hstatus, -, hnodes, -, -⟩ := htight (by rw [hcount]; decide)
  refine ⟨?_, c, hresult, hstatus, ?_⟩
  · dsimp only [ran]
    rw [hroom hcount.le]
  · rw [hnodes, hnth]

end Method

end Biobjective
