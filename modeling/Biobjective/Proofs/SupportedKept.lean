import Biobjective.Proofs.Conduct

/-!
# Supported points are kept

The second phase comes across the supported points again, as solutions without the mark of
a supported point, and it comes across new ones. A supported point is Pareto, so no outcome
beats it, and of two solutions with one point the earlier one stays. Hence no update
displaces a marked solution. The main result is `Method.run_keeps_supported`, with the
counters that follow from it.
-/

namespace Biobjective

theorem Stairs.filter {P : Solution ℚ → Prop} {all : List (Solution ℚ)} (h : Stairs P all)
    (q : Solution ℚ → Bool) : Stairs P (all.filter q) :=
  ⟨h.descends.filter q, fun s hs => h.mem s (List.mem_of_mem_filter hs)⟩

/-- An unmarked solution that beats no marked one leaves the marked ones as they are. -/
theorem Frontier.filter_supported_update {f : Frontier ℚ} (h : f.Tidy) {s : Solution ℚ}
    (hs : s.toPoint.Whole) (hmark : s.supported = false)
    (hbeats : ∀ e ∈ f.all, e.supported = true → ¬s.Beats e) :
    (f.update s).2.all.filter (·.supported) = f.all.filter (·.supported) := by
  apply Stairs.eq_of_mem_iff ((h.update hs).stairs.filter _) (h.stairs.filter _)
  intro e
  rw [update_all, List.mem_filter, List.mem_filter,
    mem_absorb_iff (Solution.sharp_whole h.eps_nonneg h.eps_lt_one) h.stairs hs]
  constructor
  · rintro ⟨⟨he, -⟩ | ⟨rfl, -⟩, hmarked⟩
    · exact ⟨he, hmarked⟩
    · exact absurd (hmark.symm.trans hmarked) Bool.false_ne_true
  · rintro ⟨he, hmarked⟩
    exact ⟨Or.inl ⟨he, hbeats e he hmarked⟩, hmarked⟩

/-- The marked solutions of a tidy frontier, and those known to be supported, are `l`. -/
structure Frontier.Marks (l : List (Solution ℚ)) (f : Frontier ℚ) : Prop where
  tidy : f.Tidy
  supported_eq : f.supported = l
  filter_eq : f.all.filter (·.supported) = l

theorem Frontier.Marks.update {p : Program ℚ} (hp : p.WholeObjectives) {l : List (Solution ℚ)}
    (hl : ∀ e ∈ l, p.IsPareto e.toPoint) {f : Frontier ℚ} (h : f.Marks l) {s : Solution ℚ}
    (hs : s.toPoint ∈ p.outcomes) (hmark : s.supported = false) : (f.update s).2.Marks l := by
  have hbeats : ∀ e ∈ f.all, e.supported = true → ¬s.Beats e := by
    intro e he hmarked hbeat
    have hmem : e ∈ l := h.filter_eq ▸ List.mem_filter.2 ⟨he, hmarked⟩
    exact hbeat.2 ((hl e hmem).eq_of_weaklyDominates hs hbeat.1)
  refine ⟨h.tidy.update (hp.whole hs), ?_, ?_⟩
  · rw [update_supported, h.supported_eq]
  · rw [filter_supported_update h.tidy (hp.whole hs) hmark hbeats, h.filter_eq]

theorem Oracle.Vouches.mono {K σ : Type} {o : Oracle K σ} {T : σ → Prop}
    {good good' : Optimum K → Prop} (h : o.Vouches T good)
    (hgood : ∀ best, good best → good' best) : o.Vouches T good' :=
  ⟨h.follow, h.solve, fun s best hs hanswer => hgood best (h.optimal s best hs hanswer)⟩

/-- The enumerator of a program finds feasible assignments, each with its outcome. -/
theorem Enumerator.oracle_vouches_decisions (p : Program ℚ) :
    (oracle p).Vouches (·.program = p) fun best =>
      p.Feasible best.decisions ∧ p.outcome best.decisions = best.toPoint := by
  refine ⟨fun e d he => (e.follow_program d).trans he, fun e he => he, ?_⟩
  intro e best he hanswer
  subst he
  have hanswers := e.answers_answer
  change e.answer = .optimal best at hanswer
  rw [hanswer] at hanswers
  cases hanswers with
  | optimal mask admits least => exact ⟨admits.1.2, rfl⟩

theorem Enumerator.oracle_vouches (p : Program ℚ) :
    (oracle p).Vouches (·.program = p) fun best => best.toPoint ∈ p.outcomes :=
  (oracle_vouches_decisions p).mono fun best hbest => ⟨best.decisions, hbest⟩

namespace Supported

open Phase

/-- What the first phase takes for supported carries the mark. -/
def markRules (K : Type) : Rules K where
  frontier f := ∀ s ∈ f.supported, s.supported = true

theorem allowsFirst_markRules {K : Type} [Scalar K] (cfg : Config K) :
    (markRules K).AllowsFirst cfg where
  insert := by
    intro f best _ hf s hs
    rcases List.mem_cons.1 ((f.perm_insertSupported _).subset hs) with rfl | hs
    · rfl
    · exact hf s hs
  retain := fun f hf => hf

end Supported

namespace Run

open Phase

/-- The solutions that the first phase hands on are marked and Pareto. -/
theorem marks_firstPhase {p : Program ℚ} (hp : p.WholeObjectives) {cfg : Config ℚ}
    (htol : cfg.tolerances.Fine) {clock : Clock} {limit? : Option ℕ} {first : Status}
    {q : Progress ℚ} {w : World ℚ (Enumerator ℚ)}
    (hfirst : firstPhase cfg (Enumerator.oracle p) clock (.ofProgram p limit?) =
      ((.ok first, q), w)) :
    q.frontier.Marks q.frontier.supported ∧
      (∀ e ∈ q.frontier.supported, p.IsPareto e.toPoint) ∧ w.oracle.program = p := by
  rw [firstPhase] at hfirst
  have hended := (Supported.ensures_phase (k := 0) hp htol.tie_pos htol.tie_le_half rfl
    (inForce_start p limit?) (Progress.room_start p _ (by omega))).ok_of_hold hfirst
  have habides := Supported.abides_phase
    ((Enumerator.oracle_vouches p).mono fun _ _ => trivial) (Supported.allowsFirst_markRules cfg)
    clock { frontier := .empty cfg.tolerances.dominance } (.start (.ofProgram p limit?)) rfl
    fun e he => absurd he List.not_mem_nil
  rw [hfirst] at habides
  obtain ⟨hprogram, -, -, tail, htail⟩ := habides
  have hmarked : ∀ e ∈ q.frontier.supported, e.supported = true :=
    htail.frontier
  have hpareto : ∀ e ∈ q.frontier.supported, p.IsPareto e.toPoint :=
    fun e he => (hended.chain.supported e he).isPareto
  have heps : q.frontier.eps = cfg.tolerances.dominance := hended.eps_eq
  refine ⟨⟨⟨⟨?_, ?_⟩, ?_, ?_⟩, rfl, ?_⟩, hpareto, hprogram⟩
  · rw [hended.all_eq]
    exact List.pairwise_map.1 hended.chain.staircase
  · rw [hended.all_eq]
    exact fun e he => hp.whole (hpareto e he).mem
  · rw [heps]
    exact htol.dominance_nonneg
  · rw [heps]
    exact htol.dominance_lt_one
  · rw [hended.all_eq]
    exact List.filter_eq_self.2 hmarked

/-- The second phase hands on what the first one has marked. -/
theorem marks_of_session_ok {p : Program ℚ} (hp : p.WholeObjectives) {cfg : Config ℚ}
    (htol : cfg.tolerances.Fine) {clock : Clock} {limit? : Option ℕ} {fuel : ℕ}
    {c : Conclusion ℚ}
    (hok : ((session cfg p.dimension fuel).exec (Enumerator.oracle p) clock
      (.start (.ofProgram p limit?))).1 = .ok c) :
    c.frontier.Marks (firstPhase cfg (Enumerator.oracle p) clock
      (.ofProgram p limit?)).1.2.frontier.supported := by
  obtain ⟨first, q, w, second, q', w', hfirst, hsecond, rfl, -⟩ :=
    of_session_ok (o := Enumerator.oracle p) hok
  obtain ⟨hmarks, hpareto, hprogram⟩ := marks_firstPhase hp htol hfirst
  let r : Rules ℚ :=
    { found := fun best => best.toPoint ∈ p.outcomes
      frontier := Frontier.Marks q.frontier.supported }
  have hr : r.AllowsSecond cfg :=
    { update := fun f best s hbest hs hf =>
        hf.update hp hpareto (hs.toPoint_eq ▸ hbest) hs.supported_eq }
  obtain ⟨-, -, -, tail, htail⟩ := abides_secondPhase (r := r) (Enumerator.oracle_vouches p)
    { hr with } { hr with } (fun _ => trivial) fuel clock q (w.time clock).2 hprogram hmarks
  rw [hsecond] at htail
  rw [hfirst]
  exact htail.frontier

end Run

/-- Whatever a run concludes with, complete or not, the marked solutions are those that the
first phase took for supported, in their order and with their assignments. The counters of
the two phases add up to the number of solutions. -/
theorem Method.run_keeps_supported {p : Program ℚ} (hp : p.WholeObjectives) {m : Method ℚ}
    (htol : m.config.tolerances.Fine) (fmt : ReportFormat ℚ) (clock : Clock) (limit? : Option ℕ)
    (fuel : ℕ) (files : Files) {c : Conclusion ℚ}
    (hrun : (m.run fmt (Enumerator.oracle p) clock fuel (.ofProgram p limit?) files).result =
      .ok c) :
    c.frontier.all.filter (·.supported) = c.frontier.supported ∧
      c.frontier.supported = (Run.firstPhase m.config (Enumerator.oracle p) clock
        (.ofProgram p limit?)).1.2.frontier.supported ∧
      c.statistics.phaseOneSolutions = c.frontier.supported.length ∧
      c.statistics.totalSolutions =
        c.statistics.phaseOneSolutions + c.statistics.phaseTwoSolutions ∧
      c.statistics.totalSolutions = c.frontier.all.length := by
  rw [run_result] at hrun
  have hmarks := Run.marks_of_session_ok hp htol hrun
  obtain ⟨work, -, hcounters⟩ := Run.session_counters hrun
  have hone : c.statistics.phaseOneSolutions = c.frontier.supported.length :=
    congrArg Statistics.phaseOneSolutions hcounters
  have htwo : c.statistics.phaseTwoSolutions = c.frontier.all.countP fun s => !s.supported :=
    congrArg Statistics.phaseTwoSolutions hcounters
  have htotal : c.statistics.totalSolutions = c.frontier.all.length :=
    congrArg Statistics.totalSolutions hcounters
  have hfilter : c.frontier.all.filter (·.supported) = c.frontier.supported :=
    hmarks.filter_eq.trans hmarks.supported_eq.symm
  refine ⟨hfilter, hmarks.supported_eq, hone, ?_, htotal⟩
  rw [hone, htwo, htotal, ← hfilter, ← List.countP_eq_length_filter]
  simpa using c.frontier.all.length_eq_countP_add_countP Solution.supported

/-- Three items by ranking: two supported points, and one that the second phase adds. -/
theorem Method.run_keeps_supported_pickOne :
    ∃ c, (runPickOne .ranking).result = .ok c ∧ c.frontier.points = [⟨1, 4⟩, ⟨3, 3⟩, ⟨4, 1⟩] ∧
      c.frontier.all.filter (·.supported) = c.frontier.supported ∧
      c.statistics.phaseOneSolutions + c.statistics.phaseTwoSolutions = 3 := by
  obtain ⟨c, hrun, hstatus⟩ := exists_run_completed (m := { config := .plain .ranking })
    wholeObjectives_pickOne (Config.fine_plain .ranking) .bare .empty
    (Run.fills_ranking wholeObjectives_pickOne rfl .still none ampleFuel) feasible_pickOne
    ⟨rfl, Config.neverOver_plain .ranking⟩ (by decide)
  have hpoints := ((concludes_of_run wholeObjectives_pickOne (Config.fine_plain .ranking)
    (Run.fills_ranking wholeObjectives_pickOne rfl .still none ampleFuel) hrun).points_eq
      hstatus).trans paretoPoints_pickOne
  obtain ⟨hfilter, -, -, hsum, htotal⟩ := run_keeps_supported wholeObjectives_pickOne
    (Config.fine_plain .ranking) .bare .still none ampleFuel .empty hrun
  refine ⟨c, hrun, hpoints, hfilter, ?_⟩
  rw [← hsum, htotal, ← List.length_map (·.toPoint)]
  exact congrArg List.length hpoints

end Biobjective
