import Biobjective.Proofs.SupportedKept

/-!
# Solutions with their assignments

Where assignments are kept, each solution of a frontier carries one that is feasible and
whose outcome is the point of the solution. An enumerator gives both together, each phase
stores them together, and a frontier moves and drops whole solutions. So this holds of every
frontier that phases come to from an empty one, however they end, and for objectives of any
rational coefficients. The main result is `Method.run_attested`.
-/

namespace Biobjective

open Phase

namespace Frontier

variable {K : Type}

/-- All solutions of the frontier have a property. -/
structure Members (P : Solution K → Prop) (f : Frontier K) : Prop where
  all : ∀ s ∈ f.all, P s
  supported : ∀ s ∈ f.supported, P s

theorem members_empty (P : Solution K → Prop) (eps : K) : (empty eps).Members P :=
  ⟨fun _ hs => absurd hs List.not_mem_nil, fun _ hs => absurd hs List.not_mem_nil⟩

variable [Scalar K] {P : Solution K → Prop} {f : Frontier K} {s : Solution K}

theorem Members.insertSupported (h : f.Members P) (hs : P s) : (f.insertSupported s).Members P := by
  refine ⟨h.all, fun t ht => ?_⟩
  rcases List.mem_cons.1 ((f.perm_insertSupported s).subset ht) with rfl | ht
  · exact hs
  · exact h.supported t ht

theorem Members.retainSupported (h : f.Members P) : f.retainSupported.Members P :=
  ⟨h.supported, h.supported⟩

/-- An update brings in nothing but the new solution. -/
theorem mem_of_mem_update {t : Solution K} (ht : t ∈ (f.update s).2.all) : t = s ∨ t ∈ f.all := by
  rcases f.update_place s with
    ⟨hrefused, -⟩ | ⟨-, ⟨xs, d, ys, hall, -, -, htaken⟩ | ⟨-, htaken⟩⟩
  · rw [hrefused] at ht
    exact Or.inr ht
  · rw [htaken] at ht
    rw [hall]
    rcases List.mem_append.1 ht with ht | ht
    · exact Or.inr (List.mem_append_left _ ht)
    · exact (List.mem_cons.1 ht).imp_right fun ht =>
        List.mem_append_right _ (List.mem_cons_of_mem d (List.mem_of_mem_filter ht))
  · rw [htaken] at ht
    exact List.mem_cons.1 ((perm_insertOrdered s f.all).subset ht)

theorem Members.update (h : f.Members P) (hs : P s) : (f.update s).2.Members P := by
  refine ⟨fun t ht => ?_, ?_⟩
  · rcases mem_of_mem_update ht with rfl | ht
    · exact hs
    · exact h.all t ht
  · rw [update_supported]
    exact h.supported

end Frontier

/-- The assignment of the solution is feasible, and the point is its outcome. -/
structure Program.Attests (p : Program ℚ) (s : Solution ℚ) : Prop where
  feasible : p.Feasible s.decisions
  outcome_eq : p.outcome s.decisions = s.toPoint

namespace Program

/-- The enumerator attests what it finds, and the frontier holds what is attested. -/
def attestRules (p : Program ℚ) : Rules ℚ where
  found best := p.Feasible best.decisions ∧ p.outcome best.decisions = best.toPoint
  frontier := Frontier.Members p.Attests

theorem attests_toSolution {p : Program ℚ} {best : Optimum ℚ} (hbest : p.attestRules.found best)
    (supported : Bool) : p.Attests (best.toSolution supported true) :=
  ⟨hbest.1, hbest.2⟩

/-- Rounding a feasible assignment changes nothing. -/
theorem Feasible.map_binary {p : Program ℚ} {x : List ℚ} (h : p.Feasible x) : x.map binary = x := by
  obtain ⟨mask, -, rfl⟩ := p.exists_mask h.length_eq h.zero_or_one
  exact p.map_binary_decisions mask

theorem attests_of_unmarked {p : Program ℚ} {best : Optimum ℚ} {s : Solution ℚ}
    (hbest : p.attestRules.found best) (hs : best.Unmarked true s) : p.Attests s := by
  have hdecisions : s.decisions = best.decisions := by
    rcases hs.decisions_eq with h | h
    · exact h
    · exact h.trans hbest.1.map_binary
  exact ⟨hdecisions ▸ hbest.1, by rw [hdecisions, hbest.2, hs.toPoint_eq]⟩

variable (p : Program ℚ) {cfg : Config ℚ} (hkeep : cfg.keepDecisions = true)
include hkeep

theorem allowsFirst_attestRules : p.attestRules.AllowsFirst cfg where
  insert := fun _ _ hbest hf => hf.insertSupported (hkeep ▸ attests_toSolution hbest true)
  retain := fun _ hf => hf.retainSupported

theorem allowsSecond_attestRules : p.attestRules.AllowsSecond cfg where
  update := fun _ _ _ hbest hs hf => hf.update (attests_of_unmarked hbest (hkeep ▸ hs))

end Program

/-- The frontiers that phases which keep assignments come to from an empty one, each phase on
an enumerator of the program with any directives in force and with any limit. -/
inductive Frontier.GrownBy (p : Program ℚ) : Frontier ℚ → Prop
  | empty (eps : ℚ) : GrownBy p (.empty eps)
  | supported {f : Frontier ℚ} (h : GrownBy p f) (cfg : Config ℚ) (hkeep : cfg.keepDecisions = true)
      (clock : Clock) (work : Work) (w : World ℚ (Enumerator ℚ)) (hw : w.oracle.program = p) :
      GrownBy p (hold (Enumerator.oracle p) clock (Supported.phase cfg) ⟨f, work⟩ w).1.2.frontier
  | splitting {f : Frontier ℚ} (h : GrownBy p f) (cfg : Config ℚ) (hkeep : cfg.keepDecisions = true)
      (clock : Clock) (fuel : ℕ) (work : Work) (w : World ℚ (Enumerator ℚ))
      (hw : w.oracle.program = p) :
      GrownBy p (hold (Enumerator.oracle p) clock (Splitting.phase cfg fuel)
        ⟨f, work⟩ w).1.2.frontier
  | ranking {f : Frontier ℚ} (h : GrownBy p f) (cfg : Config ℚ) (hkeep : cfg.keepDecisions = true)
      (clock : Clock) (dimension fuel : ℕ) (work : Work) (w : World ℚ (Enumerator ℚ))
      (hw : w.oracle.program = p) :
      GrownBy p (hold (Enumerator.oracle p) clock (Ranking.phase cfg dimension fuel)
        ⟨f, work⟩ w).1.2.frontier

theorem Frontier.GrownBy.attested {p : Program ℚ} {f : Frontier ℚ} (h : f.GrownBy p) :
    f.Members p.Attests := by
  have hv := Enumerator.oracle_vouches_decisions p
  -- The rules hold of a phase's frontier however the phase ends, so no case asks for its result.
  induction h with
  | empty eps => exact members_empty _ eps
  | @supported f _ cfg hkeep clock work w hw ih =>
      have hr := p.allowsFirst_attestRules hkeep
      exact (Supported.abides_phase hv hr clock ⟨f, work⟩ w hw ih).frontier
  | @splitting f _ cfg hkeep clock fuel work w hw ih =>
      have hr := p.allowsSecond_attestRules hkeep
      exact (Splitting.abides_phase hv { hr with } fuel clock ⟨f, work⟩ w hw ih).frontier
  | @ranking f _ cfg hkeep clock dimension fuel work w hw ih =>
      have hr := p.allowsSecond_attestRules hkeep
      exact (Ranking.abides_phase hv { hr with } (fun _ => trivial) fuel clock ⟨f, work⟩ w hw
        ih).frontier

/-- The frontier of a conclusion has grown from an empty one. -/
theorem Run.grownBy_of_session_ok {p : Program ℚ} {cfg : Config ℚ} (hkeep : cfg.keepDecisions = true)
    {clock : Clock} {fuel : ℕ} {e : Enumerator ℚ} (he : e.program = p) {c : Conclusion ℚ}
    (hok : ((session cfg p.dimension fuel).exec (Enumerator.oracle p) clock (.start e)).1 = .ok c) :
    c.frontier.GrownBy p := by
  obtain ⟨first, q, w, second, q', w', hfirst, hsecond, rfl, -⟩ :=
    of_session_ok (o := Enumerator.oracle p) hok
  have hprogram : w.oracle.program = p := by
    have hstate := (Supported.abides_phase (Enumerator.oracle_vouches_decisions p)
      (p.allowsFirst_attestRules hkeep) clock { frontier := .empty cfg.tolerances.dominance }
      (.start e) he (Frontier.members_empty _ _)).state
    rw [← firstPhase, hfirst] at hstate
    exact hstate
  have hgrown := (Frontier.GrownBy.empty cfg.tolerances.dominance).supported cfg hkeep clock {}
    (.start e) he
  rw [← firstPhase, hfirst] at hgrown
  change q'.frontier.GrownBy p
  cases hstrategy : cfg.strategy with
  | splitting =>
      rw [secondPhase_splitting hstrategy] at hsecond
      have hgrown' := hgrown.splitting cfg hkeep clock fuel q.work (w.time clock).2 hprogram
      rw [hsecond] at hgrown'
      exact hgrown'
  | ranking =>
      rw [secondPhase_ranking hstrategy] at hsecond
      have hgrown' := hgrown.ranking cfg hkeep clock (Enumerator.oracle p).dimension fuel q.work
        (w.time clock).2 hprogram
      rw [hsecond] at hgrown'
      exact hgrown'

namespace Method

/-- Wherever assignments are kept, each solution of a frontier that phases or a whole run come
to has a feasible assignment of zeros and ones whose outcome is its point. -/
theorem run_attested (p : Program ℚ) :
    (∀ f : Frontier ℚ, f.GrownBy p → ∀ s, s ∈ f.supported ∨ s ∈ f.all → p.Attests s) ∧
    ∀ (m : Method ℚ) (fmt : ReportFormat ℚ) (clock : Clock) (fuel : ℕ) (e : Enumerator ℚ)
      (files : Files), m.config.keepDecisions = true → e.program = p →
      ∀ c, (m.run fmt (Enumerator.oracle p) clock fuel e files).result = .ok c →
        ∀ s, s ∈ c.frontier.supported ∨ s ∈ c.frontier.all → p.Attests s := by
  refine ⟨fun f hf s hs => hs.elim (hf.attested.supported s) (hf.attested.all s), ?_⟩
  intro m fmt clock fuel e files hkeep he c hc s hs
  rw [run_result] at hc
  have hgrown := Run.grownBy_of_session_ok hkeep he hc
  exact hs.elim (hgrown.attested.supported s) (hgrown.attested.all s)

/-- Three items to pick one of, with objectives in thirds. -/
def thirds : Program ℚ :=
  { c1 := [1 / 3, 13 / 3, 25 / 3]
    c2 := [25 / 3, 22 / 3, 1 / 3]
    rows := [⟨[1 / 2, 1 / 2, 1 / 2], .equal, 1 / 2⟩]
    c1_ne_nil := by decide
    c1_length_le := by decide
    c2_length := by decide
    coefs_length := by decide }

/-- The point in the middle is found by splitting and by ranking. -/
theorem run_attested_thirds :
    let first := hold (Enumerator.oracle thirds) .still (Supported.phase (.plain .splitting))
      ⟨.empty (1 / 10), {}⟩ (.start (.ofProgram thirds none))
    let second := hold (Enumerator.oracle thirds) .still (Splitting.phase (.plain .splitting) 9)
      ⟨first.1.2.frontier, {}⟩ (.start (.ofProgram thirds none))
    let ran := ({ config := .plain .ranking } : Method ℚ).run .bare (Enumerator.oracle thirds)
      .still 9 (.ofProgram thirds none) .empty
    second.1.2.frontier.points = [⟨1 / 3, 25 / 3⟩, ⟨13 / 3, 22 / 3⟩, ⟨25 / 3, 1 / 3⟩] ∧
      (∀ s ∈ second.1.2.frontier.all, thirds.Attests s) ∧
      ∃ c, ran.result = .ok c ∧ c.frontier.points = second.1.2.frontier.points ∧
        ∀ s ∈ c.frontier.all, thirds.Attests s := by
  intro first second ran
  obtain ⟨hphases, hruns⟩ := run_attested thirds
  have hfirst := (Frontier.GrownBy.empty (1 / 10)).supported (.plain .splitting) rfl .still {}
    (.start (.ofProgram thirds none)) rfl
  have hsecond := hfirst.splitting (.plain .splitting) rfl .still 9 {}
    (.start (.ofProgram thirds none)) rfl
  have hran : ran.result.map (·.frontier.points) = .ok second.1.2.frontier.points := by
    decide +kernel
  obtain ⟨c, hc, hpoints⟩ := exists_of_map_eq_ok hran
  refine ⟨by decide +kernel, fun s hs => hphases _ hsecond s (Or.inr hs), c, hc, hpoints, ?_⟩
  exact fun s hs => hruns _ _ _ _ _ _ rfl rfl c hc s (Or.inr hs)

end Method

end Biobjective
