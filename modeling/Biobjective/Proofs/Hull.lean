import Biobjective.Proofs.FirstPhase
import Mathlib.Algebra.Order.Monoid.Prod
import Mathlib.Analysis.Convex.Extreme

/-!
# The lower left hull

`Program.lowerHull` is the convex hull of the feasible outcomes together with
everything to the upper right of it. It lies on one side of each saturated
chord, so a chain with both anchors whose chords are all saturated has every
extreme point of the hull as a member: any other point of the hull has a point
of a chord to its lower left.

The main result, `Supported.phase_exact`, says what an unhindered first phase
finds on a feasible program.
-/

namespace Biobjective

/-- The point as a pair. -/
def Point.pair (z : Point ℚ) : ℚ × ℚ := (z.z1, z.z2)

/-- The convex hull of the feasible outcomes and all pairs to the upper right of
it. -/
def Program.lowerHull (p : Program ℚ) : Set (ℚ × ℚ) :=
  {u | ∃ v ∈ convexHull ℚ (Point.pair '' p.outcomes), v ≤ u}

namespace Program

theorem pair_mem_lowerHull {p : Program ℚ} {z : Point ℚ} (hz : z ∈ p.outcomes) :
    z.pair ∈ p.lowerHull :=
  ⟨z.pair, subset_convexHull ℚ _ ⟨z, hz, rfl⟩, le_rfl⟩

theorem mem_lowerHull_of_le {p : Program ℚ} {u v : ℚ × ℚ} (hv : v ∈ p.lowerHull) (hvu : v ≤ u) :
    u ∈ p.lowerHull := by
  obtain ⟨t, ht, htv⟩ := hv
  exact ⟨t, ht, htv.trans hvu⟩

theorem convex_lowerHull (p : Program ℚ) : Convex ℚ p.lowerHull := by
  rintro u ⟨u', hu', hu⟩ v ⟨v', hv', hv⟩ a b ha hb hab
  refine ⟨a • u' + b • v', convex_convexHull ℚ _ hu' hv' ha hb hab, ?_⟩
  exact add_le_add (smul_le_smul_of_nonneg_left hu ha) (smul_le_smul_of_nonneg_left hv hb)

/-- What weights that are not negative say of all outcomes they say of the
hull. -/
theorem le_of_mem_lowerHull {p : Program ℚ} {w : Weights ℚ} (h1 : 0 ≤ w.w1) (h2 : 0 ≤ w.w2)
    {z : Point ℚ} (hz : p.Minimises w z) {u : ℚ × ℚ} (hu : u ∈ p.lowerHull) :
    w.value z ≤ w.value ⟨u.1, u.2⟩ := by
  obtain ⟨v, hv, hvu⟩ := hu
  have hconvex : Convex ℚ {v : ℚ × ℚ | w.value z ≤ w.w1 * v.1 + w.w2 * v.2} := by
    refine convex_halfSpace_ge ⟨fun s t => ?_, fun a s => ?_⟩ (w.value z)
    · simp only [Prod.fst_add, Prod.snd_add]
      ring
    · simp only [Prod.smul_fst, Prod.smul_snd, smul_eq_mul]
      ring
  have hv' : w.value z ≤ w.w1 * v.1 + w.w2 * v.2 := by
    refine convexHull_min ?_ hconvex hv
    rintro _ ⟨y, hy, rfl⟩
    exact hz y hy
  have hle1 := mul_le_mul_of_nonneg_left hvu.1 h1
  have hle2 := mul_le_mul_of_nonneg_left hvu.2 h2
  exact hv'.trans (add_le_add hle1 hle2)

/-- A lexicographic minimum of an objective bounds the hull in it. -/
theorem IsLexMin.le_of_mem_lowerHull {p : Program ℚ} {i : Objective} {z : Point ℚ}
    (h : p.IsLexMin i z) {u : ℚ × ℚ} (hu : u ∈ p.lowerHull) : i.of z ≤ i.of ⟨u.1, u.2⟩ := by
  have hmin : p.Minimises (Anchor.weightsOf i) z := by
    intro y hy
    rw [Anchor.value_weightsOf, Anchor.value_weightsOf]
    rcases h.lex y hy with hlt | ⟨heq, -⟩
    · exact hlt.le
    · exact heq.le
  have hnonneg : 0 ≤ (Anchor.weightsOf i : Weights ℚ).w1 ∧
      0 ≤ (Anchor.weightsOf i : Weights ℚ).w2 := by
    cases i with
    | first => exact ⟨zero_le_one, le_rfl⟩
    | second => exact ⟨le_rfl, zero_le_one⟩
  have hle := Program.le_of_mem_lowerHull hnonneg.1 hnonneg.2 hmin hu
  rwa [Anchor.value_weightsOf, Anchor.value_weightsOf] at hle

/-- An extreme point of the hull has no other point of the hull to its lower
left. -/
theorem eq_of_le_of_mem_extremePoints {p : Program ℚ} {u v : ℚ × ℚ}
    (hu : u ∈ p.lowerHull.extremePoints ℚ) (hv : v ∈ p.lowerHull) (hvu : v ≤ u) : v = u := by
  have hfar : u + (u - v) ∈ p.lowerHull :=
    mem_lowerHull_of_le hu.1 (le_add_of_nonneg_right (sub_nonneg.2 hvu))
  refine hu.2 hv hfar ⟨1 / 2, 1 / 2, by norm_num, by norm_num, by norm_num, ?_⟩
  ext
  · simp
    ring
  · simp
    ring

/-- The point of a chord right below a pair of the hull between its ends. -/
theorem exists_chord_point_le {p : Program ℚ} {a b : Solution ℚ}
    (hab : Descends a.toPoint b.toPoint) (hsat : Saturated p a b) {u : ℚ × ℚ}
    (hu : u ∈ p.lowerHull) (hle : a.z1 ≤ u.1) (hlt : u.1 < b.z1) :
    ∃ t : ℚ, 0 ≤ t ∧ t < 1 ∧ (1 - t) • a.toPoint.pair + t • b.toPoint.pair ≤ u := by
  have hd : 0 < b.z1 - a.z1 := sub_pos.2 hab.1
  have hchord : (a.z2 - b.z2) * a.z1 + (b.z1 - a.z1) * a.z2 ≤
      (a.z2 - b.z2) * u.1 + (b.z1 - a.z1) * u.2 :=
    le_of_mem_lowerHull (w := a.chord b) (sub_pos.2 hab.2).le hd.le hsat hu
  obtain ⟨t, ht⟩ : ∃ t, t * (b.z1 - a.z1) = u.1 - a.z1 :=
    ⟨(u.1 - a.z1) / (b.z1 - a.z1), div_mul_cancel₀ _ hd.ne'⟩
  have ht0 : 0 ≤ t := by
    refine nonneg_of_mul_nonneg_left ?_ hd
    linarith
  have ht1 : t < 1 := by
    refine lt_of_mul_lt_mul_right ?_ hd.le
    linarith
  refine ⟨t, ht0, ht1, ?_, ?_⟩
  · have h1 : (1 - t) * a.z1 + t * b.z1 = u.1 := by linarith
    exact h1.le
  · have h2 : (b.z1 - a.z1) * ((1 - t) * a.z2 + t * b.z2) ≤ (b.z1 - a.z1) * u.2 := by
      have hscaled : (a.z2 - b.z2) * (t * (b.z1 - a.z1)) = (a.z2 - b.z2) * (u.1 - a.z1) := by
        rw [ht]
      linarith
    exact le_of_mul_le_mul_left h2 hd

end Program

/-- A chain with both anchors and nothing below its chords has every extreme
point of the hull. -/
theorem Chain.exists_mem_of_mem_extremePoints {p : Program ℚ} {l : List (Solution ℚ)}
    (h : Chain p l) (hanchored : Anchored p l)
    (hsat : ∀ ab ∈ neighbours l, Saturated p ab.1 ab.2) {u : ℚ × ℚ}
    (hu : u ∈ p.lowerHull.extremePoints ℚ) : ∃ s ∈ l, s.toPoint.pair = u := by
  obtain ⟨⟨a, hhead, ha⟩, b, hlast, hb⟩ := hanchored
  have hbl : b ∈ l := List.mem_of_getLast? hlast
  have hleft : a.z1 ≤ u.1 := ha.le_of_mem_lowerHull hu.1
  have hbelow : b.z2 ≤ u.2 := hb.le_of_mem_lowerHull hu.1
  by_cases hright : b.z1 ≤ u.1
  · exact ⟨b, hbl, Program.eq_of_le_of_mem_extremePoints hu (Program.pair_mem_lowerHull hb.mem)
      ⟨hright, hbelow⟩⟩
  · obtain ⟨rest, rfl⟩ := List.head?_eq_some_iff.1 hhead
    obtain ⟨⟨c, d⟩, hcd, hle, hlt⟩ :=
      exists_neighbours_across (fun s => s.z1) hleft ⟨b, hbl, not_le.1 hright⟩
    obtain ⟨hc, hd⟩ := mem_of_mem_neighbours hcd
    have hcmem := Program.pair_mem_lowerHull (h.supported c hc).mem
    have hdmem := Program.pair_mem_lowerHull (h.supported d hd).mem
    obtain ⟨t, ht0, ht1, hpoint⟩ := Program.exists_chord_point_le
      (rel_of_mem_neighbours h.descends hcd) (hsat _ hcd) hu.1 hle hlt
    have heq := Program.eq_of_le_of_mem_extremePoints hu
      (p.convex_lowerHull hcmem hdmem (sub_nonneg.2 ht1.le) ht0 (sub_add_cancel 1 t)) hpoint
    refine ⟨c, hc, ?_⟩
    rcases eq_or_lt_of_le ht0 with rfl | hpos
    · rw [← heq, sub_zero, one_smul, zero_smul, add_zero]
    · exact hu.2 hcmem hdmem ⟨1 - t, t, sub_pos.2 ht1, hpos, sub_add_cancel 1 t, heq⟩

namespace Supported

/-- The place of the cursor after a first phase: four solves were for the
anchors, each point between them took one, and each other one moved the
cursor. -/
def place (q : Progress ℚ) : ℕ := q.work.calls - 4 - (q.frontier.supported.length - 2)

/-- The loop over the chords came to its own end: the count of its rounds, which
starts at one, stayed below its bound, or the cursor stands at the last point. -/
def LoopEnded (cfg : Config ℚ) (q : Progress ℚ) : Prop :=
  q.work.calls - 3 < cfg.maxChords ∨ q.frontier.supported.length ≤ place q + 1

theorem Searched.saturated {p : Program ℚ} {cfg : Config ℚ} {q q' : Progress ℚ}
    (h : Searched p cfg q q') (hcalls : q.work.calls = 0) (hended : LoopEnded cfg q') :
    ∀ ab ∈ neighbours q'.frontier.supported, Saturated p ab.1 ab.2 := by
  obtain ⟨left, hrefining, hcount, hend⟩ := h
  have hplace : place q' = left := by
    rw [place]
    omega
  refine hrefining.cursor.saturated ?_
  rcases hend with hend | hend
  · exact hend
  · rcases hended with hrounds | hlast
    · omega
    · rwa [hplace] at hlast

/-- On a feasible program with whole objectives, an unhindered first phase
completes with a staircase of supported outcomes between the two lexicographic
minima. If the loop over the chords came to its own end, no outcome lies below a
chord, and all extreme points of the lower left hull are found. -/
theorem phase_exact {p : Program ℚ} (hp : p.WholeObjectives) (hfeasible : ∃ x, p.Feasible x)
    {cfg : Config ℚ} (h0 : 0 < cfg.tolerances.tie) (h1 : cfg.tolerances.tie ≤ 1 / 2) {c : Clock}
    (hc : NeverOver cfg c) (eps : ℚ) :
    ∃ q w, (phase cfg { frontier := .empty eps }).exec (Enumerator.oracle p) c
        (.start (Enumerator.ofProgram p none)) = ((.ok .completed, q), w) ∧
      q.frontier.supported.Pairwise (fun a b => a.z1 < b.z1 ∧ b.z2 < a.z2) ∧
      (∃ a, q.frontier.supported.head? = some a ∧ p.IsLexMin .first a.toPoint) ∧
      (∃ b, q.frontier.supported.getLast? = some b ∧ p.IsLexMin .second b.toPoint) ∧
      (∀ s ∈ q.frontier.supported, p.IsSupported s.toPoint) ∧
      (LoopEnded cfg q →
        (∀ ab ∈ neighbours q.frontier.supported, ∀ y ∈ p.outcomes,
          ¬(ab.1.chord ab.2).value y < (ab.1.chord ab.2).value ab.1.toPoint) ∧
        ∀ u ∈ p.lowerHull.extremePoints ℚ, ∃ s ∈ q.frontier.supported, s.toPoint.pair = u) := by
  have hphase := ensures_phase (k := 0) hp h0 h1 (c := c)
    (q := { frontier := .empty eps }) rfl (inForce_start p none)
    (Progress.room_start p _ (by omega))
  unfold Phase.Ensures at hphase
  rcases hexec : (phase cfg { frontier := .empty eps }).exec (Enumerator.oracle p) c
    (.start (Enumerator.ofProgram p none)) with ⟨⟨cut | status, q⟩, w⟩
  · rw [hexec] at hphase
    obtain ⟨stage, -, hempty⟩ := hphase
    exact absurd hempty (Program.outcomes_ne_empty hfeasible)
  · rw [hexec] at hphase
    have hstatus : status = .completed := hphase.completed ⟨rfl, hc⟩
    have hsearched := hphase.searched hstatus
    subst hstatus
    refine ⟨q, w, rfl, hphase.chain.descends, hsearched.anchored.head, hsearched.anchored.last,
      hphase.chain.supported, fun hended => ?_⟩
    have hsat := hsearched.saturated rfl hended
    exact ⟨fun ab hab y hy => not_lt.2 (hsat ab hab y hy),
      fun u hu => hphase.chain.exists_mem_of_mem_extremePoints hsearched.anchored hsat hu⟩

/-- A first phase on three items, which takes five solves. -/
def phasePickOne : (Except Cut Status × Progress ℚ) × World ℚ (Enumerator ℚ) :=
  (phase (.plain .splitting) { frontier := .empty 0 }).exec (Enumerator.oracle pickOne) .still
    (.start (Enumerator.ofProgram pickOne none))

theorem calls_phasePickOne : phasePickOne.1.2.work.calls = 5 := by decide +kernel

theorem phase_exact_pickOne :
    ∃ q w, phasePickOne = ((.ok .completed, q), w) ∧
      ∀ u ∈ pickOne.lowerHull.extremePoints ℚ, ∃ s ∈ q.frontier.supported, s.toPoint.pair = u := by
  obtain ⟨q, w, hexec, -, -, -, -, hended⟩ := phase_exact wholeObjectives_pickOne feasible_pickOne
    (Config.fine_plain .splitting).tie_pos (Config.fine_plain .splitting).tie_le_half
    (Config.neverOver_plain .splitting) 0
  have hcalls : q.work.calls = 5 := by
    rw [← calls_phasePickOne, phasePickOne, hexec]
  refine ⟨q, w, hexec, (hended (Or.inl ?_)).2⟩
  rw [hcalls]
  decide

end Supported

end Biobjective
