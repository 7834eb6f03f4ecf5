import Biobjective.Proofs.Rerun
import Mathlib.Algebra.Order.BigOperators.Group.Finset

/-!
# Exclusions as rows

An assignment that is excluded can be cut off by a row instead: its distance from an
assignment, the number of variables in which they differ, is a linear function of the
latter. `Program.cut` is the program with one such row for each of some masks. An enumerator
that has excluded these masks answers like an enumerator of the cut program that has not, so a
run takes the same course on both: `Run.session_cut`.
-/

namespace Biobjective

open Phase

namespace Program

variable {p : Program ℚ} {masks : List ℕ} {mask m : ℕ}

/-- The coefficients by which the distance from a mask grows. -/
def distanceCoefs (p : Program ℚ) (mask : ℕ) : List ℚ :=
  (List.range p.dimension).map fun i => if mask.testBit i then -1 else 1

/-- The row that asks for a distance of one from a mask. -/
def cutRow (p : Program ℚ) (mask : ℕ) : Row ℚ :=
  ⟨p.distanceCoefs mask, .atLeast, dot (p.distanceCoefs mask) (p.decisions mask) + 1⟩

/-- The program without the assignments of some masks. -/
def cut (p : Program ℚ) (masks : List ℕ) : Program ℚ :=
  { p with
    rows := masks.map p.cutRow ++ p.rows
    coefs_length := by
      intro r hr
      rcases List.mem_append.1 hr with hr | hr
      · obtain ⟨mask, -, rfl⟩ := List.mem_map.1 hr
        simp [cutRow, distanceCoefs, dimension]
      · exact p.coefs_length r hr }

theorem dot_distanceCoefs (p : Program ℚ) (mask m : ℕ) :
    dot (p.distanceCoefs mask) (p.decisions m) =
      dot (p.distanceCoefs mask) (p.decisions mask) +
        ∑ i ∈ Finset.range p.dimension, if m.testBit i = mask.testBit i then 0 else 1 := by
  have hlength : (p.distanceCoefs mask).length = p.dimension := by simp [distanceCoefs]
  rw [p.dot_decisions hlength, p.dot_decisions hlength, ← Finset.sum_add_distrib]
  refine Finset.sum_congr rfl fun i hi => ?_
  have hcoef : (p.distanceCoefs mask).getD i 0 = if mask.testBit i then -1 else 1 := by
    rw [List.getD_eq_getElem _ _ (hlength.symm ▸ Finset.mem_range.1 hi)]
    simp [distanceCoefs]
  rw [hcoef]
  cases mask.testBit i <;> cases m.testBit i <;> norm_num

theorem satisfied_cutRow_iff (hmask : mask < 2 ^ p.dimension) (hm : m < 2 ^ p.dimension) :
    (p.cutRow mask).satisfied (dot (p.cutRow mask).coefs (p.decisions m)) = true ↔ m ≠ mask := by
  have hunfold : (p.cutRow mask).satisfied (dot (p.cutRow mask).coefs (p.decisions m)) =
      decide (dot (p.distanceCoefs mask) (p.decisions mask) + 1 - Scalar.slack ≤
        dot (p.distanceCoefs mask) (p.decisions m)) := rfl
  rw [hunfold, decide_eq_true_eq, p.dot_distanceCoefs mask m]
  constructor
  · rintro h rfl
    simp only [if_true, Finset.sum_const_zero, Scalar.slack_rat] at h
    linarith
  · intro hne
    obtain ⟨i, hi⟩ : ∃ i, m.testBit i ≠ mask.testBit i := by
      by_contra hall
      push Not at hall
      exact hne (Nat.eq_of_testBit_eq hall)
    have hlt : i < p.dimension := by
      by_contra hge
      have hpow : 2 ^ p.dimension ≤ 2 ^ i := Nat.pow_le_pow_right two_pos (not_lt.1 hge)
      exact hi (by rw [Nat.testBit_lt_two_pow (hm.trans_le hpow),
        Nat.testBit_lt_two_pow (hmask.trans_le hpow)])
    have hterm : ∀ j, (0 : ℚ) ≤ if m.testBit j = mask.testBit j then 0 else 1 := by
      intro j
      split <;> norm_num
    have hsum := Finset.single_le_sum (fun j _ => hterm j) (Finset.mem_range.2 hlt)
    simp only [if_neg hi, Scalar.slack_rat] at hsum ⊢
    linarith

theorem feasibleMask_cut_iff (hmasks : ∀ m ∈ masks, m < 2 ^ p.dimension) :
    (p.cut masks).FeasibleMask m ↔ p.FeasibleMask m ∧ m ∉ masks := by
  constructor
  · rintro ⟨hm, hlength, hvalues, hrows⟩
    refine ⟨⟨hm, hlength, hvalues, fun r hr => hrows r (List.mem_append_right _ hr)⟩, ?_⟩
    intro hmem
    have hrow := hrows (p.cutRow m) (List.mem_append_left _ (List.mem_map_of_mem hmem))
    exact (satisfied_cutRow_iff hm hm).1 hrow rfl
  · rintro ⟨⟨hm, hlength, hvalues, hrows⟩, hnot⟩
    refine ⟨hm, hlength, hvalues, fun r hr => ?_⟩
    rcases List.mem_append.1 hr with hr | hr
    · obtain ⟨mask, hmask, rfl⟩ := List.mem_map.1 hr
      exact (satisfied_cutRow_iff (hmasks mask hmask) hm).2 fun h => hnot (h ▸ hmask)
    · exact hrows r hr

theorem WholeObjectives.cut (hp : p.WholeObjectives) (masks : List ℕ) :
    (p.cut masks).WholeObjectives := ⟨hp.c1, hp.c2⟩

end Program

namespace Enumerator

/-- Enumerators of as many variables that admit the same masks list them alike. -/
theorem admitted_congr {e e' : Enumerator ℚ}
    (hdim : e'.program.dimension = e.program.dimension)
    (h : ∀ m, e'.Admits m ↔ e.Admits m) :
    e'.admitted (grayMasks e'.program.dimension) =
      e.admitted (grayMasks e.program.dimension) := by
  have hiff : ∀ m, m ∈ e'.admitted (grayMasks e'.program.dimension) ↔
      m ∈ e.admitted (grayMasks e.program.dimension) := fun m => by
    rw [mem_admitted_iff, mem_admitted_iff, h m]
  rw [hdim] at hiff ⊢
  refine List.filter_congr fun m hm => Bool.eq_iff_iff.2 ?_
  simpa only [admitted, List.mem_filter, hm, true_and] using hiff m

section Uncut

variable {p : Program ℚ} {masks : List ℕ} {e e' : Enumerator ℚ}

/-- The first enumerator has the masks cut off where the second one excludes them, and they
agree on all else that an answer depends on. -/
structure Uncut (p : Program ℚ) (masks : List ℕ) (e e' : Enumerator ℚ) : Prop where
  program : e.program = p.cut masks
  program' : e'.program = p
  unlimited : e.nodeLimit? = none
  unlimited' : e'.nodeLimit? = none
  weights : e'.weights = e.weights
  first : e'.first = e.first
  second : e'.second = e.second
  excluded : e'.excluded = e.excluded ++ masks.map p.patternOf

theorem Uncut.dimension_eq (h : Uncut p masks e e') :
    e'.program.dimension = e.program.dimension := by
  rw [h.program, h.program']
  rfl

theorem Uncut.follow (h : Uncut p masks e e') (d : Directive ℚ) :
    Uncut p masks (e.follow d) (e'.follow d) := by
  have hdim := h.dimension_eq
  obtain ⟨hcut, huncut, hfree, hfree', hweights, hfirst, hsecond, hexcluded⟩ := h
  rcases d with w | ⟨_ | _, range⟩ | (_ | _) | literals
  · exact ⟨hcut, huncut, hfree, hfree', rfl, hfirst, hsecond, hexcluded⟩
  · exact ⟨hcut, huncut, hfree, hfree', hweights, rfl, hsecond, hexcluded⟩
  · exact ⟨hcut, huncut, hfree, hfree', hweights, hfirst, rfl, hexcluded⟩
  · exact ⟨hcut, huncut, hfree, hfree', hweights, rfl, hsecond, hexcluded⟩
  · exact ⟨hcut, huncut, hfree, hfree', hweights, hfirst, rfl, hexcluded⟩
  · refine ⟨hcut, huncut, hfree, hfree', hweights, hfirst, hsecond, ?_⟩
    change _ :: e'.excluded = _
    rw [hdim, hexcluded]
    rfl

theorem Uncut.admits_iff (h : Uncut p masks e e') (hmasks : ∀ m ∈ masks, m < 2 ^ p.dimension)
    (m : ℕ) : e'.Admits m ↔ e.Admits m := by
  have houtcome : (p.cut masks).maskOutcome m = p.maskOutcome m := rfl
  rw [Admits, Admits, h.program, h.program', Program.feasibleMask_cut_iff hmasks, houtcome,
    and_assoc]
  refine and_congr_right fun hm => ?_
  simp only [obeys, h.first, h.second, h.excluded, List.any_append, Bool.not_or,
    Bool.and_eq_true, Bool.not_eq_true', p.any_hits_patternOf_eq_false_iff hmasks hm.1]
  tauto

theorem Uncut.answer_eq (h : Uncut p masks e e')
    (hmasks : ∀ m ∈ masks, m < 2 ^ p.dimension) : e'.answer = e.answer := by
  have hvalue : e'.valueAt = e.valueAt := by
    funext m
    rw [valueAt, valueAt, h.weights, h.program, h.program']
    rfl
  have hoptimum : e'.optimumAt = e.optimumAt := by
    funext m
    rw [optimumAt, optimumAt, hvalue, h.program, h.program']
    rfl
  rw [answer_of_unlimited h.unlimited', answer_of_unlimited h.unlimited, leastAnswer,
    leastAnswer, admitted_congr h.dimension_eq (h.admits_iff hmasks), hvalue, hoptimum]

theorem Uncut.solve (h : Uncut p masks e e') (hmasks : ∀ m ∈ masks, m < 2 ^ p.dimension) :
    e'.solve.1 = e.solve.1 ∧ Uncut p masks e.solve.2 e'.solve.2 :=
  ⟨h.answer_eq hmasks, h.program, h.program', h.unlimited, h.unlimited', h.weights, h.first,
    h.second, h.excluded⟩

end Uncut

/-- An enumerator of the program that excludes the masks and is under no other restriction. -/
structure OnlyExcludes (p : Program ℚ) (masks : List ℕ) (e : Enumerator ℚ) : Prop where
  program : e.program = p
  unlimited : e.nodeLimit? = none
  cleared : e.Cleared
  excluded : e.excluded = masks.map p.patternOf

theorem OnlyExcludes.uncut {p : Program ℚ} {masks : List ℕ} {e : Enumerator ℚ}
    (h : OnlyExcludes p masks e) (w : Weights ℚ) :
    Uncut p masks ((ofProgram (p.cut masks) none).follow (.weights w)) (e.follow (.weights w)) :=
  ⟨rfl, h.program, rfl, h.unlimited, rfl, h.cleared.1, h.cleared.2, h.excluded⟩

/-- What such an enumerator admits are the masks of the cut program. -/
theorem OnlyExcludes.admits_iff {p : Program ℚ} {masks : List ℕ} {e : Enumerator ℚ}
    (h : OnlyExcludes p masks e) (hmasks : ∀ m ∈ masks, m < 2 ^ p.dimension) (m : ℕ) :
    e.Admits m ↔ (p.cut masks).FeasibleMask m := by
  have hfresh : ((ofProgram (p.cut masks) none).follow (.weights ⟨1, 1⟩)).Admits m ↔
      (p.cut masks).FeasibleMask m := by
    simp [Admits, obeys, ofProgram, Enumerator.follow]
  exact ((h.uncut ⟨1, 1⟩).admits_iff hmasks m).trans hfresh

end Enumerator

/-- A run from an enumerator that excludes some masks comes to the same result as a run from
a fresh enumerator of the program without them. -/
theorem Run.session_cut {p : Program ℚ} {masks : List ℕ}
    (hmasks : ∀ m ∈ masks, m < 2 ^ p.dimension) (cfg : Config ℚ) (fuel : ℕ) (clock : Clock)
    {e : Enumerator ℚ} (he : e.OnlyExcludes p masks) :
    ((session cfg p.dimension fuel).exec (Enumerator.oracle p) clock (.start e)).1 =
      ((session cfg p.dimension fuel).exec (Enumerator.oracle (p.cut masks)) clock
        (.start (.ofProgram (p.cut masks) none))).1 := by
  obtain ⟨next, hnext⟩ := exists_session_eq_tell cfg p.dimension_ne_zero fuel
  obtain ⟨s'', hexec⟩ := Session.exec_congr (o := Enumerator.oracle (p.cut masks))
    (fun _ _ d hs => hs.follow d) (fun _ _ hs => hs.solve hmasks) clock next
    ((World.start (.ofProgram (p.cut masks) none)).tell (Enumerator.oracle (p.cut masks))
      (.weights Anchor.upperLeft.levelWeights)) (he.uncut _)
  have hresult := congrArg Prod.fst hexec
  rw [hnext]
  exact hresult

end Biobjective
