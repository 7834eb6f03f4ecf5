import Biobjective.Proofs.Dialogue
import Biobjective.Proofs.Exclusion

/-!
# The answer to any question

A scan keeps its sums by one addition for each variable it flips.
`Program.trail` is the list of the positions that it passes through, and they are
the exact positions of the masks in the order of the code, so no error is ever
carried along.

Whatever an enumerator without a limit was told and asked before, its next answer
is determined by the terms in force: infeasible if these admit no mask, and else
the optimum of the first admitted mask in the order of the code that has the least
weighted sum. The main result is `Enumerator.solve_exact`.
-/

namespace Biobjective

/-- The positions that a sweep of the columns passes through. -/
def Scan.trail {K : Type} [Scalar K] : List (Column K) → Position K → List (Position K)
  | [], q => [q]
  | c :: columns, q =>
    trail columns q ++ trail columns (((trail columns q).getLast?.getD q).flip c)

/-- Meets the assignment at a position, unless the visitor asked to stop. -/
def Scan.pass {K σ : Type} [Scalar K] (rows : List (Row K))
    (visit : σ → ℕ → Point K → ForInStep σ) (s : Scan K σ) (q : Position K) : Scan K σ :=
  if s.stopped then s else ({ s with position := q }).meet rows visit

theorem getLast?_walk (n mask : ℕ) : (walk n mask).getLast? = some (mask ^^^ gray (2 ^ n - 1)) := by
  have hpos : 2 ^ n ≠ 0 := (Nat.two_pow_pos n).ne'
  rw [walk, List.getLast?_map, List.getLast?_range, if_neg hpos, Option.map_some]

theorem Scan.trail_columns (p : Program ℚ) {n : ℕ} (hn : n ≤ p.dimension) (mask : ℕ) :
    trail ((List.range n).reverse.map p.column) (p.position mask) =
      (walk n mask).map p.position := by
  induction n generalizing mask with
  | zero => simp [trail, walk, gray]
  | succ n ih =>
      rw [p.map_column_range_succ, trail, ih (Nat.le_of_succ_le hn), List.getLast?_map, getLast?_walk,
        Option.map_some, Option.getD_some, p.flip_position _ hn, ih (Nat.le_of_succ_le hn),
        walk_succ, List.map_append]

namespace Program

/-- The positions that a scan of the program passes through. -/
def trail {K : Type} [Scalar K] (p : Program K) : List (Position K) :=
  Scan.trail p.columns p.origin

theorem trail_eq (p : Program ℚ) : p.trail = (grayMasks p.dimension).map p.position := by
  rw [trail, columns, ← p.position_zero, Scan.trail_columns p le_rfl, grayMasks]

theorem map_mask_trail (p : Program ℚ) : p.trail.map (·.mask) = grayMasks p.dimension := by
  have hmask : (fun q : Position ℚ => q.mask) ∘ p.position = id := rfl
  rw [trail_eq, List.map_map, hmask, List.map_id]

theorem sweep_eq_foldl_trail {σ : Type} (p : Program ℚ)
    (visit : σ → ℕ → Point ℚ → ForInStep σ) (start : σ) :
    Scan.sweep p.rows visit p.columns ⟨p.origin, 0, start, false⟩ =
      p.trail.foldl (Scan.pass p.rows visit) ⟨p.origin, 0, start, false⟩ := by
  rw [columns, (Scan.sweep_columns p visit le_rfl 0 rfl p.position_zero.symm).1, trail_eq,
    List.foldl_map]
  rfl

end Program

/-- The terms of an enumerator before any call. -/
def Terms.initial : Terms ℚ := ⟨⟨1, 1⟩, .unbounded, .unbounded, []⟩

/-- The weighted sum of a mask under the terms. -/
def Terms.valueAt (t : Terms ℚ) (p : Program ℚ) (mask : ℕ) : ℚ :=
  t.weights.value (p.maskOutcome mask)

/-- A mask that the program and the terms admit: the rows hold of its product
sums, its outcome is within the ranges, and no exclusion forbids it. -/
structure Admissible (p : Program ℚ) (t : Terms ℚ) (mask : ℕ) : Prop where
  lt : mask < 2 ^ p.dimension
  rows : ∀ r ∈ p.rows, r.satisfied (dot r.coefs (p.decisions mask)) = true
  first : t.first.allows (p.maskOutcome mask).z1 = true
  second : t.second.allows (p.maskOutcome mask).z2 = true
  not_hit : ∀ literals ∈ t.exclusions, (Pattern.ofLiterals p.dimension literals).hits mask = false

/-- The mask in place `k` of the code is admissible, none has a smaller weighted
sum, and those in earlier places have a larger one. -/
structure FirstLeast (p : Program ℚ) (t : Terms ℚ) (k : ℕ) : Prop where
  lt : k < 2 ^ p.dimension
  admissible : Admissible p t (gray k)
  least : ∀ mask, Admissible p t mask → t.valueAt p (gray k) ≤ t.valueAt p mask
  first : ∀ j < k, Admissible p t (gray j) → t.valueAt p (gray k) < t.valueAt p (gray j)

/-- The least element that `List.argmin` picks comes before all others that are as
small. -/
theorem exists_first_of_argmin {ks : List ℕ} (hks : ks.Pairwise (· < ·)) (g : ℕ → ℕ) (f : ℕ → ℚ)
    {m : ℕ} (h : (ks.map g).argmin f = some m) :
    ∃ k ∈ ks, g k = m ∧ ∀ j ∈ ks, j < k → f m < f (g j) := by
  induction ks using List.reverseRecOn generalizing m with
  | nil => cases h
  | append_singleton ks i ih =>
      obtain ⟨hks, -, hi⟩ := List.pairwise_append.1 hks
      rw [List.map_append, List.map_singleton, List.argmin_concat] at h
      cases hmin : (ks.map g).argmin f with
      | none =>
          have hnil : ks = [] := List.map_eq_nil_iff.1 (List.argmin_eq_none.1 hmin)
          subst hnil
          rw [hmin] at h
          refine ⟨i, List.mem_singleton_self i, Option.some.inj h, fun j hj hji => ?_⟩
          rw [List.mem_singleton.1 hj] at hji
          exact absurd hji (lt_irrefl i)
      | some old =>
          rw [hmin] at h
          obtain ⟨k, hk, hgk, hfirst⟩ := ih hks hmin
          -- Only a strictly smaller value displaces the old one, so the first of equals stays.
          by_cases hlt : f (g i) < f old
          · simp only [hlt, if_true, Option.some.injEq] at h
            subst h
            refine ⟨i, List.mem_append_right _ (List.mem_singleton_self i), rfl,
              fun j hj hji => ?_⟩
            rcases List.mem_append.1 hj with hj | hj
            · exact lt_of_lt_of_le hlt (List.le_of_mem_argmin (List.mem_map_of_mem hj) hmin)
            · rw [List.mem_singleton.1 hj] at hji
              exact absurd hji (lt_irrefl i)
          · simp only [hlt, if_false, Option.some.injEq] at h
            subst h
            refine ⟨k, List.mem_append_left _ hk, hgk, fun j hj hjk => ?_⟩
            rcases List.mem_append.1 hj with hj | hj
            · exact hfirst j hj hjk
            · rw [List.mem_singleton.1 hj] at hjk
              exact absurd (hi k hk i (List.mem_singleton_self i)) hjk.not_gt

namespace Enumerator

/-- An enumerator of the program without a limit that holds the terms. -/
structure Keeps (e : Enumerator ℚ) (p : Program ℚ) (t : Terms ℚ) : Prop where
  program : e.program = p
  weights : e.weights = t.weights
  first : e.first = t.first
  second : e.second = t.second
  excluded : e.excluded = t.exclusions.map (Pattern.ofLiterals p.dimension)
  unlimited : e.nodeLimit? = none

theorem keeps_ofProgram (p : Program ℚ) : (ofProgram p none).Keeps p .initial :=
  ⟨rfl, rfl, rfl, rfl, rfl, rfl⟩

namespace Keeps

theorem follow {e : Enumerator ℚ} {p : Program ℚ} {t : Terms ℚ} (h : e.Keeps p t)
    (d : Directive ℚ) : (e.follow d).Keeps p (t.follow d) := by
  obtain ⟨rfl, hweights, hfirst, hsecond, hexcluded, hunlimited⟩ := h
  rcases d with w | ⟨_ | _, range⟩ | (_ | _) | literals
  · exact ⟨rfl, rfl, hfirst, hsecond, hexcluded, hunlimited⟩
  · exact ⟨rfl, hweights, rfl, hsecond, hexcluded, hunlimited⟩
  · exact ⟨rfl, hweights, hfirst, rfl, hexcluded, hunlimited⟩
  · exact ⟨rfl, hweights, rfl, hsecond, hexcluded, hunlimited⟩
  · exact ⟨rfl, hweights, hfirst, rfl, hexcluded, hunlimited⟩
  · exact ⟨rfl, hweights, hfirst, hsecond, congrArg (List.cons _) hexcluded, hunlimited⟩

theorem after {e : Enumerator ℚ} {p : Program ℚ} {t : Terms ℚ} (h : e.Keeps p t)
    (calls : List (Call ℚ)) : ((oracle p).after e calls).Keeps p (t.after calls) := by
  induction calls generalizing e t with
  | nil => exact h
  | cons call calls ih =>
      cases call with
      | tell d => exact ih (h.follow d)
      | solve => exact ih ⟨h.program, h.weights, h.first, h.second, h.excluded, h.unlimited⟩

theorem admits_iff {e : Enumerator ℚ} {p : Program ℚ} {t : Terms ℚ} (h : e.Keeps p t)
    {mask : ℕ} : e.Admits mask ↔ Admissible p t mask := by
  obtain ⟨rfl, -, hfirst, hsecond, hexcluded, -⟩ := h
  have hany : (e.excluded.any (·.hits mask)) = false ↔ ∀ literals ∈ t.exclusions,
      (Pattern.ofLiterals e.program.dimension literals).hits mask = false := by
    rw [hexcluded, List.any_eq_false, List.forall_mem_map]
    simp only [Bool.not_eq_true]
  rw [Admits, Program.FeasibleMask, obeys, hfirst, hsecond, Bool.and_eq_true, Bool.and_eq_true,
    Bool.not_eq_true', hany]
  constructor
  · rintro ⟨⟨hlt, hfeasible⟩, ⟨h1, h2⟩, hnot⟩
    exact ⟨hlt, hfeasible.satisfied, h1, h2, hnot⟩
  · rintro ⟨hlt, hrows, h1, h2, hnot⟩
    exact ⟨⟨hlt, by simp, e.program.decisions_zero_or_one mask, hrows⟩, ⟨h1, h2⟩, hnot⟩

theorem valueAt_eq {e : Enumerator ℚ} {p : Program ℚ} {t : Terms ℚ} (h : e.Keeps p t)
    (mask : ℕ) : e.valueAt mask = t.valueAt p mask := by
  rw [valueAt, Terms.valueAt, h.weights, h.program]

theorem answer_eq {e : Enumerator ℚ} {p : Program ℚ} {t : Terms ℚ} (h : e.Keeps p t) :
    e.answer = e.leastAnswer := answer_of_unlimited h.unlimited

end Keeps

/-- The admitted masks are those in the admitted places of the code. -/
theorem admitted_grayMasks (e : Enumerator ℚ) (n : ℕ) :
    e.admitted (grayMasks n) = ((List.range (2 ^ n)).filter fun k =>
      e.program.rowsHold (gray k) && e.obeys (gray k) (e.program.maskOutcome (gray k))).map gray := by
  rw [admitted, grayMasks_eq_map, List.filter_map]
  rfl

theorem Keeps.firstLeast {e : Enumerator ℚ} {p : Program ℚ} {t : Terms ℚ} (h : e.Keeps p t)
    {mask : ℕ} (hmin : (e.admitted (grayMasks e.program.dimension)).argmin e.valueAt = some mask) :
    ∃ k, gray k = mask ∧ FirstLeast p t k := by
  have hmin' := hmin
  rw [admitted_grayMasks] at hmin'
  obtain ⟨k, hk, rfl, hfirst⟩ := exists_first_of_argmin (List.pairwise_lt_range.filter _) gray
    e.valueAt hmin'
  have hadmits := e.mem_admitted_iff.1 (List.argmin_mem hmin)
  refine ⟨k, rfl, ?_, h.admits_iff.1 hadmits, fun m hm => ?_, fun j hj hadm => ?_⟩
  · rw [← h.program]
    exact List.mem_range.1 (List.mem_filter.1 hk).1
  · rw [← h.valueAt_eq, ← h.valueAt_eq]
    exact List.le_of_mem_argmin (e.mem_admitted_iff.2 (h.admits_iff.2 hm)) hmin
  · rw [← h.valueAt_eq, ← h.valueAt_eq]
    refine hfirst j (List.mem_filter.2 ⟨?_, ?_⟩) hj
    · exact List.mem_range.2 (hj.trans (List.mem_range.1 (List.mem_filter.1 hk).1))
    · exact (List.mem_filter.1 (e.mem_admitted_iff.2 (h.admits_iff.2 hadm))).2

/-- The answer under the terms: the optimum of the first of the least masks, or
infeasible if no mask is admissible. -/
theorem Keeps.answer_cases {e : Enumerator ℚ} {p : Program ℚ} {t : Terms ℚ} (h : e.Keeps p t) :
    (e.answer = .infeasible ∧ ∀ mask, ¬Admissible p t mask) ∨
      ∃ k, FirstLeast p t k ∧
        e.answer = .optimal
          { toPoint := p.maskOutcome (gray k)
            value := t.valueAt p (gray k)
            decisions := p.decisions (gray k)
            nodes := 2 ^ p.dimension } := by
  rw [h.answer_eq, leastAnswer]
  cases hmin : (e.admitted (grayMasks e.program.dimension)).argmin e.valueAt with
  | none =>
      refine Or.inl ⟨rfl, fun mask hadm => ?_⟩
      have hmem := e.mem_admitted_iff.2 (h.admits_iff.2 hadm)
      rw [List.argmin_eq_none.1 hmin] at hmem
      exact absurd hmem List.not_mem_nil
  | some mask =>
      obtain ⟨k, rfl, hk⟩ := h.firstLeast hmin
      refine Or.inr ⟨k, hk, ?_⟩
      change Answer.optimal (e.optimumAt (gray k)) = _
      rw [optimumAt, h.valueAt_eq, h.program]

/-- A scan passes through every mask once, in the order of the code, and holds the
exact sums of each. An exclusion asks that one of its literals differs. After any
calls the answer to a solve is infeasible exactly if the terms in force admit no
mask, and otherwise the optimum of the first of the least masks. -/
theorem solve_exact (p : Program ℚ) (calls : List (Call ℚ)) :
    (p.trail = (List.range (2 ^ p.dimension)).map fun k => p.position (k ^^^ (k >>> 1))) ∧
    (p.trail.map (·.mask)).Perm (List.range (2 ^ p.dimension)) ∧
    (∀ (σ : Type) (visit : σ → ℕ → Point ℚ → ForInStep σ) (start : σ),
      Scan.sweep p.rows visit p.columns ⟨p.origin, 0, start, false⟩ =
        p.trail.foldl (Scan.pass p.rows visit) ⟨p.origin, 0, start, false⟩) ∧
    (∀ literals : List (Literal ℚ),
      (∀ l ∈ literals, ∀ l' ∈ literals, l.index = l'.index →
        binary l.excluded = binary l'.excluded) →
      ∀ mask, (Pattern.ofLiterals p.dimension literals).hits mask = false ↔
        ∃ l ∈ literals, l.index < p.dimension ∧
          (if mask.testBit l.index then 1 else 0) ≠ binary l.excluded) ∧
    let t := Terms.initial.after calls
    let answer := ((oracle p).solve ((oracle p).after (.ofProgram p none) calls)).1
    (answer = .infeasible ↔ ∀ mask, ¬Admissible p t mask) ∧
    ((∀ mask, ¬Admissible p t mask) ∨
      ∃ k, FirstLeast p t k ∧
        answer = .optimal
          { toPoint := p.maskOutcome (k ^^^ (k >>> 1))
            value := t.valueAt p (k ^^^ (k >>> 1))
            decisions := p.decisions (k ^^^ (k >>> 1))
            nodes := 2 ^ p.dimension }) := by
  have hperm : (grayMasks p.dimension).Perm (List.range (2 ^ p.dimension)) := by
    rw [List.perm_ext_iff_of_nodup (nodup_grayMasks _) List.nodup_range]
    intro mask
    rw [mem_grayMasks, List.mem_range]
  refine ⟨?_, ?_, fun σ visit start => p.sweep_eq_foldl_trail visit start,
    fun literals hagree => Pattern.hits_ofLiterals_eq_false_iff p.dimension hagree, ?_⟩
  · rw [p.trail_eq, grayMasks_eq_map, List.map_map]
    rfl
  · rw [p.map_mask_trail]
    exact hperm
  · rcases ((keeps_ofProgram p).after calls).answer_cases with ⟨heq, hnone⟩ | ⟨k, hk, heq⟩
    · exact ⟨⟨fun _ => hnone, fun _ => heq⟩, Or.inl hnone⟩
    · refine ⟨⟨fun hinf => ?_, fun hnone => absurd hk.admissible (hnone _)⟩, Or.inr ⟨k, hk, heq⟩⟩
      exact absurd (heq.symm.trans hinf) (by simp)

end Enumerator

end Biobjective
