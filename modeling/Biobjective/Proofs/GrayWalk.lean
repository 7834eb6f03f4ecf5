import Biobjective.Proofs.Assignment
import Mathlib.NumberTheory.Padics.PadicVal.Basic

/-!
# The walk through all masks

A scan of a program meets the masks in the order of the reflected Gray code:
the `k`-th mask is `gray k = k ^^^ (k >>> 1)`. The recursion of the scan over
`n + 1` columns walks the first `n` bits twice, with bit `n` turned between,
and `walk_succ` is the same recursion on lists of masks. So a scan is one fold
over `grayMasks`, in which every mask below `2 ^ dimension` occurs once and is
met at its own exact position.

For every scalar the scan is a loop over the steps below `2 ^ dimension`, which
turns at each later step the bit of the zeros that the step ends in:
`Program.scan_eq_foldl_round`.
-/

namespace Biobjective

/-- The mask that is met after `k` others. -/
def gray (k : ℕ) : ℕ := k ^^^ (k >>> 1)

theorem testBit_gray (k i : ℕ) : (gray k).testBit i = (k.testBit i ^^ k.testBit (i + 1)) := by
  rw [gray, Nat.testBit_xor, Nat.testBit_shiftRight, Nat.add_comm 1 i]

theorem gray_lt {k n : ℕ} (h : k < 2 ^ n) : gray k < 2 ^ n := by
  have hshift : k >>> 1 < 2 ^ n := lt_of_le_of_lt (Nat.shiftRight_le k 1) h
  exact Nat.xor_lt_two_pow h hshift

theorem gray_injective : Function.Injective gray := by
  intro j k h
  have hhalf : j ^^^ k = (j ^^^ k) >>> 1 := by
    apply Nat.eq_of_testBit_eq
    intro i
    have hi : (gray j).testBit i = (gray k).testBit i := by rw [h]
    rw [testBit_gray, testBit_gray] at hi
    rw [Nat.testBit_shiftRight, Nat.testBit_xor, Nat.testBit_xor, Nat.add_comm 1 i]
    revert hi
    cases j.testBit i <;> cases k.testBit i <;> cases j.testBit (i + 1) <;>
      cases k.testBit (i + 1) <;> simp
  have hzero : j ^^^ k = 0 := by
    rw [Nat.shiftRight_eq_div_pow] at hhalf
    omega
  exact Nat.xor_eq_zero_iff.1 hzero

/-- The second half of the code: it starts from the last mask of the first half
with the next bit turned, and repeats the first half from there. -/
theorem gray_two_pow_add {k n : ℕ} (h : k < 2 ^ n) :
    gray (2 ^ n + k) = gray (2 ^ n - 1) ^^^ 2 ^ n ^^^ gray k := by
  have hbit : ∀ i, (2 ^ n + k).testBit i = (decide (n = i) ^^ k.testBit i) := by
    intro i
    have hor : 2 ^ n + k = 2 ^ n ||| k := by simpa using Nat.two_pow_add_eq_or_of_lt h 1
    rw [hor, Nat.testBit_or, Nat.testBit_two_pow]
    by_cases hi : n = i
    · subst hi
      simp [Nat.testBit_lt_two_pow h]
    · simp [hi]
  apply Nat.eq_of_testBit_eq
  intro i
  have hcarry : (decide (i < n) ^^ decide (i + 1 < n)) = decide (n = i + 1) := by
    by_cases h1 : i + 1 < n
    · have h2 : i < n := by omega
      have h3 : n ≠ i + 1 := by omega
      simp [h1, h2, h3]
    · by_cases h2 : i < n
      · have h3 : n = i + 1 := by omega
        simp [h3]
      · have h3 : n ≠ i + 1 := by omega
        simp [h1, h2, h3]
  simp only [testBit_gray, Nat.testBit_xor, Nat.testBit_two_pow_sub_one, Nat.testBit_two_pow,
    hbit, hcarry]
  cases decide (n = i) <;> cases decide (n = i + 1) <;> cases k.testBit i <;>
    cases k.testBit (i + 1) <;> rfl

/-- The masks met from `mask` on while the first `n` bits run through all their
values. -/
def walk (n mask : ℕ) : List ℕ := (List.range (2 ^ n)).map fun k => mask ^^^ gray k

theorem range_two_pow_succ (n : ℕ) :
    List.range (2 ^ (n + 1)) = List.range (2 ^ n) ++ (List.range (2 ^ n)).map (2 ^ n + ·) := by
  rw [pow_succ, mul_two, List.range_add]

theorem walk_succ (n mask : ℕ) :
    walk (n + 1) mask = walk n mask ++ walk n (mask ^^^ gray (2 ^ n - 1) ^^^ 2 ^ n) := by
  rw [walk, range_two_pow_succ, List.map_append, List.map_map, walk, walk]
  congr 1
  apply List.map_congr_left
  intro k hk
  have hk' : k < 2 ^ n := List.mem_range.1 hk
  simp only [Function.comp_apply, gray_two_pow_add hk', Nat.xor_assoc]

/-- All masks of `n` bits, in the order in which they are met. -/
def grayMasks (n : ℕ) : List ℕ := walk n 0

theorem grayMasks_eq_map (n : ℕ) : grayMasks n = (List.range (2 ^ n)).map gray := by
  simp only [grayMasks, walk, Nat.zero_xor]

@[simp] theorem length_grayMasks (n : ℕ) : (grayMasks n).length = 2 ^ n := by
  simp [grayMasks_eq_map]

theorem nodup_grayMasks (n : ℕ) : (grayMasks n).Nodup := by
  rw [grayMasks_eq_map]
  exact List.nodup_range.map gray_injective

/-- Every mask is met. -/
theorem mem_grayMasks {n mask : ℕ} : mask ∈ grayMasks n ↔ mask < 2 ^ n := by
  have hsub : grayMasks n ⊆ List.range (2 ^ n) := by
    intro m hm
    rw [grayMasks_eq_map] at hm
    obtain ⟨k, hk, rfl⟩ := List.mem_map.1 hm
    exact List.mem_range.2 (gray_lt (List.mem_range.1 hk))
  have hperm : (grayMasks n).Perm (List.range (2 ^ n)) :=
    ((nodup_grayMasks n).subperm hsub).perm_of_length_le (by simp)
  rw [hperm.mem_iff, List.mem_range]

/-- Every mask has its place in the code. -/
theorem exists_gray {n mask : ℕ} (h : mask < 2 ^ n) : ∃ k < 2 ^ n, gray k = mask := by
  have hmem := mem_grayMasks.2 h
  rw [grayMasks_eq_map] at hmem
  obtain ⟨k, hk, hgray⟩ := List.mem_map.1 hmem
  exact ⟨k, List.mem_range.1 hk, hgray⟩

/-- The rows hold at the exact position of the mask. -/
def Program.rowsHold (p : Program ℚ) (mask : ℕ) : Bool :=
  rowsSatisfied p.rows (p.position mask).lhs

theorem Program.feasibleMask_iff {p : Program ℚ} {mask : ℕ} :
    p.FeasibleMask mask ↔ mask ∈ grayMasks p.dimension ∧ p.rowsHold mask = true := by
  rw [FeasibleMask, mem_grayMasks, rowsHold, rowsSatisfied_position]

theorem Program.map_column_range_succ {K : Type} [Scalar K] (p : Program K) (n : ℕ) :
    (List.range (n + 1)).reverse.map p.column =
      p.column n :: (List.range n).reverse.map p.column := by
  simp [List.range_succ]

/-- Later steps turn the same bits as the steps below `2 ^ n`. -/
theorem padicValNat_two_pow_add {n k : ℕ} (h0 : k ≠ 0) (h : k < 2 ^ n) :
    padicValNat 2 (2 ^ n + k) = padicValNat 2 k := by
  have hlt : padicValNat 2 k < n := by
    have hle : 2 ^ padicValNat 2 k ≤ k := Nat.le_of_dvd (Nat.pos_of_ne_zero h0) pow_padicValNat_dvd
    exact (Nat.pow_lt_pow_iff_right one_lt_two).1 (hle.trans_lt h)
  have hdvd : ∀ j ≤ n, j ≤ padicValNat 2 (2 ^ n + k) ↔ j ≤ padicValNat 2 k := by
    intro j hj
    rw [← padicValNat_dvd_iff_le h0, ← padicValNat_dvd_iff_le (by omega),
      Nat.dvd_add_right (pow_dvd_pow 2 hj)]
  refine le_antisymm ?_ ((hdvd _ hlt.le).2 le_rfl)
  rw [← Nat.lt_succ_iff, ← not_le]
  exact fun hle => absurd ((hdvd _ hlt).1 hle) (Nat.not_succ_le_self _)

namespace Scan

section Rounds

variable {K σ : Type} [Scalar K]

/-- One round of a loop over the steps. The first one meets the origin. -/
def round (p : Program K) (visit : σ → ℕ → Point K → ForInStep σ) (s : Scan K σ) (step : ℕ) :
    Scan K σ :=
  if s.stopped then s
  else if step = 0 then s.meet p.rows visit
  else ({ s with position := s.position.flip (p.column (padicValNat 2 step)) }).meet p.rows visit

variable (p : Program K) (visit : σ → ℕ → Point K → ForInStep σ)

theorem foldl_round_of_stopped {s : Scan K σ} (hs : s.stopped = true) (steps : List ℕ) :
    steps.foldl (round p visit) s = s := by
  induction steps with
  | nil => rfl
  | cons step steps ih => rw [List.foldl_cons, round, if_pos hs, ih]

/-- From step `2 ^ n` on the loop goes as from its first step with bit `n` turned. -/
theorem foldl_round_two_pow_add {s : Scan K σ} (hs : s.stopped = false) (n : ℕ) :
    ((List.range (2 ^ n)).map (2 ^ n + ·)).foldl (round p visit) s =
      (List.range (2 ^ n)).foldl (round p visit)
        { s with position := s.position.flip (p.column n) } := by
  obtain ⟨m, hm⟩ := Nat.exists_eq_succ_of_ne_zero (Nat.two_pow_pos n).ne'
  have hgo : ∀ q, ¬({ s with position := q } : Scan K σ).stopped = true := fun _ => by simp [hs]
  have hfirst : round p visit s (2 ^ n + 0) =
      round p visit { s with position := s.position.flip (p.column n) } 0 := by
    rw [round, round, if_neg (hgo s.position), if_neg (hgo _), if_neg (by simp), if_pos rfl,
      Nat.add_zero, padicValNat.prime_pow]
  have hlater : ∀ (t : Scan K σ), ∀ k ∈ (List.range m).map Nat.succ,
      round p visit t (2 ^ n + k) = round p visit t k := by
    intro t k hk
    obtain ⟨j, hj, rfl⟩ := List.mem_map.1 hk
    have hlt : j.succ < 2 ^ n := by
      rw [hm]
      exact Nat.succ_lt_succ (List.mem_range.1 hj)
    rw [round, round, if_neg (by simp : 2 ^ n + j.succ ≠ 0), if_neg (Nat.succ_ne_zero j),
      padicValNat_two_pow_add (Nat.succ_ne_zero j) hlt]
  rw [List.foldl_map, hm, List.range_succ_eq_map, List.foldl_cons, List.foldl_cons, ← hm, hfirst]
  exact List.foldl_ext _ _ _ hlater

/-- The recursion over the columns is the loop over the steps. -/
theorem sweep_eq_foldl_round (n : ℕ) {s : Scan K σ} (hs : s.stopped = false) :
    sweep p.rows visit ((List.range n).reverse.map p.column) s =
      (List.range (2 ^ n)).foldl (round p visit) s := by
  induction n generalizing s with
  | zero => simp [round, hs]
  | succ n ih =>
      rw [p.map_column_range_succ, sweep_cons, ih hs, range_two_pow_succ, List.foldl_append]
      cases hstop : ((List.range (2 ^ n)).foldl (round p visit) s).stopped with
      | true => rw [if_pos rfl, foldl_round_of_stopped p visit hstop]
      | false =>
          rw [if_neg Bool.false_ne_true, foldl_round_two_pow_add p visit hstop]
          exact ih hstop

end Rounds

/-- Meets the mask at its exact position, unless the visitor asked to stop. -/
def meetAt {σ : Type} (p : Program ℚ) (visit : σ → ℕ → Point ℚ → ForInStep σ)
    (s : Scan ℚ σ) (mask : ℕ) : Scan ℚ σ :=
  if s.stopped then s else ({ s with position := p.position mask }).meet p.rows visit

theorem meetAt_of_stopped {σ : Type} (p : Program ℚ)
    (visit : σ → ℕ → Point ℚ → ForInStep σ) {s : Scan ℚ σ} (hs : s.stopped = true) (mask : ℕ) :
    s.meetAt p visit mask = s := by
  simp [meetAt, hs]

theorem meetAt_of_not_stopped {σ : Type} (p : Program ℚ)
    (visit : σ → ℕ → Point ℚ → ForInStep σ) {s : Scan ℚ σ} (hs : s.stopped = false) (mask : ℕ) :
    s.meetAt p visit mask = ({ s with position := p.position mask }).meet p.rows visit := by
  rw [meetAt, hs]
  rfl

theorem meetAt_of_rowsHold {σ : Type} (p : Program ℚ)
    (visit : σ → ℕ → Point ℚ → ForInStep σ) {s : Scan ℚ σ} (hs : s.stopped = false) {mask : ℕ}
    (h : p.rowsHold mask = true) :
    s.meetAt p visit mask =
      match visit s.gathered mask (p.position mask).point with
      | .yield gathered => ⟨p.position mask, s.met + 1, gathered, s.stopped⟩
      | .done gathered => ⟨p.position mask, s.met + 1, gathered, true⟩ := by
  have hrows : rowsSatisfied p.rows (p.position mask).lhs = true := h
  rw [meetAt_of_not_stopped p visit hs, meet]
  simp only [hrows, if_true]
  rfl

theorem meetAt_of_not_rowsHold {σ : Type} (p : Program ℚ)
    (visit : σ → ℕ → Point ℚ → ForInStep σ) {s : Scan ℚ σ} (hs : s.stopped = false) {mask : ℕ}
    (h : p.rowsHold mask = false) :
    s.meetAt p visit mask = ⟨p.position mask, s.met + 1, s.gathered, s.stopped⟩ := by
  have hrows : rowsSatisfied p.rows (p.position mask).lhs = false := h
  rw [meetAt_of_not_stopped p visit hs, meet]
  simp only [hrows, Bool.false_eq_true, if_false]

theorem foldl_meetAt_of_stopped {σ : Type} (p : Program ℚ)
    (visit : σ → ℕ → Point ℚ → ForInStep σ) {s : Scan ℚ σ} (hs : s.stopped = true)
    (masks : List ℕ) : masks.foldl (meetAt p visit) s = s := by
  induction masks with
  | nil => rfl
  | cons mask masks ih => rw [List.foldl_cons, meetAt_of_stopped p visit hs, ih]

theorem position_meet {σ : Type} (rows : List (Row ℚ))
    (visit : σ → ℕ → Point ℚ → ForInStep σ) (s : Scan ℚ σ) :
    (s.meet rows visit).position = s.position := by
  rw [meet]
  split
  · split <;> rfl
  · rfl

/-- The first mask met decides the position, whatever it was before. -/
theorem foldl_meetAt_position {σ : Type} (p : Program ℚ)
    (visit : σ → ℕ → Point ℚ → ForInStep σ) {s : Scan ℚ σ} (hs : s.stopped = false)
    (q : Position ℚ) {masks : List ℕ} (hmasks : masks ≠ []) :
    masks.foldl (meetAt p visit) { s with position := q } = masks.foldl (meetAt p visit) s := by
  obtain ⟨mask, masks, rfl⟩ := List.exists_cons_of_ne_nil hmasks
  have hq : ({ s with position := q } : Scan ℚ σ).stopped = false := hs
  rw [List.foldl_cons, List.foldl_cons, meetAt_of_not_stopped p visit hs,
    meetAt_of_not_stopped p visit hq]

/-- A sweep of the first `n` columns is a fold along the walk, and unless the
visitor stopped it, it ends at the last mask of the walk. -/
theorem sweep_columns {σ : Type} (p : Program ℚ) (visit : σ → ℕ → Point ℚ → ForInStep σ)
    {n : ℕ} (hn : n ≤ p.dimension) {s : Scan ℚ σ} (mask : ℕ) (hs : s.stopped = false)
    (hpos : s.position = p.position mask) :
    sweep p.rows visit ((List.range n).reverse.map p.column) s =
        (walk n mask).foldl (meetAt p visit) s ∧
      (((walk n mask).foldl (meetAt p visit) s).stopped = false →
        ((walk n mask).foldl (meetAt p visit) s).position =
          p.position (mask ^^^ gray (2 ^ n - 1))) := by
  induction n generalizing s mask with
  | zero =>
      have hwalk : walk 0 mask = [mask] := by simp [walk, gray]
      have hmeet : s.meetAt p visit mask = s.meet p.rows visit := by
        rw [meetAt_of_not_stopped p visit hs, ← hpos]
      rw [hwalk, List.foldl_cons, List.foldl_nil, hmeet]
      refine ⟨rfl, fun _ => ?_⟩
      rw [position_meet, hpos]
      simp [gray]
  | succ n ih =>
      obtain ⟨hfirst, hend⟩ := ih (Nat.le_of_succ_le hn) mask hs hpos
      rw [p.map_column_range_succ, sweep_cons, hfirst, walk_succ, List.foldl_append]
      by_cases hstop : ((walk n mask).foldl (meetAt p visit) s).stopped = true
      · rw [if_pos hstop, foldl_meetAt_of_stopped p visit hstop]
        refine ⟨rfl, fun h => ?_⟩
        rw [hstop] at h
        cases h
      · have hgo : ((walk n mask).foldl (meetAt p visit) s).stopped = false := by
          simpa using hstop
        -- the second half starts where the first one ended, with bit `n` turned
        generalize hmid : (walk n mask).foldl (meetAt p visit) s = mid at hend hgo hstop ⊢
        have hflip : mid.position.flip (p.column n) =
            p.position (mask ^^^ gray (2 ^ n - 1) ^^^ 2 ^ n) := by
          rw [hend hgo, p.flip_position _ hn]
        have hsecond := ih (s := { mid with position := mid.position.flip (p.column n) })
          (Nat.le_of_succ_le hn) _ hgo hflip
        have hne : walk n (mask ^^^ gray (2 ^ n - 1) ^^^ 2 ^ n) ≠ [] := by
          simp [walk]
        rw [foldl_meetAt_position p visit hgo _ hne] at hsecond
        rw [if_neg hstop, hsecond.1]
        refine ⟨rfl, fun h => ?_⟩
        rw [hsecond.2 h]
        have hlast : 2 ^ (n + 1) - 1 = 2 ^ n + (2 ^ n - 1) := by
          have hpow : 0 < 2 ^ n := Nat.two_pow_pos n
          rw [pow_succ]
          omega
        rw [hlast, gray_two_pow_add (Nat.sub_lt (Nat.two_pow_pos n) Nat.one_pos)]
        simp only [Nat.xor_assoc]

end Scan

namespace Program

/-- A scan is a loop over the steps. -/
theorem scan_eq_foldl_round {K σ : Type} [Scalar K] (p : Program K)
    (visit : σ → ℕ → Point K → ForInStep σ) (start : σ) :
    p.scan visit start =
      (((List.range (2 ^ p.dimension)).foldl (Scan.round p visit)
          ⟨p.origin, 0, start, false⟩).gathered,
        ((List.range (2 ^ p.dimension)).foldl (Scan.round p visit)
          ⟨p.origin, 0, start, false⟩).met) := by
  rw [scan, columns, Scan.sweep_eq_foldl_round p visit _ rfl]

/-- A scan is one fold over the masks in the order of the code. -/
theorem scan_eq_foldl {σ : Type} (p : Program ℚ) (visit : σ → ℕ → Point ℚ → ForInStep σ)
    (start : σ) :
    p.scan visit start =
      (((grayMasks p.dimension).foldl (Scan.meetAt p visit) ⟨p.origin, 0, start, false⟩).gathered,
        ((grayMasks p.dimension).foldl (Scan.meetAt p visit)
          ⟨p.origin, 0, start, false⟩).met) := by
  have hsweep := (Scan.sweep_columns p visit le_rfl (s := ⟨p.origin, 0, start, false⟩) 0
    rfl p.position_zero.symm).1
  rw [scan, columns, hsweep]
  rfl

/-- A visitor that never stops the scan is shown every feasible mask. -/
theorem scan_yield {σ : Type} (p : Program ℚ) (f : σ → ℕ → Point ℚ → σ) (start : σ) :
    (p.scan (fun gathered mask z => .yield (f gathered mask z)) start).1 =
      ((grayMasks p.dimension).filter p.rowsHold).foldl
        (fun gathered mask => f gathered mask (p.position mask).point) start := by
  have hfold : ∀ (masks : List ℕ) (s : Scan ℚ σ), s.stopped = false →
      (masks.foldl (Scan.meetAt p fun gathered mask z => .yield (f gathered mask z)) s).gathered =
        (masks.filter p.rowsHold).foldl
          (fun gathered mask => f gathered mask (p.position mask).point) s.gathered := by
    intro masks
    induction masks with
    | nil => exact fun _ _ => rfl
    | cons mask masks ih =>
        intro s hs
        by_cases hrows : p.rowsHold mask = true
        · rw [List.filter_cons_of_pos hrows, List.foldl_cons, List.foldl_cons,
            Scan.meetAt_of_rowsHold p _ hs hrows]
          exact ih _ hs
        · rw [List.filter_cons_of_neg hrows, List.foldl_cons,
            Scan.meetAt_of_not_rowsHold p _ hs (Bool.not_eq_true _ ▸ hrows)]
          exact ih _ hs
  rw [scan_eq_foldl, hfold _ _ rfl]

end Program

end Biobjective
