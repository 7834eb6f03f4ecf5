import Biobjective.Proofs.Staircase
import Mathlib.Data.List.TakeWhile

/-!
# Insertion into a frontier

`Frontier.update` turns a solution away only if a member covers it. Otherwise
the solution joins, the members that leave are covered by it, and the
staircase stays one. The argument needs no whole numbers: a member that the
solution passes by neither covers it nor is strictly dominated by it, and then
the two are on different steps.

`Frontier.insertSupported` finds its place by bisection, which on a list whose
smaller elements come first finds the boundary. `Frontier.nadirWithin?` is the
largest weighted nadir of the gaps that it has to count.
-/

namespace Biobjective

namespace Solution

theorem covers_iff (eps : ℚ) (s t : Solution ℚ) :
    covers eps s t = true ↔ s.z1 - eps ≤ t.z1 ∧ s.z2 - eps ≤ t.z2 := by
  simp only [covers, Bool.and_eq_true, decide_eq_true_eq]

/-- Among whole points, a tolerance below one makes no difference. -/
theorem covers_iff_of_whole {eps : ℚ} (h0 : 0 ≤ eps) (h1 : eps < 1) {s t : Solution ℚ}
    (hs1 : IsWhole s.z1) (hs2 : IsWhole s.z2) (ht1 : IsWhole t.z1) (ht2 : IsWhole t.z2) :
    covers eps s t = true ↔ s.z1 ≤ t.z1 ∧ s.z2 ≤ t.z2 := by
  rw [covers_iff]
  constructor
  · rintro ⟨ha, hb⟩
    exact ⟨hs1.le_of_lt_add_one ht1 (by linarith), hs2.le_of_lt_add_one ht2 (by linarith)⟩
  · rintro ⟨ha, hb⟩
    exact ⟨by linarith, by linarith⟩

theorem covers_of_weaklyDominates {eps : ℚ} (h0 : 0 ≤ eps) {s t : Solution ℚ}
    (h : WeaklyDominates s.toPoint t.toPoint) : covers eps s t = true :=
  (covers_iff eps s t).2 ⟨(sub_le_self _ h0).trans h.1, (sub_le_self _ h0).trans h.2⟩

theorem strictlyDominates_iff (s t : Solution ℚ) :
    s.strictlyDominates t = true ↔
      (s.z1 < t.z1 ∧ s.z2 ≤ t.z2) ∨ (s.z1 ≤ t.z1 ∧ s.z2 < t.z2) := by
  simp only [strictlyDominates, Bool.or_eq_true, Bool.and_eq_true, decide_eq_true_eq]

theorem weaklyDominates_of_strictlyDominates {s t : Solution ℚ}
    (h : s.strictlyDominates t = true) : WeaklyDominates s.toPoint t.toPoint := by
  rcases (strictlyDominates_iff s t).1 h with h | h
  · exact ⟨h.1.le, h.2⟩
  · exact ⟨h.1, h.2.le⟩

/-- The member `e` neither turns the solution `s` away nor gives way to it. -/
structure Passes {K : Type} [Scalar K] (eps : K) (s e : Solution K) : Prop where
  not_covers : covers eps e s = false
  not_dominates : s.strictlyDominates e = false

/-- A member that is passed stands on another step. -/
theorem Passes.descends {eps : ℚ} (h0 : 0 ≤ eps) {s e : Solution ℚ} (h : Passes eps s e) :
    Descends e.toPoint s.toPoint ∨ Descends s.toPoint e.toPoint := by
  have hcover := Bool.eq_false_iff.1 h.not_covers
  have hdom := Bool.eq_false_iff.1 h.not_dominates
  rw [ne_eq, strictlyDominates_iff, not_or, not_and, not_and, not_le, not_lt] at hdom
  rw [ne_eq, covers_iff, not_and, not_le] at hcover
  rcases lt_trichotomy e.z1 s.z1 with hlt | heq | hgt
  · have h2 : s.z2 < e.z2 - eps := hcover (by linarith)
    exact Or.inl ⟨hlt, show s.z2 < e.z2 by linarith⟩
  · have h2 : s.z2 < e.z2 - eps := hcover (by linarith)
    have h3 : e.z2 ≤ s.z2 := hdom.2 heq.ge
    linarith
  · exact Or.inr ⟨hgt, hdom.1 hgt⟩

end Solution

namespace Frontier

open Solution

variable {K : Type} [Scalar K]

/-- What becomes of a solution that meets the members in turn: it is turned away, or it replaces
a member once it has passed all members before, and of those after only the ones stay that it
does not cover, or it passes all members. -/
theorem place_cases (eps : K) (s : Solution K) (l : List (Solution K)) :
    (place eps s l = .covered ∧ ∃ e ∈ l, covers eps e s = true) ∨
    (∃ xs d ys, l = xs ++ d :: ys ∧ (∀ e ∈ xs, Passes eps s e) ∧ s.strictlyDominates d = true ∧
      place eps s l = .replaced (xs ++ s :: ys.filter fun t => !covers eps s t)) ∨
    ((∀ e ∈ l, Passes eps s e) ∧ place eps s l = .unmatched) := by
  induction l with
  | nil => exact Or.inr (Or.inr ⟨fun e he => absurd he List.not_mem_nil, rfl⟩)
  | cons e l ih =>
      rw [place]
      by_cases hcovers : covers eps e s = true
      · rw [if_pos hcovers]
        exact Or.inl ⟨rfl, e, List.mem_cons_self, hcovers⟩
      rw [if_neg hcovers]
      by_cases hdom : s.strictlyDominates e = true
      · rw [if_pos hdom]
        exact Or.inr (Or.inl ⟨[], e, l, rfl, fun t ht => absurd ht List.not_mem_nil, hdom, rfl⟩)
      rw [if_neg hdom]
      have he : Passes eps s e := ⟨Bool.eq_false_iff.2 hcovers, Bool.eq_false_iff.2 hdom⟩
      rcases ih with ⟨hrest, d, hd, hcovers⟩ | ⟨xs, d, ys, rfl, hpass, hd, hrest⟩ | ⟨hpass, hrest⟩
      · rw [hrest]
        exact Or.inl ⟨rfl, d, List.mem_cons_of_mem _ hd, hcovers⟩
      · rw [hrest]
        exact Or.inr (Or.inl
          ⟨e :: xs, d, ys, rfl, List.forall_mem_cons.2 ⟨he, hpass⟩, hd, rfl⟩)
      · rw [hrest]
        exact Or.inr (Or.inr ⟨List.forall_mem_cons.2 ⟨he, hpass⟩, rfl⟩)

/-- An update turns the solution away, puts it in the place of the first member that it strictly
dominates, or puts it in order. -/
theorem update_place (f : Frontier K) (s : Solution K) :
    (f.update s = (false, f) ∧ ∃ e ∈ f.all, covers f.eps e s = true) ∨
    ((f.update s).1 = true ∧
      ((∃ xs d ys, f.all = xs ++ d :: ys ∧ (∀ e ∈ xs, Passes f.eps s e) ∧
          s.strictlyDominates d = true ∧
          (f.update s).2.all = xs ++ s :: ys.filter fun t => !covers f.eps s t) ∨
        ((∀ e ∈ f.all, Passes f.eps s e) ∧ (f.update s).2.all = insertOrdered s f.all))) := by
  rw [update]
  by_cases hempty : f.all.isEmpty = true
  · rw [if_pos hempty, List.isEmpty_iff.1 hempty]
    exact Or.inr ⟨rfl, Or.inr ⟨fun e he => absurd he List.not_mem_nil, rfl⟩⟩
  rw [if_neg hempty]
  rcases place_cases f.eps s f.all with
    ⟨hplace, hcovered⟩ | ⟨xs, d, ys, hall, hpass, hd, hplace⟩ | ⟨hpass, hplace⟩
  · rw [hplace]
    exact Or.inl ⟨rfl, hcovered⟩
  · rw [hplace]
    exact Or.inr ⟨rfl, Or.inl ⟨xs, d, ys, hall, hpass, hd, rfl⟩⟩
  · rw [hplace]
    exact Or.inr ⟨rfl, Or.inr ⟨hpass, rfl⟩⟩

section Replaced

variable {eps : ℚ} {s d : Solution ℚ} {xs ys : List (Solution ℚ)}

/-- The members that are passed before one is replaced stand above the solution: they stand above
the one that is replaced. -/
theorem descends_of_passed (h0 : 0 ≤ eps)
    (hl : (xs ++ d :: ys).Pairwise fun a b => Descends a.toPoint b.toPoint)
    (hpass : ∀ e ∈ xs, Passes eps s e) (hd : s.strictlyDominates d = true) {e : Solution ℚ}
    (he : e ∈ xs) : Descends e.toPoint s.toPoint := by
  have hed : Descends e.toPoint d.toPoint :=
    (List.pairwise_append.1 hl).2.2 e he d List.mem_cons_self
  have hsd := weaklyDominates_of_strictlyDominates hd
  exact ((hpass e he).descends h0).resolve_right fun hse =>
    absurd (hse.2.trans_le hsd.2) hed.2.not_gt

theorem pairwise_replaced (h0 : 0 ≤ eps)
    (hl : (xs ++ d :: ys).Pairwise fun a b => Descends a.toPoint b.toPoint)
    (hpass : ∀ e ∈ xs, Passes eps s e) (hd : s.strictlyDominates d = true) :
    (xs ++ s :: ys.filter fun t => !covers eps s t).Pairwise fun a b =>
      Descends a.toPoint b.toPoint := by
  have habove := fun e he => descends_of_passed h0 hl hpass hd (e := e) he
  have hsd := weaklyDominates_of_strictlyDominates hd
  rw [List.pairwise_append, List.pairwise_cons] at hl ⊢
  obtain ⟨hxs, ⟨hdy, hys⟩, hxd⟩ := hl
  refine ⟨hxs, ⟨fun t ht => ?_, hys.filter _⟩, fun e he t ht => ?_⟩
  · -- A later member that is not covered is lower in the second objective.
    obtain ⟨hty, hnot⟩ := List.mem_filter.1 ht
    have h1 : s.z1 < t.z1 := hsd.1.trans_lt (hdy t hty).1
    rw [Bool.not_eq_true', ← Bool.not_eq_true, covers_iff, not_and, not_le] at hnot
    have h2 : t.z2 < s.z2 - eps := hnot (by linarith)
    exact ⟨h1, show t.z2 < s.z2 by linarith⟩
  · rcases List.mem_cons.1 ht with rfl | ht
    · exact habove e he
    · exact hxd e he t (List.mem_cons_of_mem _ (List.mem_filter.1 ht).1)

end Replaced

theorem pairwise_insertOrdered (s : Solution ℚ) {l : List (Solution ℚ)}
    (hl : l.Pairwise fun a b => Descends a.toPoint b.toPoint)
    (hs : ∀ e ∈ l, Descends e.toPoint s.toPoint ∨ Descends s.toPoint e.toPoint) :
    (insertOrdered s l).Pairwise fun a b => Descends a.toPoint b.toPoint := by
  induction l with
  | nil => exact List.pairwise_singleton _ _
  | cons d l ih =>
      obtain ⟨hd, hl⟩ := List.pairwise_cons.1 hl
      rw [insertOrdered]
      by_cases hlt : s.z1 < d.z1
      · rw [if_pos hlt]
        have hsd : Descends s.toPoint d.toPoint := by
          rcases hs d List.mem_cons_self with h | h
          · exact absurd hlt (not_lt.2 h.1.le)
          · exact h
        refine List.pairwise_cons.2 ⟨?_, List.pairwise_cons.2 ⟨hd, hl⟩⟩
        intro t ht
        rcases List.mem_cons.1 ht with rfl | ht
        · exact hsd
        · exact ⟨hsd.1.trans (hd t ht).1, (hd t ht).2.trans hsd.2⟩
      · rw [if_neg hlt]
        have hds : Descends d.toPoint s.toPoint := by
          rcases hs d List.mem_cons_self with h | h
          · exact h
          · exact absurd h.1 hlt
        refine List.pairwise_cons.2 ⟨?_, ih hl fun e he => hs e (List.mem_cons_of_mem _ he)⟩
        intro t ht
        rcases List.mem_cons.1 ((perm_insertOrdered s l).mem_iff.1 ht) with rfl | ht
        · exact hds
        · exact hd t ht

theorem staircase_points_iff (f : Frontier ℚ) :
    Staircase f.points ↔ f.all.Pairwise fun a b => Descends a.toPoint b.toPoint := by
  rw [Staircase, points, List.pairwise_map]

/-- An update that turns the solution away changes nothing, and a member covers
the solution. Any other update keeps the staircase, takes the solution in, adds
nothing else and drops only what the solution covers. -/
theorem update_cases {f : Frontier ℚ} (h0 : 0 ≤ f.eps) (hf : Staircase f.points)
    (s : Solution ℚ) :
    (f.update s = (false, f) ∧ ∃ e ∈ f.all, Solution.covers f.eps e s = true) ∨
      ((f.update s).1 = true ∧ Staircase (f.update s).2.points ∧ s ∈ (f.update s).2.all ∧
        (∀ e ∈ (f.update s).2.all, e = s ∨ e ∈ f.all) ∧
        ∀ e ∈ f.all, e ∈ (f.update s).2.all ∨ Solution.covers f.eps s e = true) := by
  have hstair := (staircase_points_iff f).1 hf
  rw [staircase_points_iff (f.update s).2]
  rcases f.update_place s with
    hrefused | ⟨htaken, ⟨xs, d, ys, hall, hpass, hd, hall'⟩ | ⟨hpass, hall'⟩⟩
  · exact Or.inl hrefused
  · rw [hall] at hstair
    have hsd := covers_of_weaklyDominates h0 (weaklyDominates_of_strictlyDominates hd)
    rw [hall', hall]
    refine Or.inr ⟨htaken, pairwise_replaced h0 hstair hpass hd, by simp, fun e he => ?_,
      fun e he => ?_⟩
    · simp only [List.mem_append, List.mem_cons, List.mem_filter] at he ⊢
      tauto
    · by_cases hcovers : covers f.eps s e = true
      · exact Or.inr hcovers
      · simp only [List.mem_append, List.mem_cons, List.mem_filter, Bool.not_eq_true'] at he ⊢
        rw [Bool.not_eq_true] at hcovers
        rcases he with he | rfl | he
        · exact Or.inl (Or.inl he)
        · cases hcovers.symm.trans hsd
        · exact Or.inl (Or.inr (Or.inr ⟨he, hcovers⟩))
  · have hmem : ∀ e, e ∈ insertOrdered s f.all ↔ e = s ∨ e ∈ f.all := by
      intro e
      rw [(perm_insertOrdered s f.all).mem_iff, List.mem_cons]
    rw [hall']
    refine Or.inr ⟨htaken, pairwise_insertOrdered s hstair fun e he => (hpass e he).descends h0,
      (hmem s).2 (Or.inl rfl), fun e he => (hmem e).1 he, fun e he => Or.inl ((hmem e).2 (Or.inr he))⟩

end Frontier

theorem bisectFrom_of_le_one {α : Type} (below : α → Bool) (fuel : ℕ) {size : ℕ} (h : size ≤ 1)
    (l : List α) : bisectFrom below (fuel + 1) size l = if l.head?.any below then 1 else 0 := by
  cases l with
  | nil => simp [bisectFrom, h]
  | cons a l => by_cases ha : below a = true <;> simp [bisectFrom, h, ha]

theorem bisectFrom_of_one_lt {α : Type} (below : α → Bool) (fuel : ℕ) {size : ℕ} (h : ¬size ≤ 1)
    {l : List α} (hl : size / 2 < l.length) :
    bisectFrom below (fuel + 1) size l =
      if below l[size / 2] then
        size / 2 + bisectFrom below fuel (size - size / 2) (l.drop (size / 2))
      else bisectFrom below fuel (size - size / 2) l := by
  have hdrop : l.drop (size / 2) = l[size / 2] :: l.drop (size / 2 + 1) :=
    List.drop_eq_getElem_cons hl
  rw [hdrop]
  simp only [bisectFrom, if_neg h, hdrop]

/-- Bisection finds the boundary of a list whose elements below the bar come
first. -/
theorem bisectFrom_append {α : Type} (below : α → Bool) {fuel size : ℕ} {xs ys : List α}
    (hfuel : size < fuel) (hxs : xs.length ≤ size) (hsize : size ≤ (xs ++ ys).length)
    (hx : ∀ x ∈ xs, below x = true) (hy : ∀ y ∈ ys, below y = false) :
    bisectFrom below fuel size (xs ++ ys) = xs.length := by
  induction fuel generalizing size xs with
  | zero => exact absurd hfuel (Nat.not_lt_zero _)
  | succ fuel ih =>
      by_cases hone : size ≤ 1
      · rw [bisectFrom_of_le_one below fuel hone]
        cases xs with
        | nil =>
            cases ys with
            | nil => rfl
            | cons y ys => simp [hy y List.mem_cons_self]
        | cons x xs =>
            have hnil : xs = [] := by
              rw [← List.length_eq_zero_iff]
              simp only [List.length_cons] at hxs
              omega
            subst hnil
            simp [hx x List.mem_cons_self]
      have hhalf : size / 2 < (xs ++ ys).length := by omega
      rw [bisectFrom_of_one_lt below fuel hone hhalf]
      by_cases hin : size / 2 < xs.length
      · have hget : (xs ++ ys)[size / 2] = xs[size / 2] := List.getElem_append_left hin
        have hsplit : (xs ++ ys).drop (size / 2) = xs.drop (size / 2) ++ ys :=
          List.drop_append_of_le_length hin.le
        have hlen : (xs.drop (size / 2)).length = xs.length - size / 2 := List.length_drop
        have hlen' : (xs.drop (size / 2) ++ ys).length = (xs ++ ys).length - size / 2 := by
          rw [← hsplit, List.length_drop]
        rw [hget, if_pos (hx _ (List.getElem_mem hin)), hsplit,
          ih (by omega) (by omega) (by omega) (fun x h => hx x (List.mem_of_mem_drop h)), hlen]
        omega
      · have hget : below (xs ++ ys)[size / 2] = false := by
          rw [List.getElem_append_right (not_lt.1 hin)]
          exact hy _ (List.getElem_mem _)
        rw [hget, if_neg Bool.false_ne_true, ih (by omega) (by omega) (by omega) hx]

theorem bisect_append {α : Type} (below : α → Bool) {xs ys : List α}
    (hx : ∀ x ∈ xs, below x = true) (hy : ∀ y ∈ ys, below y = false) :
    bisect below (xs ++ ys) = xs.length := by
  refine bisectFrom_append below (Nat.lt_succ_self _) ?_ le_rfl hx hy
  rw [List.length_append]
  exact Nat.le_add_right _ _

namespace Frontier

/-- A supported solution is inserted where its first objective belongs. -/
theorem insertSupported_append {f : Frontier ℚ} {xs ys : List (Solution ℚ)}
    (h : f.supported = xs ++ ys) (s : Solution ℚ) (hx : ∀ x ∈ xs, x.z1 < s.z1)
    (hy : ∀ y ∈ ys, s.z1 ≤ y.z1) :
    f.insertSupported s = { f with supported := xs ++ s :: ys } := by
  have hindex : bisect (fun t => decide (t.z1 < s.z1)) f.supported = xs.length := by
    rw [h]
    refine bisect_append _ (fun x hx' => decide_eq_true (hx x hx')) fun y hy' => ?_
    exact decide_eq_false (not_lt.2 (hy y hy'))
  simp only [insertSupported, hindex]
  rw [h, List.take_left, List.drop_left]

theorem larger_eq_max (x y : ℚ) : Scalar.larger x y = max x y := by
  by_cases h : x < y
  · rw [Scalar.larger_of_isNumber_of_lt (Scalar.isNumber_rat x) h, max_eq_right h.le]
  · rw [Scalar.larger_of_isNumber_of_not_lt (Scalar.isNumber_rat x) h, max_eq_left (not_lt.1 h)]

/-- Takes the nadir of one gap into account. -/
def nadirStep (w : Weights ℚ) (lo : ℚ) (worst? : Option ℚ) (ab : Solution ℚ × Solution ℚ) :
    Option ℚ :=
  if lo ≤ ab.1.z1 then
    some (worst?.elim (w.w1 * ab.2.z1 + w.w2 * ab.1.z2) (max · (w.w1 * ab.2.z1 + w.w2 * ab.1.z2)))
  else worst?

theorem nadirWithin?_eq_foldl (f : Frontier ℚ) (w : Weights ℚ) (lo hi : ℚ) :
    f.nadirWithin? w lo hi =
      ((neighbours f.all).takeWhile fun ab => !decide (hi < ab.2.z1)).foldl (nadirStep w lo)
        none := by
  rw [nadirWithin?]
  congr 1
  funext worst? ab
  rw [nadirStep]
  cases worst? with
  | none => simp
  | some worst => simp [larger_eq_max]

theorem le_foldl_nadirStep (w : Weights ℚ) (lo : ℚ) (gaps : List (Solution ℚ × Solution ℚ))
    (worst? : Option ℚ) {x : ℚ}
    (hx : (∃ worst ∈ worst?, x ≤ worst) ∨
      ∃ ab ∈ gaps, lo ≤ ab.1.z1 ∧ x ≤ w.w1 * ab.2.z1 + w.w2 * ab.1.z2) :
    ∃ worst ∈ gaps.foldl (nadirStep w lo) worst?, x ≤ worst := by
  induction gaps generalizing worst? with
  | nil =>
      rcases hx with hx | ⟨ab, hab, -⟩
      · exact hx
      · cases hab
  | cons gap gaps ih =>
      rw [List.foldl_cons]
      apply ih
      by_cases hlo : lo ≤ gap.1.z1
      · rw [nadirStep, if_pos hlo]
        rcases hx with ⟨worst, hworst, hle⟩ | ⟨ab, hab, hab'⟩
        · rw [Option.mem_def] at hworst
          subst hworst
          exact Or.inl ⟨_, rfl, le_max_of_le_left hle⟩
        · rcases List.mem_cons.1 hab with rfl | hab
          · cases worst? with
            | none => exact Or.inl ⟨_, rfl, hab'.2⟩
            | some worst => exact Or.inl ⟨_, rfl, le_max_of_le_right hab'.2⟩
          · exact Or.inr ⟨ab, hab, hab'⟩
      · rw [nadirStep, if_neg hlo]
        rcases hx with hx | ⟨ab, hab, hab'⟩
        · exact Or.inl hx
        · rcases List.mem_cons.1 hab with rfl | hab
          · exact absurd hab'.1 hlo
          · exact Or.inr ⟨ab, hab, hab'⟩

theorem mem_takeWhile_neighbours {l : List (Solution ℚ)}
    (hl : l.Pairwise fun a b => Descends a.toPoint b.toPoint) {hi : ℚ}
    {ab : Solution ℚ × Solution ℚ} (hab : ab ∈ neighbours l) (hhi : ab.2.z1 ≤ hi) :
    ab ∈ (neighbours l).takeWhile fun gap => !decide (hi < gap.2.z1) := by
  induction l with
  | nil => cases hab
  | cons a l ih =>
      cases l with
      | nil => cases hab
      | cons b l =>
          obtain ⟨-, hbl⟩ := List.pairwise_cons.1 hl
          rw [neighbours_cons_cons] at hab ⊢
          have hb : b.z1 ≤ ab.2.z1 := by
            rcases List.mem_cons.1 hab with rfl | hab
            · exact le_rfl
            · rcases List.mem_cons.1 (mem_of_mem_neighbours hab).2 with heq | hmem
              · rw [heq]
              · exact ((List.pairwise_cons.1 hbl).1 _ hmem).1.le
          have hpass : (!decide (hi < b.z1)) = true := by
            simpa using hb.trans hhi
          simp only [List.takeWhile_cons, hpass, if_true]
          rcases List.mem_cons.1 hab with rfl | hab
          · exact List.mem_cons_self
          · exact List.mem_cons_of_mem _ (ih hbl hab)

/-- No gap between the bounds has a weighted nadir above the one computed. -/
theorem le_nadirWithin? {f : Frontier ℚ} (hf : Staircase f.points) (w : Weights ℚ) {lo hi : ℚ}
    {ab : Solution ℚ × Solution ℚ} (hab : ab ∈ neighbours f.all) (hlo : lo ≤ ab.1.z1)
    (hhi : ab.2.z1 ≤ hi) :
    ∃ worst ∈ f.nadirWithin? w lo hi, w.w1 * ab.2.z1 + w.w2 * ab.1.z2 ≤ worst := by
  rw [staircase_points_iff] at hf
  rw [nadirWithin?_eq_foldl]
  exact le_foldl_nadirStep w lo _ none
    (Or.inr ⟨ab, mem_takeWhile_neighbours hf hab hhi, hlo, le_rfl⟩)

theorem mem_foldl_nadirStep (w : Weights ℚ) (lo : ℚ) (gaps : List (Solution ℚ × Solution ℚ))
    (worst? : Option ℚ) {v : ℚ} (hv : gaps.foldl (nadirStep w lo) worst? = some v) :
    worst? = some v ∨ ∃ ab ∈ gaps, lo ≤ ab.1.z1 ∧ v = w.w1 * ab.2.z1 + w.w2 * ab.1.z2 := by
  induction gaps generalizing worst? with
  | nil => exact Or.inl hv
  | cons gap gaps ih =>
      rw [List.foldl_cons] at hv
      rcases ih _ hv with hstep | ⟨ab, hab, hv⟩
      · rw [nadirStep] at hstep
        by_cases hlo : lo ≤ gap.1.z1
        · rw [if_pos hlo] at hstep
          cases worst? with
          | none => exact Or.inr ⟨gap, List.mem_cons_self, hlo, (Option.some.inj hstep).symm⟩
          | some worst =>
              rcases max_choice worst (w.w1 * gap.2.z1 + w.w2 * gap.1.z2) with hmax | hmax
              · exact Or.inl ((congrArg some hmax).symm.trans hstep)
              · exact Or.inr ⟨gap, List.mem_cons_self, hlo,
                  (Option.some.inj hstep).symm.trans hmax⟩
        · rw [if_neg hlo] at hstep
          exact Or.inl hstep
      · exact Or.inr ⟨ab, List.mem_cons_of_mem _ hab, hv⟩

/-- The one computed is the weighted nadir of a gap between the bounds. -/
theorem exists_of_nadirWithin?_eq_some {f : Frontier ℚ} {w : Weights ℚ} {lo hi v : ℚ}
    (h : f.nadirWithin? w lo hi = some v) :
    ∃ ab ∈ neighbours f.all, lo ≤ ab.1.z1 ∧ ab.2.z1 ≤ hi ∧
      v = w.w1 * ab.2.z1 + w.w2 * ab.1.z2 := by
  rw [nadirWithin?_eq_foldl] at h
  rcases mem_foldl_nadirStep w lo _ none h with hnone | ⟨ab, hab, hlo, hv⟩
  · cases hnone
  · have hhi := List.mem_takeWhile_imp hab
    rw [Bool.not_eq_true', decide_eq_false_iff_not, not_lt] at hhi
    exact ⟨ab, (List.takeWhile_sublist _).subset hab, hlo, hhi, hv⟩

end Frontier

end Biobjective
