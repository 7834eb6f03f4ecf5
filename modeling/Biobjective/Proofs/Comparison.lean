import Biobjective.Scalar
import Mathlib.Algebra.Order.Ring.Rat
import Mathlib.Data.List.Induction
import Mathlib.Data.Option.NAry
import Mathlib.Data.Prod.Lex

/-!
# Comparisons of scalars

The numbers among the scalars are compared by a total preorder, and what is no number is
comparable with nothing: `Scalar.Ordered`. This is so on `ℚ`, where every scalar is a number, and
on `Float`, infinities and signed zeros included. Two doubles are compared by where they stand, see
`Scalar.compare_eq_map₂_standing?`: by sign and class first, then by exponent and significand, the
other way round below zero. These laws are all that it takes for repeated `Scalar.larger` to end
with the largest of a list, see `Scalar.isLargest_foldl_larger`.
-/

namespace Biobjective

namespace Scalar

/-- The order is total and transitive on the numbers, and nothing else is comparable. -/
class Ordered (K : Type) [Scalar K] : Prop where
  isNumber_of_le : ∀ {x y : K}, x ≤ y → isNumber y
  le_trans : ∀ {x y z : K}, x ≤ y → y ≤ z → x ≤ z
  le_of_lt : ∀ {x y : K}, x < y → x ≤ y
  le_of_not_lt : ∀ {x y : K}, isNumber x → isNumber y → ¬x < y → y ≤ x

instance : Ordered ℚ where
  isNumber_of_le {_ y} _ := isNumber_rat y
  le_trans hxy hyz := hxy.trans hyz
  le_of_lt h := h.le
  le_of_not_lt _ _ := not_lt.1

section Standing

open Float.Model

/-- Where a double stands in the order: its sign and class, then its exponent and its significand.
Either zero stands in the middle. -/
def standing? : UnpackedFloat → Option (ℤ ×ₗ ℤ ×ₗ ℤ)
  | .notANumber => none
  | .infinity .negative => some (toLex (-2, toLex (0, 0)))
  | .finite .negative m e _ => some (toLex (-1, toLex (-e, -(m : ℤ))))
  | .zero _ => some (toLex (0, toLex (0, 0)))
  | .finite .positive m e _ => some (toLex (1, toLex (e, (m : ℤ))))
  | .infinity .positive => some (toLex (2, toLex (0, 0)))

theorem compare_toLex {α β : Type} [Ord α] [Ord β] (a c : α) (b d : β) :
    compare (toLex (a, b)) (toLex (c, d)) = (compare a c).then (compare b d) := by
  rw [Prod.Lex.compare_def]
  rfl

theorem compare_neg_neg (x y : ℤ) : compare (-x) (-y) = (compare x y).swap := by
  rw [Int.compare_swap, ← cmp_eq_compare, ← cmp_eq_compare]
  exact StrictAnti.cmp_map_eq (fun _ _ => Int.neg_lt_neg) x y

theorem compare_natCast (m n : ℕ) : compare (m : ℤ) n = compare m n := by
  rw [← cmp_eq_compare, ← cmp_eq_compare]
  exact Int.natCast_strictMono.cmp_map_eq m n

/-- Doubles are compared by where they stand. -/
theorem compare_eq_map₂_standing? (a b : UnpackedFloat) :
    a.compare b = Option.map₂ compare (standing? a) (standing? b) := by
  match a, b with
  | .notANumber, _ => rfl
  | .infinity s, .notANumber => cases s <;> rfl
  | .infinity s, .infinity t => cases s <;> cases t <;> rfl
  | .infinity s, .zero _ => cases s <;> rfl
  | .infinity s, .finite t _ _ _ => cases s <;> cases t <;> rfl
  | .zero _, .notANumber => rfl
  | .zero _, .infinity t => cases t <;> rfl
  | .zero _, .zero _ => rfl
  | .zero _, .finite t _ _ _ => cases t <;> rfl
  | .finite s _ _ _, .notANumber => cases s <;> rfl
  | .finite s _ _ _, .infinity t => cases s <;> cases t <;> rfl
  | .finite s _ _ _, .zero _ => cases s <;> rfl
  | .finite .negative _ _ _, .finite .positive _ _ _ => rfl
  | .finite .positive _ _ _, .finite .negative _ _ _ => rfl
  | .finite .positive m e _, .finite .positive n d _ =>
      have hsame : compare (toLex (e, (m : ℤ))) (toLex (d, (n : ℤ))) =
          (compare e d).then (compare m n) := by
        rw [compare_toLex, compare_natCast]
      exact congrArg some hsame.symm
  | .finite .negative m e _, .finite .negative n d _ =>
      have hswap : compare (toLex (-e, -(m : ℤ))) (toLex (-d, -(n : ℤ))) =
          ((compare e d).then (compare m n)).swap := by
        rw [compare_toLex, compare_neg_neg, compare_neg_neg, compare_natCast, Ordering.swap_then]
      exact congrArg some hswap.symm

theorem le_iff_standing? {x y : Float} :
    x ≤ y ↔ ∃ a ∈ standing? x.toModel.unpack, ∃ b ∈ standing? y.toModel.unpack, a ≤ b := by
  have hle : x ≤ y ↔ (x.toModel.unpack.compare y.toModel.unpack).any (·.isLE) = true :=
    decide_eq_true_iff
  rw [hle, compare_eq_map₂_standing?]
  cases standing? x.toModel.unpack with
  | none => simp
  | some a =>
      cases standing? y.toModel.unpack with
      | none => simp
      | some b => simp [Ordering.isLE_iff_ne_gt, compare_le_iff_le]

theorem lt_iff_standing? {x y : Float} :
    x < y ↔ ∃ a ∈ standing? x.toModel.unpack, ∃ b ∈ standing? y.toModel.unpack, a < b := by
  have hlt : x < y ↔ (x.toModel.unpack.compare y.toModel.unpack == some .lt) = true :=
    decide_eq_true_iff
  rw [hlt, compare_eq_map₂_standing?]
  cases standing? x.toModel.unpack with
  | none => simp
  | some a =>
      cases standing? y.toModel.unpack with
      | none => simp
      | some b => simp [compare_lt_iff_lt]

/-- The numbers among the doubles are those that stand somewhere. -/
theorem isNumber_iff_standing? {x : Float} :
    isNumber x = true ↔ ∃ a, a ∈ standing? x.toModel.unpack := by
  rw [isNumber, decide_eq_true_iff, le_iff_standing?]
  constructor
  · rintro ⟨a, ha, -⟩
    exact ⟨a, ha⟩
  · rintro ⟨a, ha⟩
    exact ⟨a, ha, a, ha, le_rfl⟩

instance : Ordered Float where
  isNumber_of_le h := by
    obtain ⟨-, -, b, hb, -⟩ := le_iff_standing?.1 h
    exact isNumber_iff_standing?.2 ⟨b, hb⟩
  le_trans hxy hyz := by
    obtain ⟨a, ha, b, hb, hab⟩ := le_iff_standing?.1 hxy
    obtain ⟨b', hb', c, hc, hbc⟩ := le_iff_standing?.1 hyz
    obtain rfl := Option.mem_unique hb hb'
    exact le_iff_standing?.2 ⟨a, ha, c, hc, hab.trans hbc⟩
  le_of_lt h := by
    obtain ⟨a, ha, b, hb, hab⟩ := lt_iff_standing?.1 h
    exact le_iff_standing?.2 ⟨a, ha, b, hb, hab.le⟩
  le_of_not_lt hx hy h := by
    obtain ⟨a, ha⟩ := isNumber_iff_standing?.1 hx
    obtain ⟨b, hb⟩ := isNumber_iff_standing?.1 hy
    refine le_iff_standing?.2 ⟨b, hb, a, ha, not_lt.1 fun hab => h ?_⟩
    exact lt_iff_standing?.2 ⟨a, ha, b, hb, hab⟩

end Standing

section Largest

variable {K : Type} [Scalar K]

/-- The scalar belongs to the list, and no number of the list is larger. If the list has a number,
the scalar is one. -/
structure IsLargest (v : K) (l : List K) : Prop where
  mem : v ∈ l
  le : ∀ x ∈ l, isNumber x → x ≤ v

theorem isLargest_singleton (x : K) : IsLargest x [x] := by
  refine ⟨List.mem_singleton_self x, fun y hy hnumber => ?_⟩
  rw [List.mem_singleton.1 hy] at hnumber ⊢
  exact of_decide_eq_true hnumber

variable [Ordered K]

theorem IsLargest.larger {v : K} {l : List K} (h : IsLargest v l) (x : K) :
    IsLargest (larger v x) (l ++ [x]) := by
  have hx : x ∈ l ++ [x] := List.mem_append_right l (List.mem_singleton_self x)
  rw [Scalar.larger]
  split
  · rename_i hv
    split
    · rename_i hlt
      refine ⟨hx, fun y hy hnumber => ?_⟩
      rcases List.mem_append.1 hy with hy | hy
      · exact Ordered.le_trans (h.le y hy hnumber) (Ordered.le_of_lt hlt)
      · exact (isLargest_singleton x).le y hy hnumber
    · rename_i hlt
      refine ⟨List.mem_append_left _ h.mem, fun y hy hnumber => ?_⟩
      rcases List.mem_append.1 hy with hy | hy
      · exact h.le y hy hnumber
      · rw [List.mem_singleton.1 hy] at hnumber ⊢
        exact Ordered.le_of_not_lt hv hnumber hlt
  · rename_i hv
    refine ⟨hx, fun y hy hnumber => ?_⟩
    rcases List.mem_append.1 hy with hy | hy
    -- A number before `x` would have made `v` a number.
    · exact absurd (Ordered.isNumber_of_le (h.le y hy hnumber)) hv
    · exact (isLargest_singleton x).le y hy hnumber

/-- The larger of the largest so far and each scalar in turn ends with the largest of all. -/
theorem isLargest_foldl_larger (x : K) (l : List K) :
    IsLargest (l.foldl Scalar.larger x) (x :: l) := by
  induction l using List.reverseRecOn with
  | nil => exact isLargest_singleton x
  | append_singleton l y ih =>
      rw [List.foldl_append]
      exact ih.larger y

end Largest

end Scalar

end Biobjective
