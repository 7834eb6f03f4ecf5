import Biobjective.Frontier
import Biobjective.Proofs.WholeNumber
import Mathlib.Data.List.Pairwise
import Mathlib.Data.List.Perm.Basic

/-!
# Staircases

A frontier is a staircase when its points descend from the upper left to the
lower right. A staircase is fixed by the set of its members. Between its two
ends, a first objective is either that of a member or lies in the gap between
two neighbours, and this is how an unseen point is located.
-/

namespace Biobjective

/-- The point `b` lies to the lower right of `a`. -/
def Descends (a b : Point ℚ) : Prop := a.z1 < b.z1 ∧ b.z2 < a.z2

/-- Each point lies to the lower right of all points before it. -/
def Staircase (l : List (Point ℚ)) : Prop := l.Pairwise Descends

/-- The point `y` is as small as `z` in both objectives. -/
def WeaklyDominates (y z : Point ℚ) : Prop := y.z1 ≤ z.z1 ∧ y.z2 ≤ z.z2

theorem WeaklyDominates.trans {x y z : Point ℚ} (hxy : WeaklyDominates x y)
    (hyz : WeaklyDominates y z) : WeaklyDominates x z :=
  ⟨hxy.1.trans hyz.1, hxy.2.trans hyz.2⟩

theorem Descends.not_weaklyDominates {a b : Point ℚ} (h : Descends a b) :
    ¬WeaklyDominates a b ∧ ¬WeaklyDominates b a :=
  ⟨fun hab => not_le.2 h.2 hab.2, fun hba => not_le.2 h.1 hba.1⟩

theorem Descends.ne {a b : Point ℚ} (h : Descends a b) : a ≠ b := by
  rintro rfl
  exact lt_irrefl _ h.1

namespace Staircase

theorem nodup {l : List (Point ℚ)} (hl : Staircase l) : l.Nodup :=
  hl.imp fun h => h.ne

/-- A staircase is fixed by the set of its members. -/
theorem eq_of_mem_iff {l m : List (Point ℚ)} (hl : Staircase l) (hm : Staircase m)
    (h : ∀ z, z ∈ l ↔ z ∈ m) : l = m := by
  have hperm : l.Perm m := (List.perm_ext_iff_of_nodup hl.nodup hm.nodup).2 h
  have hanti : ∀ a b : Point ℚ, a ∈ l → b ∈ m → Descends a b → Descends b a → a = b := by
    intro a b _ _ hab hba
    exact absurd (hab.1.trans hba.1) (lt_irrefl _)
  exact hperm.eq_of_pairwise hanti hl hm

/-- Two members are equal or stand on different steps. -/
theorem eq_or_descends {l : List (Point ℚ)} (hl : Staircase l) {a b : Point ℚ} (ha : a ∈ l)
    (hb : b ∈ l) : a = b ∨ Descends a b ∨ Descends b a := by
  have hsteps : l.Pairwise fun a b => Descends a b ∨ Descends b a := hl.imp Or.inl
  have hsymm : Std.Symm fun a b : Point ℚ => Descends a b ∨ Descends b a :=
    ⟨fun _ _ h => h.symm⟩
  by_cases hab : a = b
  · exact Or.inl hab
  · exact Or.inr (hsteps.forall ha hb hab)

theorem eq_of_weaklyDominates {l : List (Point ℚ)} (hl : Staircase l) {y z : Point ℚ}
    (hy : y ∈ l) (hz : z ∈ l) (hyz : WeaklyDominates y z) : y = z := by
  rcases hl.eq_or_descends hy hz with heq | h | h
  · exact heq
  · exact absurd hyz h.not_weaklyDominates.1
  · exact absurd hyz h.not_weaklyDominates.2

theorem descends_of_lt {l : List (Point ℚ)} (hl : Staircase l) {a b : Point ℚ} (ha : a ∈ l)
    (hb : b ∈ l) (h : a.z1 < b.z1) : Descends a b := by
  rcases hl.eq_or_descends ha hb with rfl | hab | hba
  · exact absurd h (lt_irrefl _)
  · exact hab
  · exact absurd hba.1 h.not_gt

/-- Points that are all on different steps become a staircase by sorting. -/
theorem mergeSort {l : List (Point ℚ)} (h : l.Pairwise fun a b => Descends a b ∨ Descends b a) :
    Staircase (l.mergeSort fun a b => a.z1 ≤ b.z1) := by
  have hsorted : (l.mergeSort fun a b => a.z1 ≤ b.z1).Pairwise fun a b => a.z1 ≤ b.z1 := by
    refine (List.pairwise_mergeSort (fun a b c hab hbc => ?_) (fun a b => ?_) _).imp
      of_decide_eq_true
    · exact decide_eq_true ((of_decide_eq_true hab).trans (of_decide_eq_true hbc))
    · simpa using le_total a.z1 b.z1
  have hsteps := h.perm (List.mergeSort_perm l fun a b => a.z1 ≤ b.z1).symm Or.symm
  refine (hsorted.and hsteps).imp ?_
  rintro a b ⟨hle, hab | hba⟩
  · exact hab
  · exact absurd hba.1 (not_lt.2 hle)

end Staircase

theorem mem_of_mem_neighbours {α : Type} {l : List α} {ab : α × α} (h : ab ∈ neighbours l) :
    ab.1 ∈ l ∧ ab.2 ∈ l := by
  induction l with
  | nil => cases h
  | cons a l ih =>
      cases l with
      | nil => cases h
      | cons b l =>
          rw [neighbours_cons_cons, List.mem_cons] at h
          rcases h with rfl | h
          · exact ⟨List.mem_cons_self, List.mem_cons_of_mem _ List.mem_cons_self⟩
          · exact ⟨List.mem_cons_of_mem _ (ih h).1, List.mem_cons_of_mem _ (ih h).2⟩

theorem rel_of_mem_neighbours {α : Type} {R : α → α → Prop} {l : List α} (hl : l.Pairwise R)
    {ab : α × α} (h : ab ∈ neighbours l) : R ab.1 ab.2 := by
  induction l with
  | nil => cases h
  | cons a l ih =>
      cases l with
      | nil => cases h
      | cons b l =>
          rw [neighbours_cons_cons, List.mem_cons] at h
          rcases h with rfl | h
          · exact (List.pairwise_cons.1 hl).1 b List.mem_cons_self
          · exact ih (List.pairwise_cons.1 hl).2 h

/-- In an ascending list nothing lies between two neighbours. -/
theorem le_or_le_of_mem_neighbours {α : Type} (f : α → ℚ) {l : List α}
    (hl : l.Pairwise fun a b => f a < f b) {ab : α × α} (hab : ab ∈ neighbours l) {c : α}
    (hc : c ∈ l) : f c ≤ f ab.1 ∨ f ab.2 ≤ f c := by
  induction l with
  | nil => cases hab
  | cons a l ih =>
      cases l with
      | nil => cases hab
      | cons b l =>
          obtain ⟨ha, hbl⟩ := List.pairwise_cons.1 hl
          rw [neighbours_cons_cons, List.mem_cons] at hab
          rcases hab with rfl | hab
          · rcases List.mem_cons.1 hc with rfl | hc
            · exact Or.inl le_rfl
            · rcases List.mem_cons.1 hc with rfl | hc
              · exact Or.inr le_rfl
              · exact Or.inr ((List.pairwise_cons.1 hbl).1 c hc).le
          · rcases List.mem_cons.1 hc with rfl | hc
            · exact Or.inl (ha ab.1 (mem_of_mem_neighbours hab).1).le
            · exact ih hbl hab hc

/-- One more element at the end brings one more pair. -/
theorem neighbours_concat {α : Type} (l : List α) (a b : α) :
    neighbours (l ++ [a] ++ [b]) = neighbours (l ++ [a]) ++ [(a, b)] := by
  induction l with
  | nil => rfl
  | cons c l ih =>
      cases l with
      | nil => rfl
      | cons d l =>
          simp only [List.cons_append, neighbours_cons_cons] at ih ⊢
          rw [ih]

/-- What holds of the first element and not of all others ceases to hold between two
neighbours. -/
theorem exists_neighbours_crossing {α : Type} (P : α → Prop) {a : α} {l : List α} (ha : P a)
    (hl : ∃ b ∈ a :: l, ¬P b) : ∃ ab ∈ neighbours (a :: l), P ab.1 ∧ ¬P ab.2 := by
  induction l generalizing a with
  | nil =>
      obtain ⟨b, hb, hnot⟩ := hl
      rw [List.mem_singleton.1 hb] at hnot
      exact absurd ha hnot
  | cons c l ih =>
      rw [neighbours_cons_cons]
      by_cases hc : P c
      · have hrest : ∃ b ∈ c :: l, ¬P b := by
          obtain ⟨b, hb, hnot⟩ := hl
          rcases List.mem_cons.1 hb with rfl | hb
          · exact absurd ha hnot
          · exact ⟨b, hb, hnot⟩
        obtain ⟨bc, hbc, hcross⟩ := ih hc hrest
        exact ⟨bc, List.mem_cons_of_mem _ hbc, hcross⟩
      · exact ⟨(a, c), List.mem_cons_self, ha, hc⟩

/-- A value from that of the first element on lies below that of some element
only between two neighbours. -/
theorem exists_neighbours_across {α : Type} (f : α → ℚ) {x : ℚ} {a : α} {l : List α}
    (ha : f a ≤ x) (hl : ∃ b ∈ a :: l, x < f b) :
    ∃ ab ∈ neighbours (a :: l), f ab.1 ≤ x ∧ x < f ab.2 := by
  simp only [← not_le] at hl ⊢
  exact exists_neighbours_crossing (fun b => f b ≤ x) ha hl

theorem exists_neighbours_around {α : Type} (f : α → ℚ) {x : ℚ} {a : α} {l : List α}
    (ha : f a ≤ x) (hl : ∃ b ∈ a :: l, x ≤ f b) :
    (∃ b ∈ a :: l, f b = x) ∨ ∃ ab ∈ neighbours (a :: l), f ab.1 < x ∧ x < f ab.2 := by
  obtain ⟨b, hb, hxb⟩ := hl
  rcases eq_or_lt_of_le hxb with heq | hlt
  · exact Or.inl ⟨b, hb, heq.symm⟩
  obtain ⟨ab, hab, hle, hlt⟩ := exists_neighbours_across f ha ⟨b, hb, hlt⟩
  rcases eq_or_lt_of_le hle with heq | hlt'
  · exact Or.inl ⟨ab.1, (mem_of_mem_neighbours hab).1, heq⟩
  · exact Or.inr ⟨ab, hab, hlt', hlt⟩

end Biobjective
