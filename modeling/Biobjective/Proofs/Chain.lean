import Biobjective.Proofs.SupportedPoint
import Biobjective.Proofs.Update

/-!
# Chains of supported points

The list that the first phase builds is a chain: a staircase of supported
outcomes. `Anchored` fixes its two ends and `Cursor` says which of its chords
are known to be saturated, that is, to have no feasible outcome below them.
A point found below the chord at the cursor splits that chord and touches no
other, and a chord without such a point lets the cursor move on.
-/

namespace Biobjective

/-- The solutions are a staircase of supported outcomes. -/
structure Chain (p : Program ℚ) (l : List (Solution ℚ)) : Prop where
  descends : l.Pairwise fun a b => Descends a.toPoint b.toPoint
  supported : ∀ s ∈ l, p.IsSupported s.toPoint

/-- The list runs from the minimum of the first objective to that of the
second. -/
structure Anchored (p : Program ℚ) (l : List (Solution ℚ)) : Prop where
  head : ∃ s, l.head? = some s ∧ p.IsLexMin .first s.toPoint
  last : ∃ s, l.getLast? = some s ∧ p.IsLexMin .second s.toPoint

/-- No feasible outcome lies below the chord. -/
def Saturated (p : Program ℚ) (a b : Solution ℚ) : Prop := p.Minimises (a.chord b) a.toPoint

/-- The chords up to the element at `left` are saturated. -/
def Cursor (p : Program ℚ) (left : ℕ) (l : List (Solution ℚ)) : Prop :=
  ∃ xs a ys, l = xs ++ a :: ys ∧ xs.length = left ∧
    ∀ ab ∈ neighbours (xs ++ [a]), Saturated p ab.1 ab.2

namespace Chain

theorem staircase {p : Program ℚ} {l : List (Solution ℚ)} (h : Chain p l) :
    Staircase (l.map (·.toPoint)) := by
  rw [Staircase, List.pairwise_map]
  exact h.descends

/-- There are no more supported points than masks. -/
theorem length_le {p : Program ℚ} {l : List (Solution ℚ)} (h : Chain p l) :
    l.length ≤ 2 ^ p.dimension := by
  have hsub : l.map (·.toPoint) ⊆ (List.range (2 ^ p.dimension)).map p.maskOutcome := by
    intro z hz
    obtain ⟨s, hs, rfl⟩ := List.mem_map.1 hz
    obtain ⟨mask, hmask, heq⟩ := (p.mem_outcomes_iff _).1 (h.supported s hs).mem
    exact List.mem_map.2 ⟨mask, List.mem_range.2 hmask.1, heq⟩
  have hlen := (h.staircase.nodup.subperm hsub).length_le
  simpa using hlen

theorem nil {p : Program ℚ} : Chain p [] :=
  ⟨List.Pairwise.nil, fun _ h => absurd h List.not_mem_nil⟩

theorem tail {p : Program ℚ} {a : Solution ℚ} {l : List (Solution ℚ)} (h : Chain p (a :: l)) :
    Chain p l :=
  ⟨(List.pairwise_cons.1 h.descends).2, fun s hs => h.supported s (List.mem_cons_of_mem _ hs)⟩

theorem singleton {p : Program ℚ} {a : Solution ℚ} (ha : p.IsSupported a.toPoint) :
    Chain p [a] := by
  refine ⟨List.pairwise_singleton _ _, fun s hs => ?_⟩
  rw [List.mem_singleton.1 hs]
  exact ha

theorem pair {p : Program ℚ} {a b : Solution ℚ} (ha : p.IsSupported a.toPoint)
    (hb : p.IsSupported b.toPoint) (hab : Descends a.toPoint b.toPoint) : Chain p [a, b] := by
  refine ⟨List.pairwise_pair.2 hab, fun s hs => ?_⟩
  rcases List.mem_cons.1 hs with rfl | hs
  · exact ha
  · rw [List.mem_singleton.1 hs]
    exact hb

/-- A supported point between two neighbours may be inserted between them. -/
theorem insert {p : Program ℚ} {xs ys : List (Solution ℚ)} {a b s : Solution ℚ}
    (h : Chain p (xs ++ a :: b :: ys)) (hs : p.IsSupported s.toPoint)
    (has : Descends a.toPoint s.toPoint) (hsb : Descends s.toPoint b.toPoint) :
    Chain p (xs ++ a :: s :: b :: ys) := by
  obtain ⟨hxs, hab, hcross⟩ := List.pairwise_append.1 h.descends
  obtain ⟨ha, hb⟩ := List.pairwise_cons.1 hab
  obtain ⟨hb, hys⟩ := List.pairwise_cons.1 hb
  have hmem : ∀ t ∈ xs ++ a :: s :: b :: ys, t = s ∨ t ∈ xs ++ a :: b :: ys := by
    intro t ht
    simp only [List.mem_append, List.mem_cons] at ht ⊢
    tauto
  have hsys : ∀ t ∈ b :: ys, Descends s.toPoint t.toPoint := by
    intro t ht
    rcases List.mem_cons.1 ht with rfl | ht
    · exact hsb
    · exact ⟨hsb.1.trans (hb t ht).1, (hb t ht).2.trans hsb.2⟩
  refine ⟨List.pairwise_append.2 ⟨hxs, List.pairwise_cons.2 ⟨?_, List.pairwise_cons.2
    ⟨hsys, List.pairwise_cons.2 ⟨hb, hys⟩⟩⟩, ?_⟩, ?_⟩
  · intro t ht
    rcases List.mem_cons.1 ht with rfl | ht
    · exact has
    · exact ha t ht
  · intro t ht u hu
    rcases List.mem_cons.1 hu with rfl | hu
    · exact hcross t ht u List.mem_cons_self
    · rcases List.mem_cons.1 hu with rfl | hu
      · have hta := hcross t ht a List.mem_cons_self
        exact ⟨hta.1.trans has.1, has.2.trans hta.2⟩
      · exact hcross t ht u (List.mem_cons_of_mem _ hu)
  · intro t ht
    rcases hmem t ht with rfl | ht
    · exact hs
    · exact h.supported t ht

end Chain

theorem Anchored.singleton {p : Program ℚ} {a : Solution ℚ} (hfirst : p.IsLexMin .first a.toPoint)
    (hsecond : p.IsLexMin .second a.toPoint) : Anchored p [a] :=
  ⟨⟨a, rfl, hfirst⟩, a, rfl, hsecond⟩

theorem Anchored.pair {p : Program ℚ} {a b : Solution ℚ} (ha : p.IsLexMin .first a.toPoint)
    (hb : p.IsLexMin .second b.toPoint) : Anchored p [a, b] :=
  ⟨⟨a, rfl, ha⟩, b, rfl, hb⟩

theorem Anchored.insert {p : Program ℚ} {xs ys : List (Solution ℚ)} {a b s : Solution ℚ}
    (h : Anchored p (xs ++ a :: b :: ys)) : Anchored p (xs ++ a :: s :: b :: ys) := by
  obtain ⟨⟨l, hl, hlex⟩, r, hr, hrex⟩ := h
  refine ⟨⟨l, ?_, hlex⟩, r, ?_, hrex⟩
  · rw [← hl]
    simp
  · rw [← hr]
    simp

theorem Cursor.start (p : Program ℚ) (a : Solution ℚ) (l : List (Solution ℚ)) :
    Cursor p 0 (a :: l) :=
  ⟨[], a, l, rfl, rfl, fun _ h => absurd h List.not_mem_nil⟩

/-- The cursor does not see what is inserted behind it. -/
theorem Cursor.insert {p : Program ℚ} {xs ys : List (Solution ℚ)} {a : Solution ℚ}
    (h : Cursor p xs.length (xs ++ a :: ys)) (zs : List (Solution ℚ)) :
    Cursor p xs.length (xs ++ a :: zs) := by
  obtain ⟨us, b, vs, heq, hlen, hsat⟩ := h
  obtain ⟨rfl, hrest⟩ := List.append_inj heq hlen.symm
  obtain ⟨rfl, -⟩ := List.cons.inj hrest
  exact ⟨xs, a, zs, rfl, rfl, hsat⟩

theorem Cursor.advance {p : Program ℚ} {xs ys : List (Solution ℚ)} {a b : Solution ℚ}
    (h : Cursor p xs.length (xs ++ a :: b :: ys)) (hab : Saturated p a b) :
    Cursor p (xs.length + 1) (xs ++ a :: b :: ys) := by
  obtain ⟨us, c, vs, heq, hlen, hsat⟩ := h
  obtain ⟨rfl, hrest⟩ := List.append_inj heq hlen.symm
  obtain ⟨rfl, -⟩ := List.cons.inj hrest
  refine ⟨xs ++ [a], b, ys, by simp, by simp, ?_⟩
  intro cd hcd
  rw [neighbours_concat, List.mem_append, List.mem_singleton] at hcd
  rcases hcd with hcd | rfl
  · exact hsat cd hcd
  · exact hab

/-- A cursor at the end has all chords before it. -/
theorem Cursor.saturated {p : Program ℚ} {left : ℕ} {l : List (Solution ℚ)}
    (h : Cursor p left l) (hend : l.length ≤ left + 1) :
    ∀ ab ∈ neighbours l, Saturated p ab.1 ab.2 := by
  obtain ⟨xs, a, ys, rfl, rfl, hsat⟩ := h
  have hnil : ys = [] := by
    rw [← List.length_eq_zero_iff]
    simp only [List.length_append, List.length_cons] at hend
    omega
  rw [hnil]
  exact hsat

/-- A chain from anchor to anchor with the chords up to the cursor saturated. -/
structure Refining (p : Program ℚ) (left : ℕ) (l : List (Solution ℚ)) : Prop where
  chain : Chain p l
  anchored : Anchored p l
  cursor : Cursor p left l

namespace Refining

theorem insert {p : Program ℚ} {xs ys : List (Solution ℚ)} {a b s : Solution ℚ}
    (h : Refining p xs.length (xs ++ a :: b :: ys)) (hs : p.IsSupported s.toPoint)
    (has : Descends a.toPoint s.toPoint) (hsb : Descends s.toPoint b.toPoint) :
    Refining p xs.length (xs ++ a :: s :: b :: ys) :=
  ⟨h.chain.insert hs has hsb, h.anchored.insert, h.cursor.insert _⟩

theorem advance {p : Program ℚ} {xs ys : List (Solution ℚ)} {a b : Solution ℚ}
    (h : Refining p xs.length (xs ++ a :: b :: ys)) (hab : Saturated p a b) :
    Refining p (xs.length + 1) (xs ++ a :: b :: ys) :=
  ⟨h.chain, h.anchored, h.cursor.advance hab⟩

end Refining

/-- The value of a whole point under a chord of whole points is whole. -/
theorem isWhole_chord_value {a b : Solution ℚ} {z : Point ℚ} (ha : a.toPoint.Whole)
    (hb : b.toPoint.Whole) (hz : z.Whole) : IsWhole ((a.chord b).value z) :=
  ((ha.z2.sub hb.z2).mul hz.z1).add ((hb.z1.sub ha.z1).mul hz.z2)

end Biobjective
