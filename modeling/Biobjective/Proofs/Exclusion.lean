import Biobjective.Proofs.Ensures
import Biobjective.Proofs.Literals

/-!
# Excluded assignments

Literals that agree on each variable compile to a pattern that hits what differs
from none of them. Those that a found assignment is excluded with name all
variables, so among the masks of the program their pattern hits the one mask it
was made of. `excluding` is an enumerator under which a list of masks has been
excluded in this way, and `found_of_answers` says what its answers mean.
-/

namespace Biobjective

theorem binary_of_zero_or_one {x : ℚ} (hx : x = 0 ∨ x = 1) : binary x = x := by
  rcases hx with rfl | rfl
  · have h : ¬(Scalar.half : ℚ) ≤ 0 := by norm_num [Scalar.half]
    rw [binary, if_neg h]
  · have h : (Scalar.half : ℚ) ≤ 1 := by norm_num [Scalar.half]
    rw [binary, if_pos h]

theorem half_le_iff_binary_eq_one (x : ℚ) : Scalar.half ≤ x ↔ binary x = 1 := by
  rw [binary]
  by_cases h : (Scalar.half : ℚ) ≤ x
  · rw [if_pos h]
    exact iff_of_true h rfl
  · rw [if_neg h]
    exact iff_of_false h zero_ne_one

namespace Pattern

/-- Literals that agree on each variable make a pattern that hits the masks that
differ from none of them. -/
theorem hits_ofLiterals_iff (n : ℕ) {literals : List (Literal ℚ)}
    (hagree : ∀ l ∈ literals, ∀ l' ∈ literals, l.index = l'.index →
      binary l.excluded = binary l'.excluded) (mask : ℕ) :
    (ofLiterals n literals).hits mask = true ↔
      ∀ l ∈ literals, l.index < n → (mask.testBit l.index = true ↔ binary l.excluded = 1) := by
  have hagree' : Literal.Agree n literals := by
    intro l hl l' hl' _ heq
    rw [half_le_iff_binary_eq_one, half_le_iff_binary_eq_one, hagree l hl l' hl' heq]
  rw [hagree'.hits_iff]
  simp only [Literal.AllFail, Literal.FailsAt, half_le_iff_binary_eq_one]

/-- A mask that such a pattern does not hit differs from one of the literals. -/
theorem hits_ofLiterals_eq_false_iff (n : ℕ) {literals : List (Literal ℚ)}
    (hagree : ∀ l ∈ literals, ∀ l' ∈ literals, l.index = l'.index →
      binary l.excluded = binary l'.excluded) (mask : ℕ) :
    (ofLiterals n literals).hits mask = false ↔
      ∃ l ∈ literals, l.index < n ∧
        (if mask.testBit l.index then 1 else 0) ≠ binary l.excluded := by
  have hdiffers : ∀ l : Literal ℚ, ¬(mask.testBit l.index = true ↔ binary l.excluded = 1) ↔
      (if mask.testBit l.index then 1 else 0) ≠ binary l.excluded := by
    intro l
    rw [not_iff_not, binary]
    by_cases hhalf : (Scalar.half : ℚ) ≤ l.excluded
    · simp [hhalf]
    · simp [hhalf]
  rw [← Bool.not_eq_true, hits_ofLiterals_iff n hagree]
  simp only [not_forall, exists_prop, hdiffers]

end Pattern

namespace Program

theorem map_binary_decisions (p : Program ℚ) (mask : ℕ) :
    (p.decisions mask).map binary = p.decisions mask := by
  have hfixed : ∀ v ∈ p.decisions mask, binary v = id v := fun v hv =>
    binary_of_zero_or_one (p.decisions_zero_or_one mask v hv)
  rw [List.map_congr_left hfixed, List.map_id]

/-- The literal that differs from a variable of a mask. -/
def literalOf (mask i : ℕ) : Literal ℚ := ⟨i, if mask.testBit i then 1 else 0⟩

theorem noGood_decisions (p : Program ℚ) (mask : ℕ) :
    noGood (p.decisions mask) = (List.range p.dimension).map (literalOf mask) := by
  apply List.ext_getElem
  · simp
  · intro i hi hi'
    have hvalue : binary (if mask.testBit i then 1 else 0 : ℚ) = if mask.testBit i then 1 else 0 := by
      apply binary_of_zero_or_one
      by_cases h : mask.testBit i
      · simp [h]
      · simp [h]
    simp only [noGood, decisions, literalOf, List.getElem_mapIdx, List.getElem_map,
      List.getElem_range, hvalue]

theorem binary_literalOf (mask i : ℕ) :
    binary (literalOf mask i).excluded = 1 ↔ mask.testBit i = true := by
  rw [literalOf, ← half_le_iff_binary_eq_one]
  cases mask.testBit i with
  | false => norm_num [Scalar.half]
  | true => norm_num [Scalar.half]

/-- The pattern that excludes the assignment of a mask. -/
def patternOf (p : Program ℚ) (mask : ℕ) : Pattern :=
  .ofLiterals p.dimension (noGood ((p.decisions mask).map binary))

theorem hits_patternOf_iff (p : Program ℚ) {mask m : ℕ} (hmask : mask < 2 ^ p.dimension)
    (hm : m < 2 ^ p.dimension) : (p.patternOf mask).hits m = true ↔ m = mask := by
  have hagree : ∀ l ∈ (List.range p.dimension).map (literalOf mask),
      ∀ l' ∈ (List.range p.dimension).map (literalOf mask), l.index = l'.index →
        binary l.excluded = binary l'.excluded := by
    simp only [List.mem_map]
    rintro _ ⟨i, -, rfl⟩ _ ⟨i', -, rfl⟩ (rfl : i = i')
    rfl
  rw [patternOf, map_binary_decisions, noGood_decisions, Pattern.hits_ofLiterals_iff _ hagree,
    List.forall_mem_map]
  simp only [List.mem_range, binary_literalOf]
  constructor
  · intro h
    apply Nat.eq_of_testBit_eq
    intro j
    by_cases hj : j < p.dimension
    · exact Bool.eq_iff_iff.2 (h j hj hj)
    · have hpow : 2 ^ p.dimension ≤ 2 ^ j := Nat.pow_le_pow_right (by decide) (not_lt.1 hj)
      rw [Nat.testBit_lt_two_pow (hm.trans_le hpow), Nat.testBit_lt_two_pow (hmask.trans_le hpow)]
  · rintro rfl i - -
    exact Iff.rfl

theorem any_hits_patternOf_eq_false_iff (p : Program ℚ) {masks : List ℕ}
    (hmasks : ∀ m ∈ masks, m < 2 ^ p.dimension) {mask : ℕ} (hmask : mask < 2 ^ p.dimension) :
    (masks.map p.patternOf).any (·.hits mask) = false ↔ mask ∉ masks := by
  rw [List.any_eq_false, List.forall_mem_map]
  constructor
  · intro h hmem
    exact h mask hmem ((p.hits_patternOf_iff (hmasks mask hmem) hmask).2 rfl)
  · intro h m hm hhits
    rw [(p.hits_patternOf_iff (hmasks m hm) hmask).1 hhits] at h
    exact h hm

end Program

/-- The enumerator of a program with weights, ranges and excluded masks. -/
def excluding (p : Program ℚ) (limit? : Option ℕ) (w : Weights ℚ) (first second : Interval ℚ)
    (masks : List ℕ) : Enumerator ℚ :=
  { program := p, weights := w, first, second, excluded := masks.map p.patternOf,
    nodeLimit? := limit? }

/-- The world's enumerator excludes exactly these masks. -/
def Excluding (p : Program ℚ) (limit? : Option ℕ) (masks : List ℕ)
    (w : World ℚ (Enumerator ℚ)) : Prop :=
  ∃ weights first second, InForce (excluding p limit? weights first second masks) w

theorem follow_exclude (p : Program ℚ) (limit? : Option ℕ) (w : Weights ℚ)
    (first second : Interval ℚ) (masks : List ℕ) (mask : ℕ) :
    (excluding p limit? w first second masks).follow
        (.exclude (noGood ((p.decisions mask).map binary))) =
      excluding p limit? w first second (mask :: masks) := rfl

theorem admits_excluding_iff {p : Program ℚ} {limit? : Option ℕ} {w : Weights ℚ}
    {first second : Interval ℚ} {masks : List ℕ} (hmasks : ∀ m ∈ masks, m < 2 ^ p.dimension)
    {mask : ℕ} :
    (excluding p limit? w first second masks).Admits mask ↔
      p.FeasibleMask mask ∧ mask ∉ masks ∧ first.allows (p.maskOutcome mask).z1 = true ∧
        second.allows (p.maskOutcome mask).z2 = true := by
  constructor
  · rintro ⟨hmask, hobeys⟩
    simp only [Enumerator.obeys, Bool.and_eq_true, Bool.not_eq_true'] at hobeys
    exact ⟨hmask, (p.any_hits_patternOf_eq_false_iff hmasks hmask.1).1 hobeys.2, hobeys.1⟩
  · rintro ⟨hmask, hnot, hranges⟩
    refine ⟨hmask, ?_⟩
    simp only [Enumerator.obeys, Bool.and_eq_true, Bool.not_eq_true']
    exact ⟨hranges, (p.any_hits_patternOf_eq_false_iff hmasks hmask.1).2 hnot⟩

/-- The optimum is that of a feasible mask that is not excluded and within the
ranges, and none of these has a smaller weighted sum. -/
structure IsFound (p : Program ℚ) (w : Weights ℚ) (first second : Interval ℚ) (masks : List ℕ)
    (mask : ℕ) (o : Optimum ℚ) : Prop where
  feasible : p.FeasibleMask mask
  not_mem : mask ∉ masks
  toPoint_eq : o.toPoint = p.maskOutcome mask
  decisions_eq : o.decisions = p.decisions mask
  first_allows : first.allows o.z1 = true
  second_allows : second.allows o.z2 = true
  value_eq : o.value = w.value o.toPoint
  value_le : ∀ m, p.FeasibleMask m → m ∉ masks → first.allows (p.maskOutcome m).z1 = true →
    second.allows (p.maskOutcome m).z2 = true → o.value ≤ w.value (p.maskOutcome m)

theorem found_of_answers {p : Program ℚ} {limit? : Option ℕ} {w : Weights ℚ}
    {first second : Interval ℚ} {masks : List ℕ} (hmasks : ∀ m ∈ masks, m < 2 ^ p.dimension)
    {a : Answer ℚ} (h : (excluding p limit? w first second masks).Answers a) :
    (∃ o mask, a = .optimal o ∧ IsFound p w first second masks mask o) ∨
      (a = .infeasible ∧ ∀ m, p.FeasibleMask m → m ∉ masks →
        ¬(first.allows (p.maskOutcome m).z1 = true ∧ second.allows (p.maskOutcome m).z2 = true)) ∨
      ∃ nodes, a = .timedOut nodes ∧ limit? ≠ none := by
  cases h with
  | optimal mask hmask hleast =>
      obtain ⟨hfeasible, hnot, hfirst, hsecond⟩ := (admits_excluding_iff hmasks).1 hmask
      refine Or.inl ⟨_, mask, rfl, hfeasible, hnot, rfl, rfl, hfirst, hsecond, rfl, ?_⟩
      intro m hm hnot' h1 h2
      exact hleast m ((admits_excluding_iff hmasks).2 ⟨hm, hnot', h1, h2⟩)
  | infeasible hnone =>
      refine Or.inr (Or.inl ⟨rfl, ?_⟩)
      intro m hm hnot h12
      exact hnone m ((admits_excluding_iff hmasks).2 ⟨hm, hnot, h12.1, h12.2⟩)
  | timedOut nodes _ hlimit => exact Or.inr (Or.inr ⟨nodes, rfl, hlimit⟩)

end Biobjective
