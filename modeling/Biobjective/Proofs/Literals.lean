import Biobjective.Oracle.Enumeration
import Mathlib.Algebra.Group.Nat.Defs
import Mathlib.Data.List.Basic
import Mathlib.Data.Rat.Defs

/-!
# What an exclusion forbids

An exclusion asks that one of its literals holds. The enumerator keeps it as one pair of
masks, into which the literals on the same variable are merged: the variable is forbidden to be
one as soon as one of them excludes one, whatever the others exclude. So the pair forbids the
assignments at which all literals fail, provided that the literals on each variable agree. If
two of them contradict each other, one of them holds at every assignment, and still the pair
forbids some. The main result is `Enumerator.exclude_forbids`, which holds for scalars of any
kind.
-/

namespace Biobjective

variable {K : Type} [Scalar K]

/-- Adds the literal of one variable to a pattern. -/
def Pattern.refine (dimension : ℕ) (e : Pattern) (l : Literal K) : Pattern :=
  if l.index < dimension then
    { care := e.care ||| 1 <<< l.index
      value := if Scalar.half ≤ l.excluded then e.value ||| 1 <<< l.index else e.value }
  else e

theorem Pattern.ofLiterals_eq_foldl (dimension : ℕ) (literals : List (Literal K)) :
    Pattern.ofLiterals dimension literals = literals.foldl (Pattern.refine dimension) ⟨0, 0⟩ := rfl

namespace Literal

/-- The variable has the value that the literal excludes. -/
def FailsAt (l : Literal K) (mask : ℕ) : Prop :=
  mask.testBit l.index = true ↔ Scalar.half ≤ l.excluded

/-- All literals on the first `n` variables fail. -/
def AllFail (n : ℕ) (literals : List (Literal K)) (mask : ℕ) : Prop :=
  ∀ l ∈ literals, l.index < n → l.FailsAt mask

/-- Literals on the same variable exclude the same value. -/
def Agree (n : ℕ) (literals : List (Literal K)) : Prop :=
  ∀ l ∈ literals, ∀ l' ∈ literals, l.index < n → l.index = l'.index →
    (Scalar.half ≤ l.excluded ↔ Scalar.half ≤ l'.excluded)

/-- Some literal on the variable excludes one. -/
def Raised (literals : List (Literal K)) (i : ℕ) : Prop :=
  ∃ l ∈ literals, l.index = i ∧ Scalar.half ≤ l.excluded

variable {n mask : ℕ} {literals : List (Literal K)}

theorem Agree.raised_iff (h : Agree n literals) {l : Literal K} (hl : l ∈ literals)
    (hindex : l.index < n) : Raised literals l.index ↔ Scalar.half ≤ l.excluded := by
  constructor
  · intro hraised
    obtain ⟨l', hl', heq, hhalf⟩ := hraised
    exact (h l hl l' hl' hindex heq.symm).2 hhalf
  · intro hhalf
    exact ⟨l, hl, rfl, hhalf⟩

/-- Where all literals fail, no two of them can contradict each other. -/
theorem AllFail.agree (h : AllFail n literals mask) : Agree n literals := by
  intro l hl l' hl' hindex heq
  have hfails : mask.testBit l.index = true ↔ Scalar.half ≤ l.excluded := h l hl hindex
  have hfails' : mask.testBit l'.index = true ↔ Scalar.half ≤ l'.excluded :=
    h l' hl' (heq ▸ hindex)
  rw [← hfails, ← hfails', heq]

end Literal

namespace Pattern

variable (n : ℕ) (literals : List (Literal K))

theorem testBit_refine (e : Pattern) (l : Literal K) (j : ℕ) :
    ((e.refine n l).care.testBit j = true ↔ e.care.testBit j = true ∨ (l.index = j ∧ j < n)) ∧
      ((e.refine n l).value.testBit j = true ↔
        e.value.testBit j = true ∨ (l.index = j ∧ j < n ∧ Scalar.half ≤ l.excluded)) := by
  rw [refine]
  by_cases hindex : l.index < n
  · rw [if_pos hindex, Nat.testBit_or, Nat.one_shiftLeft, Nat.testBit_two_pow, Bool.or_eq_true,
      decide_eq_true_eq]
    have hj : l.index = j → j < n := fun h => h ▸ hindex
    refine ⟨or_congr_right (and_iff_left_of_imp hj).symm, ?_⟩
    by_cases hhalf : Scalar.half ≤ l.excluded
    · rw [if_pos hhalf, Nat.testBit_or, Nat.testBit_two_pow, Bool.or_eq_true, decide_eq_true_eq,
        and_iff_left hhalf]
      exact or_congr_right (and_iff_left_of_imp hj).symm
    · rw [if_neg hhalf]
      exact (or_iff_left fun h => hhalf h.2.2).symm
  · rw [if_neg hindex]
    have hj : ¬(l.index = j ∧ j < n) := fun h => hindex (h.1 ▸ h.2)
    exact ⟨(or_iff_left hj).symm, (or_iff_left fun h => hj ⟨h.1, h.2.1⟩).symm⟩

theorem testBit_foldl_refine (e : Pattern) (j : ℕ) :
    ((literals.foldl (refine n) e).care.testBit j = true ↔
        e.care.testBit j = true ∨ ∃ l ∈ literals, l.index = j ∧ j < n) ∧
      ((literals.foldl (refine n) e).value.testBit j = true ↔
        e.value.testBit j = true ∨
          ∃ l ∈ literals, l.index = j ∧ j < n ∧ Scalar.half ≤ l.excluded) := by
  induction literals generalizing e with
  | nil => simp
  | cons l literals ih =>
      obtain ⟨hcare, hvalue⟩ := ih (e.refine n l)
      obtain ⟨hcare', hvalue'⟩ := testBit_refine n e l j
      rw [List.foldl_cons, hcare, hvalue, hcare', hvalue', or_assoc, or_assoc,
        List.exists_mem_cons_iff, List.exists_mem_cons_iff]
      exact ⟨Iff.rfl, Iff.rfl⟩

theorem testBit_ofLiterals (j : ℕ) :
    ((ofLiterals n literals).care.testBit j = true ↔ ∃ l ∈ literals, l.index = j ∧ j < n) ∧
      ((ofLiterals n literals).value.testBit j = true ↔
        ∃ l ∈ literals, l.index = j ∧ j < n ∧ Scalar.half ≤ l.excluded) := by
  have hbits := testBit_foldl_refine n literals ⟨0, 0⟩ j
  simpa only [ofLiterals_eq_foldl, Nat.zero_testBit, Bool.false_eq_true, false_or] using hbits

theorem testBit_value_ofLiterals {j : ℕ} (hj : j < n) :
    (ofLiterals n literals).value.testBit j = true ↔ Literal.Raised literals j := by
  rw [(testBit_ofLiterals n literals j).2, Literal.Raised]
  simp only [hj, true_and]

/-- What the pair of masks forbids: each variable that a literal names is one exactly if some
literal on it excludes one. -/
theorem hits_ofLiterals_iff_raised (mask : ℕ) :
    (ofLiterals n literals).hits mask = true ↔
      ∀ l ∈ literals, l.index < n →
        (mask.testBit l.index = true ↔ Literal.Raised literals l.index) := by
  have hbits := testBit_ofLiterals n literals
  rw [hits, beq_iff_eq]
  constructor
  · intro h l hl hindex
    have hcare := (hbits l.index).1.2 ⟨l, hl, rfl, hindex⟩
    have hbit : (mask.testBit l.index && (ofLiterals n literals).care.testBit l.index) =
        (ofLiterals n literals).value.testBit l.index := by
      rw [← Nat.testBit_and, h]
    rw [hcare, Bool.and_true] at hbit
    rw [hbit, testBit_value_ofLiterals n literals hindex]
  · intro h
    apply Nat.eq_of_testBit_eq
    intro j
    rw [Bool.eq_iff_iff, Nat.testBit_and, Bool.and_eq_true, (hbits j).1, (hbits j).2]
    constructor
    · rintro ⟨hmask, l, hl, rfl, hj⟩
      obtain ⟨l', hl', heq, hhalf⟩ := (h l hl hj).1 hmask
      exact ⟨l', hl', heq, hj, hhalf⟩
    · rintro ⟨l, hl, rfl, hj, hhalf⟩
      exact ⟨(h l hl hj).2 ⟨l, hl, rfl, hhalf⟩, l, hl, rfl, hj⟩

/-- The values of the pair are an assignment of the first `n` variables that the pair
forbids. -/
theorem exists_hits_ofLiterals : ∃ mask < 2 ^ n, (ofLiterals n literals).hits mask = true := by
  refine ⟨(ofLiterals n literals).value, ?_, ?_⟩
  · apply Nat.lt_pow_two_of_testBit
    intro j hj
    rw [← Bool.not_eq_true, (testBit_ofLiterals n literals j).2]
    rintro ⟨l, -, -, hlt, -⟩
    exact absurd hlt (Nat.not_lt.2 hj)
  · rw [hits_ofLiterals_iff_raised]
    intro l _ hindex
    exact testBit_value_ofLiterals n literals hindex

end Pattern

/-- Literals that agree on each variable forbid the masks at which all of them fail. -/
theorem Literal.Agree.hits_iff {n : ℕ} {literals : List (Literal K)} (h : Agree n literals)
    (mask : ℕ) : (Pattern.ofLiterals n literals).hits mask = true ↔ AllFail n literals mask := by
  rw [Pattern.hits_ofLiterals_iff_raised]
  constructor
  · intro hall l hl hindex
    exact (hall l hl hindex).trans (h.raised_iff hl hindex)
  · intro hall l hl hindex
    exact (hall l hl hindex).trans (h.raised_iff hl hindex).symm

namespace Enumerator

/-- An exclusion turns away the assignments at which each variable named is one exactly if some
literal on it excludes one, and no others. If the literals agree, these are the assignments at
which all literals fail. If they do not, a literal holds at every assignment, and yet one is
turned away. -/
theorem exclude_forbids (e : Enumerator K) (literals : List (Literal K)) :
    let n := e.program.dimension
    let pattern := Pattern.ofLiterals n literals
    (∀ mask z, (e.follow (.exclude literals)).obeys mask z = true ↔
      e.obeys mask z = true ∧ pattern.hits mask = false) ∧
    (∀ mask, pattern.hits mask = true ↔
      ∀ l ∈ literals, l.index < n →
        (mask.testBit l.index = true ↔ Literal.Raised literals l.index)) ∧
    (Literal.Agree n literals →
      ∀ mask, pattern.hits mask = true ↔ Literal.AllFail n literals mask) ∧
    (¬Literal.Agree n literals →
      (∀ mask, ¬Literal.AllFail n literals mask) ∧ ∃ mask < 2 ^ n, pattern.hits mask = true) := by
  intro n pattern
  have hobeys : ∀ mask z, (e.follow (.exclude literals)).obeys mask z = true ↔
      e.obeys mask z = true ∧ pattern.hits mask = false := by
    intro mask z
    have hany : ((e.follow (.exclude literals)).excluded.any (·.hits mask)) =
        (pattern.hits mask || e.excluded.any (·.hits mask)) := rfl
    simp only [obeys, hany, Bool.not_or, Bool.and_eq_true, Bool.not_eq_true']
    exact ⟨fun h => ⟨⟨h.1, h.2.2⟩, h.2.1⟩, fun h => ⟨h.1.1, h.2, h.1.2⟩⟩
  refine ⟨hobeys, Pattern.hits_ofLiterals_iff_raised n literals, fun hagree => hagree.hits_iff,
    fun hdiffer => ⟨fun mask hfail => hdiffer hfail.agree, ?_⟩⟩
  exact Pattern.exists_hits_ofLiterals n literals

end Enumerator

/-- One item, which is better taken in both objectives. -/
def oneItem : Program ℚ :=
  { c1 := [-1]
    c2 := [-1]
    rows := []
    c1_ne_nil := by decide
    c1_length_le := by decide
    c2_length := by decide
    coefs_length := by decide }

namespace Enumerator

/-- Literals that exclude both values of the one item: every assignment differs from one of
them, yet the better assignment is turned away, and the answer is the other one. -/
theorem exclude_forbids_oneItem :
    let e := ofProgram oneItem none
    let literals : List (Literal ℚ) := [⟨0, 0⟩, ⟨0, 1⟩]
    ¬Literal.Agree 1 literals ∧ (∀ mask, ¬Literal.AllFail 1 literals mask) ∧
      (Pattern.ofLiterals 1 literals).hits 1 = true ∧
      e.answer = .optimal ⟨⟨-1, -1⟩, -2, [1], 2⟩ ∧
      (e.follow (.exclude literals)).answer = .optimal ⟨⟨0, 0⟩, 0, [0], 2⟩ := by
  intro e literals
  obtain ⟨-, hhits, -, hdiffer⟩ := exclude_forbids e literals
  have hnot : ¬Literal.Agree 1 literals := by
    intro hagree
    have hboth := hagree ⟨0, 0⟩ (by simp [literals]) ⟨0, 1⟩ (by simp [literals]) Nat.one_pos rfl
    exact absurd (hboth.2 (by decide +kernel)) (by decide +kernel)
  refine ⟨hnot, (hdiffer hnot).1, ?_, by decide +kernel, by decide +kernel⟩
  refine (hhits 1).2 fun l hl _ => ?_
  simp only [literals, List.mem_cons, List.not_mem_nil, or_false] at hl
  have hraised : Literal.Raised literals 0 := ⟨⟨0, 1⟩, by simp [literals], rfl, by decide +kernel⟩
  rcases hl with rfl | rfl
  · exact iff_of_true rfl hraised
  · exact iff_of_true rfl hraised

end Enumerator

end Biobjective
