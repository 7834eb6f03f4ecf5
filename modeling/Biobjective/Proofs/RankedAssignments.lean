import Biobjective.Proofs.ExactSolve
import Mathlib.Data.Finset.Sort
import Mathlib.Data.Prod.Lex

/-!
# Assignments in the order of their value

An oracle is asked to solve again and again, and each optimum is excluded before the next
solve. The literals that exclude an optimum take exactly one mask from those that the terms
admit, so the answers go through the admissible masks from the least weighted sum upwards,
equal ones in the order of the code. `Ranks` is the list that they go through, and one solve
leads from the list to its tail. Once the list is spent every solve finds nothing. The main
result is `Enumerator.rank_exhausts`.
-/

namespace Biobjective

/-- The answers to a number of solves, each optimum being excluded before the next one. -/
def Oracle.rank {K σ : Type} [Scalar K] (o : Oracle K σ) : ℕ → σ → List (Answer K)
  | 0, _ => []
  | rounds + 1, s =>
    match (o.solve s).1 with
    | .optimal best =>
      .optimal best :: rank o rounds (o.follow (o.solve s).2 (.exclude (noGood best.decisions)))
    | answer => answer :: rank o rounds (o.solve s).2

/-- The terms after the assignment of a mask was excluded. -/
def Terms.without (t : Terms ℚ) (p : Program ℚ) (mask : ℕ) : Terms ℚ :=
  t.follow (.exclude (noGood (p.decisions mask)))

theorem admissible_without_iff {p : Program ℚ} {t : Terms ℚ} {mask m : ℕ}
    (hmask : mask < 2 ^ p.dimension) :
    Admissible p (t.without p mask) m ↔ Admissible p t m ∧ m ≠ mask := by
  have hhits : m < 2 ^ p.dimension →
      ((Pattern.ofLiterals p.dimension (noGood (p.decisions mask))).hits m = false ↔ m ≠ mask) := by
    intro hm
    have hpattern := p.hits_patternOf_iff hmask hm
    rw [Program.patternOf, p.map_binary_decisions] at hpattern
    rw [← Bool.not_eq_true, hpattern]
  constructor
  · rintro ⟨hlt, hrows, hfirst, hsecond, hnot⟩
    obtain ⟨hhere, hbefore⟩ := List.forall_mem_cons.1 hnot
    exact ⟨⟨hlt, hrows, hfirst, hsecond, hbefore⟩, (hhits hlt).1 hhere⟩
  · rintro ⟨⟨hlt, hrows, hfirst, hsecond, hnot⟩, hne⟩
    exact ⟨hlt, hrows, hfirst, hsecond, List.forall_mem_cons.2 ⟨(hhits hlt).2 hne, hnot⟩⟩

/-- The mask in place `j` of the code has a smaller weighted sum than the one in place `k`, or
the same and is met before it. -/
def Precedes (p : Program ℚ) (t : Terms ℚ) (j k : ℕ) : Prop :=
  t.valueAt p (gray j) < t.valueAt p (gray k) ∨
    (t.valueAt p (gray j) = t.valueAt p (gray k) ∧ j < k)

theorem Precedes.ne {p : Program ℚ} {t : Terms ℚ} {j k : ℕ} (h : Precedes p t j k) : j ≠ k := by
  rintro rfl
  rcases h with h | ⟨-, h⟩
  · exact lt_irrefl _ h
  · exact lt_irrefl _ h

/-- The places of all masks that the terms admit, each before those that it precedes. -/
structure Ranks (p : Program ℚ) (t : Terms ℚ) (places : List ℕ) : Prop where
  mem_iff : ∀ k, k ∈ places ↔ k < 2 ^ p.dimension ∧ Admissible p t (gray k)
  ascends : places.Pairwise (Precedes p t)

open Classical in
theorem exists_ranks (p : Program ℚ) (t : Terms ℚ) : ∃ places, Ranks p t places := by
  -- The order of the pairs is that of the places, since no two pairs have the same place.
  let key : ℕ → ℚ ×ₗ ℕ := fun k => toLex (t.valueAt p (gray k), k)
  let admitted := (Finset.range (2 ^ p.dimension)).filter fun k => Admissible p t (gray k)
  have hkey : ∀ x ∈ (admitted.image key).sort, ∃ k ∈ admitted, key k = x := by
    intro x hx
    exact Finset.mem_image.1 ((Finset.mem_sort _).1 hx)
  refine ⟨(admitted.image key).sort.map fun x => (ofLex x).2, fun k => ?_, ?_⟩
  · have hadmitted : k ∈ admitted ↔ k < 2 ^ p.dimension ∧ Admissible p t (gray k) := by
      rw [Finset.mem_filter, Finset.mem_range]
    rw [List.mem_map, ← hadmitted]
    constructor
    · rintro ⟨x, hx, rfl⟩
      obtain ⟨j, hj, rfl⟩ := hkey x hx
      exact hj
    · intro hk
      exact ⟨key k, (Finset.mem_sort _).2 (Finset.mem_image_of_mem key hk), rfl⟩
  · rw [List.pairwise_map]
    refine (Finset.sortedLT_sort _).pairwise.imp_of_mem ?_
    intro x y hx hy hxy
    obtain ⟨j, -, rfl⟩ := hkey x hx
    obtain ⟨k, -, rfl⟩ := hkey y hy
    exact Prod.Lex.toLex_lt_toLex.1 hxy

namespace Ranks

variable {p : Program ℚ} {t : Terms ℚ} {places : List ℕ}

theorem exists_place (h : Ranks p t places) {mask : ℕ} (hmask : Admissible p t mask) :
    ∃ k ∈ places, gray k = mask := by
  obtain ⟨k, hk, rfl⟩ := exists_gray hmask.lt
  exact ⟨k, (h.mem_iff k).2 ⟨hk, hmask⟩, rfl⟩

theorem firstLeast {k : ℕ} (h : Ranks p t (k :: places)) : FirstLeast p t k := by
  obtain ⟨hlt, hadmissible⟩ := (h.mem_iff k).1 List.mem_cons_self
  have hhead := (List.pairwise_cons.1 h.ascends).1
  refine ⟨hlt, hadmissible, fun mask hmask => ?_, fun j hj hadm => ?_⟩
  · obtain ⟨j, hj, rfl⟩ := h.exists_place hmask
    rcases List.mem_cons.1 hj with rfl | hj
    · exact le_rfl
    · rcases hhead j hj with hless | ⟨heq, -⟩
      · exact hless.le
      · exact heq.le
  · rcases List.mem_cons.1 ((h.mem_iff j).2 ⟨hj.trans hlt, hadm⟩) with rfl | hmem
    · exact absurd hj (lt_irrefl _)
    · rcases hhead j hmem with hless | ⟨-, hkj⟩
      · exact hless
      · exact absurd hkj hj.not_gt

/-- Excluding the first mask leaves the list of the others. -/
theorem tail {k : ℕ} (h : Ranks p t (k :: places)) : Ranks p (t.without p (gray k)) places := by
  obtain ⟨hhead, htail⟩ := List.pairwise_cons.1 h.ascends
  have hmask : gray k < 2 ^ p.dimension := h.firstLeast.admissible.lt
  refine ⟨fun j => ?_, htail⟩
  rw [admissible_without_iff hmask, gray_injective.ne_iff, ← and_assoc, ← h.mem_iff j,
    List.mem_cons]
  constructor
  · intro hj
    exact ⟨Or.inr hj, (hhead j hj).ne.symm⟩
  · rintro ⟨rfl | hj, hne⟩
    · exact absurd rfl hne
    · exact hj

theorem nodup_decisions (h : Ranks p t places) :
    (places.map fun k => p.decisions (gray k)).Nodup := by
  have hnodup : places.Nodup := h.ascends.imp Precedes.ne
  refine hnodup.map_on fun j hj k hk heq => ?_
  exact gray_injective (p.decisions_injOn ((h.mem_iff j).1 hj).2.lt ((h.mem_iff k).1 hk).2.lt heq)

end Ranks

theorem FirstLeast.unique {p : Program ℚ} {t : Terms ℚ} {j k : ℕ} (hj : FirstLeast p t j)
    (hk : FirstLeast p t k) : j = k := by
  rcases lt_trichotomy j k with hlt | heq | hgt
  · exact absurd (hk.first j hlt hj.admissible) (hj.least _ hk.admissible).not_gt
  · exact heq
  · exact absurd (hj.first k hgt hk.admissible) (hk.least _ hj.admissible).not_gt

/-- The optimum at a mask under the terms. -/
def Terms.optimumAt (t : Terms ℚ) (p : Program ℚ) (mask : ℕ) : Optimum ℚ :=
  { toPoint := p.maskOutcome mask
    value := t.valueAt p mask
    decisions := p.decisions mask
    nodes := 2 ^ p.dimension }

namespace Enumerator

variable {e : Enumerator ℚ} {p : Program ℚ} {t : Terms ℚ}

theorem Keeps.solve (h : e.Keeps p t) : e.solve.2.Keeps p t :=
  ⟨h.program, h.weights, h.first, h.second, h.excluded, h.unlimited⟩

theorem Keeps.answer_of_ranks_nil (h : e.Keeps p t) (hranks : Ranks p t []) :
    e.answer = .infeasible := by
  rcases h.answer_cases with ⟨heq, -⟩ | ⟨k, hk, -⟩
  · exact heq
  · exact absurd ((hranks.mem_iff k).2 ⟨hk.lt, hk.admissible⟩) List.not_mem_nil

theorem Keeps.answer_of_ranks_cons (h : e.Keeps p t) {k : ℕ} {places : List ℕ}
    (hranks : Ranks p t (k :: places)) : e.answer = .optimal (t.optimumAt p (gray k)) := by
  rcases h.answer_cases with ⟨-, hnone⟩ | ⟨j, hj, heq⟩
  · exact absurd hranks.firstLeast.admissible (hnone _)
  · rw [heq, hj.unique hranks.firstLeast]
    rfl

/-- The answers go through the list, and find nothing once it is spent. -/
theorem Keeps.rank_eq (h : e.Keeps p t) {places : List ℕ} (hranks : Ranks p t places)
    (rounds : ℕ) :
    (oracle p).rank rounds e =
      (places.take rounds).map (fun k => .optimal (t.optimumAt p (gray k))) ++
        List.replicate (rounds - places.length) .infeasible := by
  induction rounds generalizing e t places with
  | zero => simp [Oracle.rank]
  | succ rounds ih =>
      cases places with
      | nil =>
          have hanswer : ((oracle p).solve e).1 = .infeasible := h.answer_of_ranks_nil hranks
          have hrest := ih h.solve hranks
          rw [Oracle.rank, hanswer]
          simp only [List.take_nil, List.map_nil, List.nil_append, List.length_nil,
            Nat.sub_zero, List.replicate_succ] at hrest ⊢
          exact congrArg _ hrest
      | cons k places =>
          have hanswer : ((oracle p).solve e).1 = .optimal (t.optimumAt p (gray k)) :=
            h.answer_of_ranks_cons hranks
          have hrest := ih (h.solve.follow (.exclude (noGood (p.decisions (gray k))))) hranks.tail
          rw [Oracle.rank, hanswer, List.take_succ_cons, List.map_cons, List.cons_append,
            List.length_cons, Nat.succ_sub_succ]
          exact congrArg _ hrest

/-- After any calls, solving again and again and excluding each optimum gives every admissible
assignment once, by ascending weighted sum and among equal ones in the order of the code, and
after these every solve finds nothing. -/
theorem rank_exhausts (p : Program ℚ) (calls : List (Call ℚ)) :
    let t := Terms.initial.after calls
    let e := (oracle p).after (.ofProgram p none) calls
    ∃ places : List ℕ,
      (∀ k ∈ places, k < 2 ^ p.dimension) ∧
      (∀ mask, Admissible p t mask ↔ ∃ k ∈ places, k ^^^ (k >>> 1) = mask) ∧
      (places.map fun k => p.decisions (k ^^^ (k >>> 1))).Nodup ∧
      places.Pairwise (fun j k =>
        t.valueAt p (j ^^^ (j >>> 1)) < t.valueAt p (k ^^^ (k >>> 1)) ∨
          (t.valueAt p (j ^^^ (j >>> 1)) = t.valueAt p (k ^^^ (k >>> 1)) ∧ j < k)) ∧
      ∀ rounds, (oracle p).rank rounds e =
        (places.take rounds).map (fun k => .optimal
          { toPoint := p.maskOutcome (k ^^^ (k >>> 1))
            value := t.valueAt p (k ^^^ (k >>> 1))
            decisions := p.decisions (k ^^^ (k >>> 1))
            nodes := 2 ^ p.dimension }) ++
          List.replicate (rounds - places.length) .infeasible := by
  intro t e
  obtain ⟨places, hranks⟩ := exists_ranks p t
  have hkeeps : e.Keeps p t := (keeps_ofProgram p).after calls
  refine ⟨places, fun k hk => ((hranks.mem_iff k).1 hk).1, fun mask => ⟨hranks.exists_place, ?_⟩,
    hranks.nodup_decisions, hranks.ascends, hkeeps.rank_eq hranks⟩
  rintro ⟨k, hk, rfl⟩
  exact ((hranks.mem_iff k).1 hk).2

end Enumerator

end Biobjective
