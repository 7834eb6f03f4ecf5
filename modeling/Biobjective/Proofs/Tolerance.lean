import Biobjective.Proofs.Insertion

/-!
# Members within the tolerance of each other

A member turns a solution away as soon as it covers it up to the tolerance, but it gives way to
the solution only if that dominates it exactly, and only then are later members swept that the
solution covers. So a solution that is much better in one objective, and in the other worse by
less than the tolerance, comes to stand beside a member that it covers. In the same way a member
stays that covers the solution, if the solution has already taken the place of an earlier one.
`Frontier.mem_update_iff` says which members stay.

Still no two members cover each other, so that one that covers another also dominates it within
the tolerance. `Frontier.updateAll_covering` says this of all insertions into an empty frontier,
and which insertions leave a member that covers another.
-/

namespace Biobjective

namespace Solution

/-- Of two solutions that do not cover each other, one that covers the other differs from it by
more than the tolerance. -/
theorem covers_iff_dominatesWithin {eps : ℚ} {s t : Solution ℚ}
    (h : covers eps s t = false ∨ covers eps t s = false) :
    covers eps s t = true ↔ dominatesWithin eps s t = true := by
  rw [dominatesWithin, Bool.and_eq_true, Bool.or_eq_true, decide_eq_true_eq, decide_eq_true_eq,
    Scalar.magnitude_rat, Scalar.magnitude_rat]
  refine ⟨fun hst => ⟨hst, ?_⟩, And.left⟩
  have hts : ¬(t.z1 - eps ≤ s.z1 ∧ t.z2 - eps ≤ s.z2) := by
    rw [← covers_iff, Bool.not_eq_true]
    exact h.resolve_left (by simp [hst])
  by_cases h1 : t.z1 - eps ≤ s.z1
  · have h2 : s.z2 < t.z2 - eps := not_le.1 fun h2 => hts ⟨h1, h2⟩
    exact Or.inr (lt_abs.2 (Or.inr (by linarith)))
  · have h1 : s.z1 < t.z1 - eps := not_le.1 h1
    exact Or.inl (lt_abs.2 (Or.inr (by linarith)))

/-- The solution `s` and a member `e` stand beside each other once `s` is taken in, though one
covers the other. Either `s` covers `e`, which is to its left or cannot be swept because `s`
strictly dominates no member, or `e` covers `s` alone. -/
def Slips (eps : ℚ) (all : List (Solution ℚ)) (s e : Solution ℚ) : Prop :=
  (covers eps s e = true ∧ (e.z1 < s.z1 ∨ ∀ d ∈ all, s.strictlyDominates d = false)) ∨
    (covers eps e s = true ∧ covers eps s e = false)

end Solution

open Solution

/-- No solution of the list covers another one. -/
def Uncovered (eps : ℚ) (all : List (Solution ℚ)) : Prop :=
  all.Pairwise fun a b => covers eps a b = false ∧ covers eps b a = false

namespace Frontier

variable {f : Frontier ℚ} {s e : Solution ℚ}

/-- A solution that is taken in replaces the first member that it strictly dominates, or has
passed all members. -/
theorem update_taken (htaken : (f.update s).1 = true) :
    (∃ xs d ys, f.all = xs ++ d :: ys ∧ (∀ e ∈ xs, Passes f.eps s e) ∧
      s.strictlyDominates d = true ∧
      (f.update s).2.all = xs ++ s :: ys.filter fun t => !covers f.eps s t) ∨
    ((∀ e ∈ f.all, Passes f.eps s e) ∧ (f.update s).2.all.Perm (s :: f.all)) := by
  rcases f.update_place s with ⟨hrefused, -⟩ | ⟨-, hreplaced | ⟨hpass, hall⟩⟩
  · rw [hrefused] at htaken
    cases htaken
  · exact Or.inl hreplaced
  · rw [hall]
    exact Or.inr ⟨hpass, perm_insertOrdered s f.all⟩

/-- Once a solution is taken in, no other member and the solution cover each other. -/
theorem not_both_cover (htaken : (f.update s).1 = true) (he : e ∈ (f.update s).2.all)
    (hne : e ≠ s) : covers f.eps e s = false ∨ covers f.eps s e = false := by
  rcases update_taken htaken with ⟨xs, d, ys, -, hpass, -, hall⟩ | ⟨hpass, hperm⟩
  · rw [hall, List.mem_append, List.mem_cons, List.mem_filter] at he
    rcases he with he | he | ⟨-, he⟩
    · exact Or.inl (hpass e he).not_covers
    · exact absurd he hne
    · exact Or.inr (by simpa using he)
  · rcases List.mem_cons.1 (hperm.mem_iff.1 he) with rfl | he
    · exact absurd rfl hne
    · exact Or.inl (hpass e he).not_covers

/-- A member stays beside a solution that is taken in if it is to the left of it, or the solution
strictly dominates no member, or the solution does not cover it. -/
theorem mem_update_iff (h0 : 0 ≤ f.eps) (hf : Staircase f.points)
    (htaken : (f.update s).1 = true) :
    e ∈ (f.update s).2.all ↔ e = s ∨ (e ∈ f.all ∧
      (e.z1 < s.z1 ∨ (∀ d ∈ f.all, s.strictlyDominates d = false) ∨
        covers f.eps s e = false)) := by
  rw [staircase_points_iff] at hf
  rcases update_taken htaken with ⟨xs, d, ys, hall, hpass, hd, hall'⟩ | ⟨hpass, hperm⟩
  · rw [hall] at hf
    have hleft := fun t ht => (descends_of_passed h0 hf hpass hd (e := t) ht).1
    obtain ⟨-, hdy, -⟩ := List.pairwise_append.1 hf
    have hsd := weaklyDominates_of_strictlyDominates hd
    have hsome : ¬∀ d ∈ f.all, s.strictlyDominates d = false := by
      intro hnone
      rw [hnone d (by simp [hall])] at hd
      cases hd
    have hright : ∀ t ∈ ys, ¬t.z1 < s.z1 := fun t ht =>
      (hsd.1.trans_lt ((List.pairwise_cons.1 hdy).1 t ht).1).not_gt
    have hmem : e ∈ f.all ↔ e ∈ xs ∨ e = d ∨ e ∈ ys := by
      rw [hall, List.mem_append, List.mem_cons]
    have hmem' : e ∈ (f.update s).2.all ↔ e ∈ xs ∨ e = s ∨ (e ∈ ys ∧ covers f.eps s e = false) := by
      rw [hall', List.mem_append, List.mem_cons, List.mem_filter, Bool.not_eq_true']
    rw [hmem', hmem]
    constructor
    · rintro (he | he | ⟨he, hnot⟩)
      · exact Or.inr ⟨Or.inl he, Or.inl (hleft e he)⟩
      · exact Or.inl he
      · exact Or.inr ⟨Or.inr (Or.inr he), Or.inr (Or.inr hnot)⟩
    · rintro (he | ⟨he | he | he, hstays⟩)
      · exact Or.inr (Or.inl he)
      · exact Or.inl he
      · -- the member that is replaced is not to the left and is covered
        subst he
        have hnot := (hstays.resolve_left (not_lt.2 hsd.1)).resolve_left hsome
        rw [covers_of_weaklyDominates h0 hsd] at hnot
        cases hnot
      · have hnot := (hstays.resolve_left (hright e he)).resolve_left hsome
        exact Or.inr (Or.inr ⟨he, hnot⟩)
  · have hnone : ∀ d ∈ f.all, s.strictlyDominates d = false := fun d hd =>
      (hpass d hd).not_dominates
    rw [hperm.mem_iff, List.mem_cons]
    exact or_congr_right (and_iff_left (Or.inr (Or.inl hnone))).symm

theorem notMem_of_taken (h0 : 0 ≤ f.eps) (hf : Staircase f.points)
    (htaken : (f.update s).1 = true) : s ∉ f.all := by
  intro hs
  rw [update_of_weaklyDominates h0 hf ⟨s, hs, le_rfl, le_rfl⟩] at htaken
  cases htaken

theorem uncovered_iff (eps : ℚ) (hf : Staircase f.points) :
    Uncovered eps f.all ↔ ∀ a ∈ f.all, ∀ b ∈ f.all, a ≠ b → covers eps a b = false := by
  have hsymm : Std.Symm fun a b : Solution ℚ => covers eps a b = false ∧ covers eps b a = false :=
    ⟨fun _ _ h => h.symm⟩
  constructor
  · intro h a ha b hb hne
    exact (h.forall ha hb hne).1
  · intro h
    have hnodup : f.all.Nodup := List.Nodup.of_map _ hf.nodup
    refine hnodup.pairwise_of_forall_ne fun a ha b hb hne => ?_
    exact ⟨h a ha b hb hne, h b hb a ha hne.symm⟩

/-- Where no member covered another before, a solution that is taken in leaves it so unless it
slips in beside a member. -/
theorem uncovered_update_iff (h0 : 0 ≤ f.eps) (hf : Staircase f.points)
    (hf' : Staircase (f.update s).2.points) (htaken : (f.update s).1 = true)
    (hun : Uncovered f.eps f.all) :
    Uncovered f.eps (f.update s).2.all ↔ ¬∃ e ∈ f.all, Slips f.eps f.all s e := by
  have hmem := fun t => mem_update_iff (e := t) h0 hf htaken
  rw [uncovered_iff _ hf] at hun
  rw [uncovered_iff _ hf']
  have hs : s ∈ (f.update s).2.all := (hmem s).2 (Or.inl rfl)
  constructor
  · rintro hun' ⟨e, he, hslips⟩
    have hne : e ≠ s := by
      rintro rfl
      exact notMem_of_taken h0 hf htaken he
    rcases hslips with ⟨hcovers, hstays⟩ | ⟨hcovers, hnot⟩
    · have he' := (hmem e).2 (Or.inr ⟨he, hstays.imp_right Or.inl⟩)
      rw [hun' s hs e he' hne.symm] at hcovers
      cases hcovers
    · have he' := (hmem e).2 (Or.inr ⟨he, Or.inr (Or.inr hnot)⟩)
      rw [hun' e he' s hs hne] at hcovers
      cases hcovers
  · intro hslips
    have hbeside : ∀ e ∈ (f.update s).2.all, e ≠ s →
        covers f.eps s e = false ∧ covers f.eps e s = false := by
      intro e he' hne
      obtain ⟨he, hstays⟩ := ((hmem e).1 he').resolve_left hne
      have hse : covers f.eps s e = false := by
        by_contra hcovers
        rw [Bool.not_eq_false] at hcovers
        refine hslips ⟨e, he, Or.inl ⟨hcovers, hstays.imp_right fun h => h.resolve_right ?_⟩⟩
        simp [hcovers]
      refine ⟨hse, ?_⟩
      by_contra hcovers
      rw [Bool.not_eq_false] at hcovers
      exact hslips ⟨e, he, Or.inr ⟨hcovers, hse⟩⟩
    intro a ha b hb hne
    by_cases has : a = s
    · subst has
      exact (hbeside b hb hne.symm).1
    · by_cases hbs : b = s
      · subst hbs
        exact (hbeside a ha has).2
      · exact hun a (((hmem a).1 ha).resolve_left has).1 b (((hmem b).1 hb).resolve_left hbs).1 hne

@[simp] theorem updateAll_eps (f : Frontier ℚ) (l : List (Solution ℚ)) :
    (f.updateAll l).eps = f.eps := by
  induction l generalizing f with
  | nil => rfl
  | cons s l ih => exact (ih (f.update s).2).trans (update_eps f s)

theorem updateAll_concat (f : Frontier ℚ) (l : List (Solution ℚ)) (s : Solution ℚ) :
    f.updateAll (l ++ [s]) = ((f.updateAll l).update s).2 := by
  rw [updateAll, List.foldl_append]
  rfl

/-- Insertions into an empty frontier leave a staircase of which no two members cover each
other. -/
theorem updateAll_apart {eps : ℚ} (h0 : 0 ≤ eps) (l : List (Solution ℚ)) :
    Staircase ((empty eps).updateAll l).points ∧
      ∀ a ∈ ((empty eps).updateAll l).all, ∀ b ∈ ((empty eps).updateAll l).all, a ≠ b →
        covers eps a b = false ∨ covers eps b a = false := by
  induction l using List.reverseRecOn with
  | nil => exact ⟨List.Pairwise.nil, fun a ha => absurd ha List.not_mem_nil⟩
  | append_singleton l s ih =>
      obtain ⟨hf, hapart⟩ := ih
      rw [updateAll_concat]
      have heps : ((empty eps).updateAll l).eps = eps := updateAll_eps _ _
      generalize (empty eps).updateAll l = f at heps hf hapart
      subst heps
      rcases update_cases h0 hf s with ⟨hrefused, -⟩ | ⟨htaken, hf', -, hfrom, -⟩
      · rw [hrefused]
        exact ⟨hf, hapart⟩
      refine ⟨hf', fun a ha b hb hne => ?_⟩
      by_cases has : a = s
      · subst has
        exact (not_both_cover htaken hb hne.symm).symm
      · by_cases hbs : b = s
        · subst hbs
          exact not_both_cover htaken ha has
        · exact hapart a ((hfrom a ha).resolve_left has) b ((hfrom b hb).resolve_left hbs) hne

/-- Values that are equal or farther apart than the tolerance leave no member that covers
another. -/
theorem uncovered_of_separated {eps : ℚ} (h0 : 0 ≤ eps) {l : List (Solution ℚ)}
    (hl : Separated eps l) : Uncovered eps ((empty eps).updateAll l).all := by
  have hf := (updateAll_apart h0 l).1
  obtain ⟨hstairs, -, -⟩ := foldl_absorb_spec (hl.sharp h0) fun s hs => hs
  rw [uncovered_iff _ hf]
  intro a ha b hb hne
  by_contra hcovers
  rw [Bool.not_eq_false] at hcovers
  have hall : ((empty eps).updateAll l).all = l.foldl (absorb eps) [] := updateAll_all _ _
  have hmem : ∀ t ∈ ((empty eps).updateAll l).all, t ∈ l := by
    intro t ht
    rw [hall] at ht
    exact hstairs.mem t ht
  have hpoint : a.toPoint = b.toPoint := hf.eq_of_weaklyDominates (mem_points ha) (mem_points hb)
    ((hl.sharp h0).weaklyDominates a b (hmem a ha) (hmem b hb) hcovers)
  exact hne (List.inj_on_of_nodup_map hf.nodup ha hb hpoint)

/-- Whatever is inserted into an empty frontier, no two members cover each other, and a member
covers another one exactly if it dominates that within the tolerance. An insertion leaves a
member that covers another where there was none before exactly if the solution is taken in and
slips in beside a member. None does so among values that are equal or farther apart than the
tolerance. -/
theorem updateAll_covering {eps : ℚ} (h0 : 0 ≤ eps) (l : List (Solution ℚ)) :
    let f := (empty eps).updateAll l
    Staircase f.points ∧
    (∀ a ∈ f.all, ∀ b ∈ f.all, a ≠ b → ¬(covers eps a b = true ∧ covers eps b a = true)) ∧
    (∀ a ∈ f.all, ∀ b ∈ f.all, a ≠ b →
      (covers eps a b = true ↔ dominatesWithin eps a b = true)) ∧
    (Uncovered eps f.all → ∀ s,
      (¬Uncovered eps (f.update s).2.all ↔
        (f.update s).1 = true ∧ ∃ e ∈ f.all, Slips eps f.all s e)) ∧
    (Separated eps l → Uncovered eps f.all) := by
  intro f
  obtain ⟨hf, hapart⟩ : Staircase f.points ∧ ∀ a ∈ f.all, ∀ b ∈ f.all, a ≠ b →
      covers eps a b = false ∨ covers eps b a = false := updateAll_apart h0 l
  have heps : f.eps = eps := updateAll_eps _ _
  refine ⟨hf, ?_, ?_, ?_, uncovered_of_separated h0⟩
  · rintro a ha b hb hne ⟨hab, hba⟩
    rcases hapart a ha b hb hne with hnot | hnot
    · exact absurd hab (Bool.eq_false_iff.1 hnot)
    · exact absurd hba (Bool.eq_false_iff.1 hnot)
  · intro a ha b hb hne
    exact covers_iff_dominatesWithin (hapart a ha b hb hne)
  · intro hun s
    clear_value f
    subst heps
    rcases update_cases h0 hf s with ⟨hrefused, -⟩ | ⟨htaken, hf', -, -, -⟩
    · rw [hrefused]
      exact iff_of_false (not_not.2 hun) fun h => Bool.false_ne_true h.1
    · rw [uncovered_update_iff h0 hf hf' htaken hun, not_not, and_iff_right htaken]

/-- A solution that is ten better in the second objective and half the tolerance worse in the
first stays beside the member that it covers, and dominates it within the tolerance. -/
theorem updateAll_covering_slip :
    let a : Solution ℚ := ⟨⟨0, 10⟩, false, []⟩
    let s : Solution ℚ := ⟨⟨1 / 20, 0⟩, false, []⟩
    let f := (empty (1 / 10)).updateAll [a]
    Uncovered (1 / 10) f.all ∧ (f.update s).2.all = [a, s] ∧
      ¬Uncovered (1 / 10) (f.update s).2.all ∧ covers (1 / 10) s a = true ∧
      dominatesWithin (1 / 10) s a = true := by
  intro a s f
  have h0 : 0 ≤ (1 / 10 : ℚ) := by norm_num
  have hall : (f.update s).2.all = [a, s] := by decide +kernel
  have htaken : (f.update s).1 = true := by decide +kernel
  have hcovers : covers (1 / 10) s a = true := by decide +kernel
  have hlone : Uncovered (1 / 10) f.all := List.pairwise_singleton _ _
  have hleft : a.z1 < s.z1 := by norm_num [a, s]
  obtain ⟨-, -, -, hslips, -⟩ := updateAll_covering h0 [a]
  obtain ⟨-, -, hdominates, -, -⟩ := updateAll_covering h0 [a, s]
  refine ⟨hlone, hall, ?_, hcovers, ?_⟩
  · exact (hslips hlone s).2 ⟨htaken, a, List.mem_singleton_self a, Or.inl ⟨hcovers, Or.inl hleft⟩⟩
  · have hall' : ((empty (1 / 10)).updateAll [a, s]).all = [a, s] := hall
    rw [hall'] at hdominates
    refine (hdominates s (by simp) a (by simp) fun heq => ?_).1 hcovers
    exact absurd (congrArg (fun t : Solution ℚ => t.z1) heq) hleft.ne'

end Frontier

end Biobjective
