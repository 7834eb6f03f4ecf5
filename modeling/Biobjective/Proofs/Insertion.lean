import Biobjective.Proofs.UpdateOrder
import Mathlib.Data.List.Dedup

/-!
# What insertions come to

`Frontier.update_step` says what one insertion does to a staircase, whatever the
tolerance. `Frontier.updateAll_eq` is about a sequence of insertions into an empty
frontier. If the values of each objective are equal or farther apart than the
tolerance, the frontier retains the non-dominated points of the sequence, each
with the first solution that had it. The invariant for a part of the sequence is
`Represents`: what is retained is known from the part alone, without the frontier.
-/

namespace Biobjective

namespace Frontier

/-- To insert a solution again changes nothing. -/
theorem update_idempotent {f : Frontier ℚ} (h0 : 0 ≤ f.eps) (hf : Staircase f.points)
    (s : Solution ℚ) : (f.update s).2.update s = (false, (f.update s).2) := by
  rcases update_cases h0 hf s with ⟨hrefused, -⟩ | ⟨-, hstair, hmem, -, -⟩
  · rw [hrefused, hrefused]
  · have heps : 0 ≤ (f.update s).2.eps := by
      rw [update_eps]
      exact h0
    exact update_of_weaklyDominates heps hstair ⟨s, hmem, le_rfl, le_rfl⟩

/-- An insertion keeps a staircase, the supported solutions and the tolerance. If it
is refused, nothing changes and a member covers the solution. If not, the solution is
there once, all else was there before, and the solution covers what is gone. Either
way the same insertion is refused from then on. -/
theorem update_step {f : Frontier ℚ} (h0 : 0 ≤ f.eps) (hf : Staircase f.points)
    (s : Solution ℚ) :
    Staircase (f.update s).2.points ∧ (f.update s).2.supported = f.supported ∧
      (f.update s).2.eps = f.eps ∧
      ((f.update s).1 = false →
        (f.update s).2 = f ∧ ∃ e ∈ f.all, Solution.covers f.eps e s = true) ∧
      ((f.update s).1 = true →
        (∃ xs ys, (f.update s).2.all = xs ++ s :: ys ∧ s ∉ xs ∧ s ∉ ys) ∧
        (∀ e ∈ (f.update s).2.all, e ≠ s → e ∈ f.all) ∧
        ∀ e ∈ f.all, e ∉ (f.update s).2.all → Solution.covers f.eps s e = true) ∧
      (f.update s).2.update s = (false, (f.update s).2) := by
  have hagain := update_idempotent h0 hf s
  rcases update_cases h0 hf s with ⟨hrefused, hcovered⟩ | ⟨htaken, hstair, hmem, hfrom, hkept⟩
  · rw [hrefused] at hagain ⊢
    exact ⟨hf, rfl, rfl, fun _ => ⟨rfl, hcovered⟩, nofun, hagain⟩
  · have honce : ∃ xs ys, (f.update s).2.all = xs ++ s :: ys ∧ s ∉ xs ∧ s ∉ ys := by
      have hnodup : (f.update s).2.all.Nodup := List.Nodup.of_map _ hstair.nodup
      obtain ⟨xs, ys, hall⟩ := List.append_of_mem hmem
      rw [hall, List.nodup_middle, List.nodup_cons, List.mem_append, not_or] at hnodup
      exact ⟨xs, ys, hall, hnodup.1⟩
    refine ⟨hstair, update_supported f s, update_eps f s, ?_, fun _ => ⟨honce, ?_, ?_⟩, hagain⟩
    · intro hrefused
      rw [htaken] at hrefused
      cases hrefused
    · exact fun e he hne => (hfrom e he).resolve_left hne
    · exact fun e he hgone => (hkept e he).resolve_left hgone

/-- A solution near the last two steps of three takes the place of the one that it
strictly dominates and sweeps the other, which is lower in the second objective. -/
theorem update_step_nearTie :
    let f : Frontier ℚ :=
      { all := [⟨⟨0, 4⟩, true, []⟩, ⟨⟨1, 2⟩, false, []⟩, ⟨⟨5 / 4, 3 / 4⟩, true, []⟩], eps := 1 / 2 }
    let s : Solution ℚ := ⟨⟨3 / 4, 1⟩, false, []⟩
    0 ≤ f.eps ∧ Staircase f.points ∧ (f.update s).1 = true ∧
      (f.update s).2.points = [⟨0, 4⟩, ⟨3 / 4, 1⟩] ∧ Staircase (f.update s).2.points ∧
      Solution.covers (1 / 2) s ⟨⟨5 / 4, 3 / 4⟩, true, []⟩ = true ∧
      ((f.update s).2.update s).1 = false := by
  intro f s
  have h0 : 0 ≤ f.eps := by norm_num [f]
  have hf : Staircase f.points := by
    norm_num [f, points, Staircase, Descends]
  obtain ⟨hstair, -, -, -, htaken, hagain⟩ := update_step h0 hf s
  have hchanged : (f.update s).1 = true := by decide +kernel
  have hall : (f.update s).2.all = [⟨⟨0, 4⟩, true, []⟩, s] := by decide +kernel
  refine ⟨h0, hf, hchanged, ?_, hstair, ?_, congrArg Prod.fst hagain⟩
  · rw [points, hall]
    rfl
  · refine (htaken hchanged).2.2 _ (by simp [f]) ?_
    rw [hall]
    simp [s]

end Frontier

instance (y z : Point ℚ) : Decidable (WeaklyDominates y z) := inferInstanceAs (Decidable (_ ∧ _))

/-- The points of a list that no other point of it weakly dominates, each once, by
ascending first objective. -/
def nondominated (l : List (Point ℚ)) : List (Point ℚ) :=
  (l.dedup.filter fun z => ∀ y ∈ l, WeaklyDominates y z → y = z).mergeSort fun y z => y.z1 ≤ z.z1

theorem mem_nondominated_iff {l : List (Point ℚ)} {z : Point ℚ} :
    z ∈ nondominated l ↔ z ∈ l ∧ ∀ y ∈ l, WeaklyDominates y z → y = z := by
  rw [nondominated, List.mem_mergeSort, List.mem_filter, List.mem_dedup, decide_eq_true_eq]

theorem staircase_nondominated (l : List (Point ℚ)) : Staircase (nondominated l) := by
  refine Staircase.mergeSort (((List.nodup_dedup l).filter _).imp_of_mem fun {y z} hy hz hne => ?_)
  simp only [List.mem_filter, List.mem_dedup, decide_eq_true_eq] at hy hz
  obtain ⟨hyl, hymin⟩ := hy
  obtain ⟨hzl, hzmin⟩ := hz
  rcases lt_or_ge y.z1 z.z1 with h1 | h1
  · refine Or.inl ⟨h1, lt_of_not_ge fun h2 => hne (hzmin y hyl ⟨h1.le, h2⟩)⟩
  · have h2 : y.z2 < z.z2 := lt_of_not_ge fun h2 => hne (hymin z hzl ⟨h1, h2⟩).symm
    exact Or.inr ⟨lt_of_not_ge fun h1' => hne (hzmin y hyl ⟨h1', h2.le⟩), h2⟩

theorem nondominated_perm {l l' : List (Point ℚ)} (h : l.Perm l') :
    nondominated l = nondominated l' := by
  refine (staircase_nondominated l).eq_of_mem_iff (staircase_nondominated l') fun z => ?_
  simp only [mem_nondominated_iff, h.mem_iff]

/-- The solution is the first one of the list with its point, and no solution of the
list beats it. -/
structure Represents (l : List (Solution ℚ)) (s : Solution ℚ) : Prop where
  find_eq : l.find? (fun t => t.toPoint = s.toPoint) = some s
  not_beats : ∀ t ∈ l, ¬t.Beats s

/-- The non-dominated points of a list of solutions, each with the first solution of the
list that has it. -/
def representatives (l : List (Solution ℚ)) : List (Solution ℚ) :=
  (nondominated (l.map (·.toPoint))).filterMap fun z => l.find? fun t => t.toPoint = z

theorem mem_representatives_iff {l : List (Solution ℚ)} {s : Solution ℚ} :
    s ∈ representatives l ↔ Represents l s := by
  have hmin : ∀ z, (∀ y ∈ l.map (·.toPoint), WeaklyDominates y z → y = z) ↔
      ∀ t ∈ l, WeaklyDominates t.toPoint z → t.toPoint = z := by
    intro z
    rw [List.forall_mem_map]
  rw [representatives, List.mem_filterMap]
  constructor
  · rintro ⟨z, hz, hfind⟩
    have hpoint : s.toPoint = z := by simpa using List.find?_some hfind
    subst hpoint
    refine ⟨hfind, fun t ht hbeats => hbeats.2 ?_⟩
    exact (hmin _).1 (mem_nondominated_iff.1 hz).2 t ht hbeats.1
  · rintro ⟨hfind, hbeats⟩
    refine ⟨s.toPoint, mem_nondominated_iff.2 ⟨?_, (hmin _).2 fun t ht hts => ?_⟩, hfind⟩
    · exact List.mem_map_of_mem (List.mem_of_find?_eq_some hfind)
    · by_contra hne
      exact hbeats t ht ⟨hts, hne⟩

theorem map_toPoint_representatives (l : List (Solution ℚ)) :
    (representatives l).map (·.toPoint) = nondominated (l.map (·.toPoint)) := by
  have hfind : ∀ z ∈ nondominated (l.map (·.toPoint)),
      ((l.find? fun t => t.toPoint = z).map (·.toPoint)) = some z := by
    intro z hz
    obtain ⟨s, hs, rfl⟩ := List.mem_map.1 (mem_nondominated_iff.1 hz).1
    have hsome : (l.find? fun t => t.toPoint = s.toPoint).isSome = true :=
      List.find?_isSome.2 ⟨s, hs, decide_eq_true rfl⟩
    obtain ⟨t, ht⟩ := Option.isSome_iff_exists.1 hsome
    have hpoint : t.toPoint = s.toPoint := by simpa using List.find?_some ht
    rw [ht, Option.map_some, hpoint]
  rw [representatives, List.map_filterMap, List.filterMap_congr hfind, List.filterMap_some]

/-- One more solution represents its point if nothing before weakly dominates it, and what
was represented stays so unless it is beaten. -/
theorem represents_concat_iff {l : List (Solution ℚ)} {s e : Solution ℚ} :
    Represents (l ++ [s]) e ↔
      (Represents l e ∧ ¬s.Beats e) ∨
      (e = s ∧ ¬∃ t ∈ l, WeaklyDominates t.toPoint s.toPoint) := by
  constructor
  · rintro ⟨hfind, hbeats⟩
    have hbeats' : ∀ t ∈ l, ¬t.Beats e := fun t ht => hbeats t (List.mem_append_left _ ht)
    rw [List.find?_append] at hfind
    cases hl : l.find? (fun t => t.toPoint = e.toPoint) with
    | some d =>
        rw [hl, Option.some_or, Option.some.injEq] at hfind
        subst hfind
        exact Or.inl ⟨⟨hl, hbeats'⟩, hbeats s (List.mem_append_right _ (List.mem_singleton_self s))⟩
    | none =>
        rw [hl, Option.none_or] at hfind
        have heq : e = s := List.mem_singleton.1 (List.mem_of_find?_eq_some hfind)
        subst heq
        refine Or.inr ⟨rfl, ?_⟩
        rintro ⟨t, ht, hts⟩
        refine hbeats' t ht ⟨hts, fun hpoint => ?_⟩
        exact List.find?_eq_none.1 hl t ht (decide_eq_true hpoint)
  · rintro (⟨⟨hfind, hbeats⟩, hs⟩ | ⟨rfl, hnone⟩)
    · refine ⟨by rw [List.find?_append, hfind, Option.some_or], fun t ht => ?_⟩
      rcases List.mem_append.1 ht with ht | ht
      · exact hbeats t ht
      · rw [List.mem_singleton.1 ht]
        exact hs
    · have hnew : l.find? (fun t => t.toPoint = e.toPoint) = none := by
        refine List.find?_eq_none.2 fun t ht hpoint => hnone ⟨t, ht, ?_⟩
        rw [of_decide_eq_true hpoint]
        exact ⟨le_rfl, le_rfl⟩
      refine ⟨by simp [List.find?_append, hnew], fun t ht hbeats => ?_⟩
      rcases List.mem_append.1 ht with ht | ht
      · exact hnone ⟨t, ht, hbeats.1⟩
      · rw [List.mem_singleton.1 ht] at hbeats
        exact hbeats.2 rfl

/-- The values of each objective are equal or farther apart than the tolerance. -/
structure Separated (eps : ℚ) (l : List (Solution ℚ)) : Prop where
  z1 : ∀ s ∈ l, ∀ t ∈ l, s.z1 = t.z1 ∨ eps < |s.z1 - t.z1|
  z2 : ∀ s ∈ l, ∀ t ∈ l, s.z2 = t.z2 ∨ eps < |s.z2 - t.z2|

namespace Separated

theorem perm {eps : ℚ} {l l' : List (Solution ℚ)} (h : Separated eps l) (hperm : l.Perm l') :
    Separated eps l' :=
  ⟨fun s hs t ht => h.z1 s (hperm.mem_iff.2 hs) t (hperm.mem_iff.2 ht),
    fun s hs t ht => h.z2 s (hperm.mem_iff.2 hs) t (hperm.mem_iff.2 ht)⟩

theorem le_of_sub_le {eps x y : ℚ} (h : x = y ∨ eps < |x - y|) (hle : x - eps ≤ y) : x ≤ y := by
  rcases h with rfl | hapart
  · exact le_rfl
  · by_contra hlt
    rw [abs_of_pos (by linarith)] at hapart
    linarith

theorem sharp {eps : ℚ} (h0 : 0 ≤ eps) {l : List (Solution ℚ)} (h : Separated eps l) :
    Solution.Sharp eps (· ∈ l) := by
  refine ⟨h0, fun s t hs ht hcovers => ?_⟩
  simp only [Solution.covers, Bool.and_eq_true, decide_eq_true_eq] at hcovers
  exact ⟨le_of_sub_le (h.z1 s hs t ht) hcovers.1, le_of_sub_le (h.z2 s hs t ht) hcovers.2⟩

theorem eq_or_lt_of_whole {eps x y : ℚ} (h1 : eps < 1) (hx : IsWhole x) (hy : IsWhole y) :
    x = y ∨ eps < |x - y| := by
  rcases lt_trichotomy x y with hlt | heq | hlt
  · have hstep := hx.add_one_le_of_lt hy hlt
    exact Or.inr (lt_abs.2 (Or.inr (by linarith)))
  · exact Or.inl heq
  · have hstep := hy.add_one_le_of_lt hx hlt
    exact Or.inr (lt_abs.2 (Or.inl (by linarith)))

/-- Whole points are separated by every tolerance below one. -/
theorem of_whole {eps : ℚ} (h1 : eps < 1) {l : List (Solution ℚ)}
    (h : ∀ s ∈ l, s.toPoint.Whole) : Separated eps l :=
  ⟨fun s hs t ht => eq_or_lt_of_whole h1 (h s hs).z1 (h t ht).z1,
    fun s hs t ht => eq_or_lt_of_whole h1 (h s hs).z2 (h t ht).z2⟩

end Separated

namespace Frontier

/-- Inserts solutions one after the other. -/
def updateAll (f : Frontier ℚ) (l : List (Solution ℚ)) : Frontier ℚ :=
  l.foldl (fun f s => (f.update s).2) f

theorem updateAll_all (f : Frontier ℚ) (l : List (Solution ℚ)) :
    (f.updateAll l).all = l.foldl (absorb f.eps) f.all := by
  induction l generalizing f with
  | nil => rfl
  | cons s l ih =>
      have hrest := ih (f.update s).2
      rw [update_eps, update_all] at hrest
      exact hrest

/-- Insertions among which the tolerance decides nothing retain what represents them, and
what is retained weakly dominates as much as all of them. -/
theorem foldl_absorb_spec {eps : ℚ} {P : Solution ℚ → Prop} (hsharp : Solution.Sharp eps P)
    {l : List (Solution ℚ)} (hl : ∀ s ∈ l, P s) :
    Stairs P (l.foldl (absorb eps) []) ∧
      (∀ e, e ∈ l.foldl (absorb eps) [] ↔ Represents l e) ∧
      ∀ z, (∃ d ∈ l.foldl (absorb eps) [], WeaklyDominates d.toPoint z) ↔
        ∃ t ∈ l, WeaklyDominates t.toPoint z := by
  induction l using List.reverseRecOn with
  | nil =>
      refine ⟨⟨List.Pairwise.nil, fun s hs => absurd hs List.not_mem_nil⟩, fun e => ?_, by simp⟩
      refine ⟨fun he => absurd he List.not_mem_nil, fun he => ?_⟩
      exact absurd (List.mem_of_find?_eq_some he.find_eq) List.not_mem_nil
  | append_singleton l s ih =>
      obtain ⟨hstairs, hmem, hdom⟩ := ih fun t ht => hl t (List.mem_append_left _ ht)
      have hs : P s := hl s (List.mem_append_right _ (List.mem_singleton_self s))
      rw [List.foldl_append, List.foldl_cons, List.foldl_nil]
      refine ⟨stairs_absorb hsharp hstairs hs, fun e => ?_, fun z => ?_⟩
      · rw [mem_absorb_iff hsharp hstairs hs, hmem, hdom, represents_concat_iff]
      · rw [exists_mem_absorb_iff hsharp hstairs hs, hdom]
        simp only [List.mem_append, List.mem_singleton, or_and_right, exists_or, exists_eq_left]

/-- Insertions into an empty frontier of solutions whose values are equal or farther apart
than the tolerance retain the first solution of each non-dominated point, by ascending first
objective. The points do not depend on the order of the insertions. -/
theorem updateAll_eq {eps : ℚ} (h0 : 0 ≤ eps) {l : List (Solution ℚ)} (hl : Separated eps l) :
    ((empty eps).updateAll l).all = representatives l ∧
      ((empty eps).updateAll l).points = nondominated (l.map (·.toPoint)) ∧
      ∀ l', l.Perm l' → ((empty eps).updateAll l').points = ((empty eps).updateAll l).points := by
  have hall : ∀ l, Separated eps l → ((empty eps).updateAll l).all = representatives l := by
    intro l hl
    obtain ⟨hstairs, hmem, -⟩ := foldl_absorb_spec (hl.sharp h0) fun s hs => hs
    have hrepresentatives : Stairs (· ∈ l) (representatives l) := by
      refine ⟨?_, fun s hs => List.mem_of_find?_eq_some (mem_representatives_iff.1 hs).find_eq⟩
      rw [← List.pairwise_map (f := Solution.toPoint), map_toPoint_representatives]
      exact staircase_nondominated _
    rw [updateAll_all]
    refine hstairs.eq_of_mem_iff hrepresentatives fun e => ?_
    rw [mem_representatives_iff]
    exact hmem e
  have hpoints : ∀ l, Separated eps l →
      ((empty eps).updateAll l).points = nondominated (l.map (·.toPoint)) := by
    intro l hl
    rw [points, hall l hl, map_toPoint_representatives]
  refine ⟨hall l hl, hpoints l hl, fun l' hperm => ?_⟩
  rw [hpoints l hl, hpoints l' (hl.perm hperm), nondominated_perm (hperm.map _)]

/-- Six solutions with a dominated point, a point that comes twice and one that displaces
two others. -/
theorem updateAll_eq_six :
    let l : List (Solution ℚ) :=
      [⟨⟨3, 4⟩, false, [1]⟩, ⟨⟨1, 6⟩, false, []⟩, ⟨⟨4, 3⟩, true, []⟩, ⟨⟨3, 3⟩, false, [0]⟩,
        ⟨⟨1, 6⟩, true, [1]⟩, ⟨⟨5, 3⟩, false, []⟩]
    0 ≤ (1 / 2 : ℚ) ∧ Separated (1 / 2) l ∧
      ((empty (1 / 2)).updateAll l).all = [⟨⟨1, 6⟩, false, []⟩, ⟨⟨3, 3⟩, false, [0]⟩] ∧
      representatives l = [⟨⟨1, 6⟩, false, []⟩, ⟨⟨3, 3⟩, false, [0]⟩] ∧
      ((empty (1 / 2)).updateAll l.reverse).points = [⟨1, 6⟩, ⟨3, 3⟩] := by
  intro l
  have h0 : 0 ≤ (1 / 2 : ℚ) := by norm_num
  have hl : Separated (1 / 2) l := by
    refine Separated.of_whole (by norm_num) fun s hs => ?_
    simp only [l, List.mem_cons, List.not_mem_nil, or_false] at hs
    rcases hs with rfl | rfl | rfl | rfl | rfl | rfl
    · exact ⟨⟨3, by norm_num⟩, ⟨4, by norm_num⟩⟩
    · exact ⟨⟨1, by norm_num⟩, ⟨6, by norm_num⟩⟩
    · exact ⟨⟨4, by norm_num⟩, ⟨3, by norm_num⟩⟩
    · exact ⟨⟨3, by norm_num⟩, ⟨3, by norm_num⟩⟩
    · exact ⟨⟨1, by norm_num⟩, ⟨6, by norm_num⟩⟩
    · exact ⟨⟨5, by norm_num⟩, ⟨3, by norm_num⟩⟩
  obtain ⟨hrepresentatives, -, hperm⟩ := updateAll_eq h0 hl
  have hall : ((empty (1 / 2)).updateAll l).all =
      [⟨⟨1, 6⟩, false, []⟩, ⟨⟨3, 3⟩, false, [0]⟩] := by decide +kernel
  refine ⟨h0, hl, hall, hrepresentatives.symm.trans hall, ?_⟩
  rw [hperm _ (List.reverse_perm l).symm, points, hall]
  rfl

end Frontier

end Biobjective
