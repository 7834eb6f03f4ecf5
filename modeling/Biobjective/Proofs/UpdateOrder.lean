import Biobjective.Proofs.SoundFrontier

/-!
# The order of insertions

The tolerance decides nothing among solutions of which each weakly dominates
what it covers; whole points are so for a tolerance below one. On a staircase of
such solutions an insertion keeps the members that the new solution does not
beat, and it takes the new solution in unless a member weakly dominates it. Both
conditions are about points only, so two insertions with different points can be
exchanged, and a list of insertions with pairwise different points leaves the
same staircase in any order, down to the marks and the assignments.
-/

namespace Biobjective

/-- The retained solutions descend and are of a kind. -/
structure Stairs (P : Solution ℚ → Prop) (all : List (Solution ℚ)) : Prop where
  descends : all.Pairwise fun a b => Descends a.toPoint b.toPoint
  mem : ∀ s ∈ all, P s

/-- The retained solutions descend and have whole points. -/
abbrev WholeStairs (all : List (Solution ℚ)) : Prop := Stairs (fun s => s.toPoint.Whole) all

theorem Stairs.eq_of_weaklyDominates {P : Solution ℚ → Prop} {all : List (Solution ℚ)}
    (h : Stairs P all) {d e : Solution ℚ} (hd : d ∈ all) (he : e ∈ all)
    (hde : WeaklyDominates d.toPoint e.toPoint) : d.toPoint = e.toPoint :=
  Staircase.eq_of_weaklyDominates (List.pairwise_map.2 h.descends) (List.mem_map_of_mem hd)
    (List.mem_map_of_mem he) hde

/-- Descending solutions are fixed by the set of them. -/
theorem Stairs.eq_of_mem_iff {P : Solution ℚ → Prop} {all all' : List (Solution ℚ)}
    (h : Stairs P all) (h' : Stairs P all') (hmem : ∀ e, e ∈ all ↔ e ∈ all') : all = all' := by
  have hne : ∀ a b : Solution ℚ, Descends a.toPoint b.toPoint → a ≠ b := by
    intro a b hab heq
    exact hab.ne (congrArg Solution.toPoint heq)
  have hperm : all.Perm all' := (List.perm_ext_iff_of_nodup (h.descends.imp (hne _ _))
    (h'.descends.imp (hne _ _))).2 hmem
  refine hperm.eq_of_pairwise (fun a b _ _ hab hba => ?_) h.descends h'.descends
  exact absurd (hab.1.trans hba.1) (lt_irrefl _)

namespace Solution

/-- The solution `s` weakly dominates `e`, and their points differ. -/
def Beats (s e : Solution ℚ) : Prop :=
  WeaklyDominates s.toPoint e.toPoint ∧ s.toPoint ≠ e.toPoint

/-- Among solutions of this kind the tolerance decides nothing. -/
structure Sharp (eps : ℚ) (P : Solution ℚ → Prop) : Prop where
  eps_nonneg : 0 ≤ eps
  weaklyDominates : ∀ s t, P s → P t → covers eps s t = true →
    WeaklyDominates s.toPoint t.toPoint

theorem sharp_whole {eps : ℚ} (h0 : 0 ≤ eps) (h1 : eps < 1) :
    Sharp eps fun s => s.toPoint.Whole :=
  ⟨h0, fun _ _ hs ht h => (covers_iff_of_whole h0 h1 hs.z1 hs.z2 ht.z1 ht.z2).1 h⟩

end Solution

namespace Frontier

/-- The retained solutions after an insertion. -/
def absorb (eps : ℚ) (all : List (Solution ℚ)) (s : Solution ℚ) : List (Solution ℚ) :=
  (({ all, eps } : Frontier ℚ).update s).2.all

theorem update_all (f : Frontier ℚ) (s : Solution ℚ) :
    (f.update s).2.all = absorb f.eps f.all s := by
  rw [absorb, update, update]
  by_cases hempty : f.all.isEmpty = true
  · simp only [hempty, if_true]
  · simp only [hempty]
    cases place f.eps s f.all with
    | covered => rfl
    | replaced all => rfl
    | unmatched => rfl

/-- A member that weakly dominates the new solution turns it away: no member
before it is strictly dominated. -/
theorem update_of_weaklyDominates {f : Frontier ℚ} (h0 : 0 ≤ f.eps) (hf : Staircase f.points)
    {s : Solution ℚ} (h : ∃ e ∈ f.all, WeaklyDominates e.toPoint s.toPoint) :
    f.update s = (false, f) := by
  obtain ⟨e, he, hes⟩ := h
  have hnot : ¬Solution.Passes f.eps s e := fun hpass => by
    cases hpass.not_covers.symm.trans (Solution.covers_of_weaklyDominates h0 hes)
  rcases f.update_place s with
    ⟨hrefused, -⟩ | ⟨-, ⟨xs, d, ys, hall, hpass, hd, -⟩ | ⟨hpass, -⟩⟩
  · exact hrefused
  · -- Were `d` dropped for `s`, the member that dominates `s` would dominate `d` too.
    have hd' : d ∈ f.all := by simp [hall]
    have hsd := Solution.weaklyDominates_of_strictlyDominates hd
    have hed := hf.eq_of_weaklyDominates (mem_points he) (mem_points hd') (hes.trans hsd)
    rw [hed] at hes
    rcases (Solution.strictlyDominates_iff s d).1 hd with h | h
    · exact absurd hes.1 (not_le.2 h.1)
    · exact absurd hes.2 (not_le.2 h.2)
  · exact absurd (hpass e he) hnot

section Sharp

variable {eps : ℚ} {P : Solution ℚ → Prop} (hsharp : Solution.Sharp eps P)

include hsharp

theorem absorb_of_weaklyDominates {all : List (Solution ℚ)} (hall : Stairs P all)
    {s : Solution ℚ} (h : ∃ d ∈ all, WeaklyDominates d.toPoint s.toPoint) :
    absorb eps all s = all := by
  have hstair : Staircase ({ all, eps } : Frontier ℚ).points := List.pairwise_map.2 hall.descends
  rw [absorb, update_of_weaklyDominates hsharp.eps_nonneg hstair h]

/-- What an insertion that is not turned away leaves. -/
theorem absorb_of_not_weaklyDominates {all : List (Solution ℚ)} (hall : Stairs P all)
    {s : Solution ℚ} (hs : P s) (h : ¬∃ d ∈ all, WeaklyDominates d.toPoint s.toPoint) :
    Stairs P (absorb eps all s) ∧ s ∈ absorb eps all s ∧
      (∀ e ∈ absorb eps all s, e = s ∨ e ∈ all) ∧
      ∀ e ∈ all, e ∈ absorb eps all s ∨ WeaklyDominates s.toPoint e.toPoint := by
  have hstair : Staircase ({ all, eps } : Frontier ℚ).points := List.pairwise_map.2 hall.descends
  rcases update_cases hsharp.eps_nonneg hstair s with
    ⟨-, d, hd, hcovers⟩ | ⟨-, hstair', hmem, hfrom, hkept⟩
  · exact absurd ⟨d, hd, hsharp.weaklyDominates d s (hall.mem d hd) hs hcovers⟩ h
  · refine ⟨⟨List.pairwise_map.1 hstair', fun e he => ?_⟩, hmem, hfrom, fun e he => ?_⟩
    · rcases hfrom e he with rfl | he
      · exact hs
      · exact hall.mem e he
    · refine (hkept e he).imp_right fun hcovers => ?_
      exact hsharp.weaklyDominates s e hs (hall.mem e he) hcovers

theorem stairs_absorb {all : List (Solution ℚ)} (hall : Stairs P all) {s : Solution ℚ}
    (hs : P s) : Stairs P (absorb eps all s) := by
  by_cases h : ∃ d ∈ all, WeaklyDominates d.toPoint s.toPoint
  · rw [absorb_of_weaklyDominates hsharp hall h]
    exact hall
  · exact (absorb_of_not_weaklyDominates hsharp hall hs h).1

/-- An insertion keeps what the new solution does not beat, and takes it in unless
it is dominated. -/
theorem mem_absorb_iff {all : List (Solution ℚ)} (hall : Stairs P all) {s : Solution ℚ}
    (hs : P s) {e : Solution ℚ} :
    e ∈ absorb eps all s ↔ (e ∈ all ∧ ¬s.Beats e) ∨
      (e = s ∧ ¬∃ d ∈ all, WeaklyDominates d.toPoint s.toPoint) := by
  by_cases h : ∃ d ∈ all, WeaklyDominates d.toPoint s.toPoint
  · rw [absorb_of_weaklyDominates hsharp hall h]
    obtain ⟨d, hd, hds⟩ := h
    constructor
    · intro he
      refine Or.inl ⟨he, fun hbeats => hbeats.2 ?_⟩
      have hde := hall.eq_of_weaklyDominates hd he (hds.trans hbeats.1)
      rw [hde] at hds
      exact hbeats.1.antisymm hds
    · rintro (⟨he, -⟩ | ⟨-, hnot⟩)
      · exact he
      · exact absurd ⟨d, hd, hds⟩ hnot
  · obtain ⟨hstairs, hmem, hfrom, hkept⟩ := absorb_of_not_weaklyDominates hsharp hall hs h
    constructor
    · intro he
      rcases hfrom e he with rfl | hall'
      · exact Or.inr ⟨rfl, h⟩
      · exact Or.inl ⟨hall', fun hbeats =>
          hbeats.2 (hstairs.eq_of_weaklyDominates hmem he hbeats.1)⟩
    · rintro (⟨he, hbeats⟩ | ⟨rfl, -⟩)
      · rcases hkept e he with hkept | hse
        · exact hkept
        · have heq : s.toPoint = e.toPoint := by
            by_contra hne
            exact hbeats ⟨hse, hne⟩
          exact absurd ⟨e, he, heq ▸ ⟨le_rfl, le_rfl⟩⟩ h
      · exact hmem

/-- What the retained solutions dominate grows by what the new one dominates. -/
theorem exists_mem_absorb_iff {all : List (Solution ℚ)} (hall : Stairs P all)
    {s : Solution ℚ} (hs : P s) (z : Point ℚ) :
    (∃ d ∈ absorb eps all s, WeaklyDominates d.toPoint z) ↔
      (∃ d ∈ all, WeaklyDominates d.toPoint z) ∨ WeaklyDominates s.toPoint z := by
  have hmem := fun e => mem_absorb_iff (e := e) hsharp hall hs
  constructor
  · rintro ⟨d, hd, hdz⟩
    rcases (hmem d).1 hd with ⟨hd, -⟩ | ⟨rfl, -⟩
    · exact Or.inl ⟨d, hd, hdz⟩
    · exact Or.inr hdz
  · rintro (⟨d, hd, hdz⟩ | hsz)
    · by_cases hbeats : s.Beats d
      · refine ⟨s, (hmem s).2 (Or.inr ⟨rfl, ?_⟩), hbeats.1.trans hdz⟩
        rintro ⟨e, he, hes⟩
        have hed := hall.eq_of_weaklyDominates he hd (hes.trans hbeats.1)
        rw [hed] at hes
        exact hbeats.2 (hbeats.1.antisymm hes)
      · exact ⟨d, (hmem d).2 (Or.inl ⟨hd, hbeats⟩), hdz⟩
    · by_cases h : ∃ d ∈ all, WeaklyDominates d.toPoint s.toPoint
      · obtain ⟨d, hd, hds⟩ := h
        exact ⟨d, (hmem d).2 (Or.inl ⟨hd, fun hbeats => hbeats.2 (hbeats.1.antisymm hds)⟩),
          hds.trans hsz⟩
      · exact ⟨s, (hmem s).2 (Or.inr ⟨rfl, h⟩), hsz⟩

theorem mem_absorb_absorb_iff {all : List (Solution ℚ)} (hall : Stairs P all)
    {s t : Solution ℚ} (hs : P s) (ht : P t)
    (hne : s.toPoint ≠ t.toPoint) {e : Solution ℚ} :
    e ∈ absorb eps (absorb eps all s) t ↔
      (e ∈ all ∧ ¬s.Beats e ∧ ¬t.Beats e) ∨
      (e = s ∧ (¬∃ d ∈ all, WeaklyDominates d.toPoint s.toPoint) ∧ ¬t.Beats s) ∨
      (e = t ∧ (¬∃ d ∈ all, WeaklyDominates d.toPoint t.toPoint) ∧ ¬s.Beats t) := by
  have hbeats : s.Beats t ↔ WeaklyDominates s.toPoint t.toPoint := and_iff_left hne
  rw [mem_absorb_iff hsharp (stairs_absorb hsharp hall hs) ht, mem_absorb_iff hsharp hall hs,
    exists_mem_absorb_iff hsharp hall hs, not_or, hbeats]
  constructor
  · rintro (⟨⟨he, h1⟩ | ⟨rfl, h1⟩, h2⟩ | h)
    · exact Or.inl ⟨he, h1, h2⟩
    · exact Or.inr (Or.inl ⟨rfl, h1, h2⟩)
    · exact Or.inr (Or.inr h)
  · rintro (⟨he, h1, h2⟩ | ⟨rfl, h1, h2⟩ | h)
    · exact Or.inl ⟨Or.inl ⟨he, h1⟩, h2⟩
    · exact Or.inl ⟨Or.inr ⟨rfl, h1⟩, h2⟩
    · exact Or.inr h

theorem absorb_comm {all : List (Solution ℚ)} (hall : Stairs P all) {s t : Solution ℚ}
    (hs : P s) (ht : P t) (hne : s.toPoint ≠ t.toPoint) :
    absorb eps (absorb eps all s) t = absorb eps (absorb eps all t) s := by
  have hst := stairs_absorb hsharp (stairs_absorb hsharp hall hs) ht
  have hts := stairs_absorb hsharp (stairs_absorb hsharp hall ht) hs
  refine hst.eq_of_mem_iff hts fun e => ?_
  rw [mem_absorb_absorb_iff hsharp hall hs ht hne, mem_absorb_absorb_iff hsharp hall ht hs hne.symm,
    and_comm (a := ¬s.Beats e)]
  exact or_congr_right or_comm

/-- Insertions with pairwise different points can be made in any order. -/
theorem foldl_absorb_perm {l l' : List (Solution ℚ)} (hperm : l.Perm l')
    (hP : ∀ s ∈ l, P s) (hne : l.Pairwise fun s t => s.toPoint ≠ t.toPoint)
    {all : List (Solution ℚ)} (hall : Stairs P all) :
    l.foldl (absorb eps) all = l'.foldl (absorb eps) all := by
  induction hperm generalizing all with
  | nil => rfl
  | cons s _ ih =>
      rw [List.foldl_cons, List.foldl_cons]
      exact ih (fun t ht => hP t (List.mem_cons_of_mem _ ht)) (List.pairwise_cons.1 hne).2
        (stairs_absorb hsharp hall (hP s List.mem_cons_self))
  | swap s t l =>
      have hts := (List.pairwise_cons.1 hne).1 s List.mem_cons_self
      simp only [List.foldl_cons]
      rw [absorb_comm hsharp hall (hP t List.mem_cons_self)
        (hP s (List.mem_cons_of_mem _ List.mem_cons_self)) hts]
  | trans hperm _ ih ih' =>
      rw [ih hP hne hall, ih' (fun s hs => hP s (hperm.mem_iff.2 hs))
        (hne.perm hperm fun h => h.symm) hall]

end Sharp

end Frontier

end Biobjective
