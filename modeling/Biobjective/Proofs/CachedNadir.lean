import Biobjective.Frontier
import Biobjective.Proofs.Comparison

/-!
# The cached nadir

A frontier caches the largest nadir sum of its gaps. Not every operation brings the cache up to
date: the first insertion into an empty frontier leaves it as it is, and relies on whatever emptied
the frontier to have left it absent. The equation `f.worstNadir? = worstNadirOf? f.all` holds at
the beginning, and each operation keeps it. Hence it holds after any sequence of operations, for
any tolerance and any coordinates, infinities and what is no number included. The main result is
`Frontier.worstNadir?_current`.
-/

namespace Biobjective

namespace Frontier

/-- An operation on a frontier. -/
inductive Change (K : Type) where
  | update (s : Solution K)
  | insertSupported (s : Solution K)
  | retainSupported

variable {K : Type} [Scalar K]

def change (f : Frontier K) : Change K → Frontier K
  | .update s => (f.update s).2
  | .insertSupported s => f.insertSupported s
  | .retainSupported => f.retainSupported

/-- The frontier after some operations, one after the other. -/
def changeAll (f : Frontier K) (changes : List (Change K)) : Frontier K :=
  changes.foldl change f

/-- The nadir sums of the gaps of a list: the first objective of the right end and the second
objective of the left end. -/
def nadirSums (all : List (Solution K)) : List K :=
  (neighbours all).map fun ab => ab.2.z1 + ab.1.z2

theorem worstNadirOf?_eq_none_iff {all : List (Solution K)} :
    worstNadirOf? all = none ↔ all.length < 2 := by
  have hlength := length_neighbours all
  rw [worstNadirOf?]
  cases hgaps : neighbours all with
  | nil =>
      rw [hgaps, List.length_nil] at hlength
      simp only [true_iff]
      omega
  | cons ab gaps =>
      rw [hgaps, List.length_cons] at hlength
      simp only [reduceCtorEq, false_iff]
      omega

theorem isLargest_of_worstNadirOf?_eq_some [Scalar.Ordered K] {all : List (Solution K)} {worst : K}
    (h : worstNadirOf? all = some worst) : Scalar.IsLargest worst (nadirSums all) := by
  rw [worstNadirOf?] at h
  rw [nadirSums]
  cases hgaps : neighbours all with
  | nil =>
      rw [hgaps] at h
      cases h
  | cons ab gaps =>
      rw [hgaps] at h
      rw [← Option.some.inj h, List.map_cons]
      have hlargest := Scalar.isLargest_foldl_larger (ab.2.z1 + ab.1.z2)
        (gaps.map fun cd => cd.2.z1 + cd.1.z2)
      rwa [List.foldl_map] at hlargest

theorem worstNadir?_update {f : Frontier K} (h : f.worstNadir? = worstNadirOf? f.all)
    (s : Solution K) : (f.update s).2.worstNadir? = worstNadirOf? (f.update s).2.all := by
  rw [update]
  split
  -- The cache of an empty frontier is empty, as that of a single solution has to be.
  · rename_i hempty
    rw [List.isEmpty_iff.1 hempty] at h
    exact h
  · split
    · exact h
    · rfl
    · rfl

theorem worstNadir?_change {f : Frontier K} (h : f.worstNadir? = worstNadirOf? f.all)
    (c : Change K) : (f.change c).worstNadir? = worstNadirOf? (f.change c).all := by
  cases c with
  | update s => exact worstNadir?_update h s
  | insertSupported s => exact h
  | retainSupported => rfl

theorem worstNadir?_changeAll {f : Frontier K} (h : f.worstNadir? = worstNadirOf? f.all)
    (changes : List (Change K)) :
    (f.changeAll changes).worstNadir? = worstNadirOf? (f.changeAll changes).all := by
  induction changes generalizing f with
  | nil => exact h
  | cons c changes ih => exact ih (worstNadir?_change h c)

/-- After any operations on an empty frontier there is nothing to bring up to date. The cache is
absent just if fewer than two solutions are retained, and otherwise it is the largest of the nadir
sums. -/
theorem worstNadir?_current [Scalar.Ordered K] (eps : K) (changes : List (Change K)) :
    let f := (empty eps).changeAll changes
    f.withAll f.all = f ∧
      (f.worstNadir? = none ↔ f.all.length < 2) ∧
      ∀ worst, f.worstNadir? = some worst → Scalar.IsLargest worst (nadirSums f.all) := by
  intro f
  have hcurrent : f.worstNadir? = worstNadirOf? f.all := worstNadir?_changeAll rfl changes
  refine ⟨?_, ?_, fun worst hworst => ?_⟩
  · rw [withAll, ← hcurrent]
  · rw [hcurrent]
    exact worstNadirOf?_eq_none_iff
  · rw [hcurrent] at hworst
    exact isLargest_of_worstNadirOf?_eq_some hworst

/-- On doubles: two solutions give way to the supported ones, of which there are none, and a first
insertion follows. Then three supported solutions are retained, and the sum of the second gap is no
number. -/
theorem worstNadir?_current_refilled :
    let inf : Float := 1 / 0
    let changes : List (Change Float) :=
      [.update ⟨⟨0, 10⟩, false, []⟩, .update ⟨⟨10, 0⟩, false, []⟩, .retainSupported,
        .update ⟨⟨3, 4⟩, false, []⟩]
    let later : List (Change Float) :=
      [.insertSupported ⟨⟨inf, 1⟩, true, []⟩, .insertSupported ⟨⟨0, 4⟩, true, []⟩,
        .insertSupported ⟨⟨2, -inf⟩, true, []⟩, .retainSupported]
    ((empty 0.5).changeAll (changes.take 2)).worstNadir? = some 20 ∧
      ((empty 0.5).changeAll changes).worstNadir? = none ∧
      ((empty 0.5).changeAll (changes ++ later)).worstNadir? = some 6 ∧
      Scalar.IsLargest 6 [6, inf - inf] ∧ Scalar.isNumber (inf - inf) = false := by
  intro inf changes later
  have hfirst : ((empty 0.5).changeAll (changes.take 2)).worstNadir? = some 20 := by decide +kernel
  have hsingle : ((empty 0.5).changeAll changes).all.length < 2 := by decide +kernel
  have hlater : ((empty 0.5).changeAll (changes ++ later)).worstNadir? = some 6 := by
    decide +kernel
  have hsums : nadirSums ((empty 0.5).changeAll (changes ++ later)).all = [6, inf - inf] := by
    decide +kernel
  refine ⟨hfirst, (worstNadir?_current 0.5 changes).2.1.2 hsingle, hlater, ?_, by decide +kernel⟩
  rw [← hsums]
  exact (worstNadir?_current 0.5 (changes ++ later)).2.2 6 hlater

end Frontier

end Biobjective
