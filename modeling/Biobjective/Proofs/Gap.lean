import Biobjective.Proofs.SealedRegion

/-!
# Gaps between supported neighbours

Either second phase works on the gaps between neighbours of the chain of
supported points. A gap is closed when all Pareto outcomes strictly inside it
are retained. If the chain runs from one lexicographic minimum to the other,
every Pareto outcome is a member of the chain or lies inside a gap, so a
frontier that retains the chain and closes all gaps has every Pareto outcome.
-/

namespace Biobjective

namespace Frontier

/-- All Pareto outcomes strictly between the two solutions are retained. -/
def Closes (p : Program ℚ) (f : Frontier ℚ) (ab : Solution ℚ × Solution ℚ) : Prop :=
  ∀ z, p.IsPareto z → ab.1.z1 < z.z1 → z.z1 < ab.2.z1 → z ∈ f.points

theorem Extends.closes {p : Program ℚ} {f f' : Frontier ℚ} (h : f.Extends p f')
    {ab : Solution ℚ × Solution ℚ} (hab : f.Closes p ab) : f'.Closes p ab :=
  fun z hz h1 h2 => h.subset z (hab z hz h1 h2)

/-- What a second phase makes of the frontier `f`: it extends it, if complete it
has closed all gaps, and only a hindrance leaves it incomplete. -/
structure Filled (p : Program ℚ) (cfg : Config ℚ) (c : Clock) (limit? : Option ℕ)
    (f : Frontier ℚ) (status : Status) (f' : Frontier ℚ) : Prop where
  extends_from : f.Extends p f'
  closes : status = .completed → ∀ ab ∈ neighbours f.supported, f'.Closes p ab
  completed : Unhindered cfg c limit? → status = .completed

end Frontier

namespace Program.IsPareto

theorem eq_of_z1_eq {p : Program ℚ} {y z : Point ℚ} (hy : p.IsPareto y) (hz : p.IsPareto z)
    (h : y.z1 = z.z1) : y = z := by
  rcases hy.eq_or_descends hz with heq | hdesc | hdesc
  · exact heq
  · exact absurd h hdesc.1.ne
  · exact absurd h hdesc.1.ne'

theorem descends_of_lt {p : Program ℚ} {y z : Point ℚ} (hy : p.IsPareto y) (hz : p.IsPareto z)
    (h : y.z1 < z.z1) : Descends y z := by
  rcases hy.eq_or_descends hz with rfl | hdesc | hdesc
  · exact absurd h (lt_irrefl _)
  · exact hdesc
  · exact absurd h hdesc.1.not_gt

theorem z1_le_of_isLexMin {p : Program ℚ} {z a : Point ℚ} (hz : p.IsPareto z)
    (ha : p.IsLexMin .first a) : a.z1 ≤ z.z1 := by
  rcases ha.lex z hz.mem with hlt | ⟨heq, -⟩
  · exact hlt.le
  · exact heq.le

theorem le_z1_of_isLexMin {p : Program ℚ} {z b : Point ℚ} (hz : p.IsPareto z)
    (hb : p.IsLexMin .second b) : z.z1 ≤ b.z1 := by
  by_contra hlt
  rw [not_le] at hlt
  have hle : b.z2 ≤ z.z2 := by
    rcases hb.lex z hz.mem with hlt' | ⟨heq, -⟩
    · exact hlt'.le
    · exact heq.le
  rw [hz.eq_of_weaklyDominates hb.mem ⟨hlt.le, hle⟩] at hlt
  exact lt_irrefl _ hlt

end Program.IsPareto

/-- A frontier with an anchored chain and all its gaps closed has every Pareto
outcome. -/
theorem Anchored.mem_points {p : Program ℚ} {l : List (Solution ℚ)} (hanchored : Anchored p l)
    (hchain : Chain p l) {f : Frontier ℚ} (hl : ∀ s ∈ l, s.toPoint ∈ f.points)
    (hclosed : ∀ ab ∈ neighbours l, f.Closes p ab) {z : Point ℚ} (hz : p.IsPareto z) :
    z ∈ f.points := by
  obtain ⟨⟨a, hhead, ha⟩, b, hlast, hb⟩ := hanchored
  have hbl : b ∈ l := List.mem_of_getLast? hlast
  obtain ⟨rest, rfl⟩ := List.head?_eq_some_iff.1 hhead
  rcases exists_neighbours_around (fun s => s.z1) (hz.z1_le_of_isLexMin ha)
    ⟨b, hbl, hz.le_z1_of_isLexMin hb⟩ with ⟨s, hs, heq⟩ | ⟨ab, hab, h1, h2⟩
  · rw [← (hchain.supported s hs).isPareto.eq_of_z1_eq hz heq]
    exact hl s hs
  · exact hclosed ab hab z hz h1 h2

end Biobjective
