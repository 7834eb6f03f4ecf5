import Biobjective.Proofs.Attestation
import Biobjective.Proofs.CachedNadir
import Biobjective.Proofs.Span

/-!
# The numbers that a run computes

Weights are differences of outcomes, bounds are outcomes moved by a unit, and both are fed
back into later solves. Still none of them leaves what the outcomes span: a bound is told only
between two outcomes, and a weight is a difference of two. `Run.Computes` lists the numbers
that a run on an enumerator computes from the objectives, and `Run.Holds` the frontiers that
it computes on. With whole objectives all of these numbers are whole and, but for the unit
weights of a program whose objectives are zero, none is larger than `Program.ceiling`. The
main result is `Method.run_magnitudes`.
-/

namespace Biobjective

open Phase

/-- The weights of a directive, or both ends of a range. A cap has one end only. -/
def Directive.numbers : Directive ℚ → List ℚ
  | .weights w => [w.w1, w.w2]
  | .bound _ ⟨some lower, some upper⟩ => [lower, upper]
  | _ => []

namespace Frontier

/-- The numbers that are computed on a frontier: the level of a chord, the nadir sums of the
gaps and the worst of them, and under the weights of a chord the nadirs of the gaps and the
worst of these. -/
inductive Computes (f : Frontier ℚ) : ℚ → Prop
  | level {a b : Solution ℚ} {v : ℚ} (ha : a ∈ f.supported) (hb : b ∈ f.supported)
      (hv : v ∈ (a.chord b).terms a.z1 a.z2) : Computes f v
  | nadir {ab : Solution ℚ × Solution ℚ} (hab : ab ∈ neighbours f.all) :
      Computes f (ab.2.z1 + ab.1.z2)
  | worst {v : ℚ} (hv : f.worstNadir? = some v) : Computes f v
  | corner {lr ab : Solution ℚ × Solution ℚ} {v : ℚ} (hlr : lr ∈ neighbours f.supported)
      (hab : ab ∈ neighbours f.all) (hv : v ∈ (lr.1.chord lr.2).terms ab.2.z1 ab.1.z2) :
      Computes f v
  | bar {lr : Solution ℚ × Solution ℚ} {v : ℚ} (hlr : lr ∈ neighbours f.supported)
      (hv : f.nadirWithin? (lr.1.chord lr.2) lr.1.z1 lr.2.z1 = some v) : Computes f v

/-- The solutions are outcomes, and the cached nadir is up to date. -/
structure Drawn (p : Program ℚ) (f : Frontier ℚ) : Prop where
  members : f.Members fun s => s.toPoint ∈ p.outcomes
  worstNadir?_eq : f.worstNadir? = worstNadirOf? f.all

theorem drawn_empty (p : Program ℚ) (eps : ℚ) : (empty eps).Drawn p :=
  ⟨members_empty _ eps, rfl⟩

namespace Drawn

variable {p : Program ℚ} {f : Frontier ℚ} {s : Solution ℚ}

theorem insertSupported (h : f.Drawn p) (hs : s.toPoint ∈ p.outcomes) :
    (f.insertSupported s).Drawn p :=
  ⟨h.members.insertSupported hs, h.worstNadir?_eq⟩

theorem retainSupported (h : f.Drawn p) : f.retainSupported.Drawn p :=
  ⟨h.members.retainSupported, rfl⟩

theorem update (h : f.Drawn p) (hs : s.toPoint ∈ p.outcomes) : (f.update s).2.Drawn p :=
  ⟨h.members.update hs, worstNadir?_update h.worstNadir?_eq s⟩

theorem fits_gap (h : f.Drawn p) (hp : p.WholeObjectives) {ab : Solution ℚ × Solution ℚ}
    (hab : ab ∈ neighbours f.all) : p.Fits .first ab.2.z1 ∧ p.Fits .second ab.1.z2 :=
  ⟨hp.fits_of_mem_outcomes (h.members.all _ (mem_of_mem_neighbours hab).2) .first,
    hp.fits_of_mem_outcomes (h.members.all _ (mem_of_mem_neighbours hab).1) .second⟩

theorem weighs_gap (h : f.Drawn p) (hp : p.WholeObjectives) {lr : Solution ℚ × Solution ℚ}
    (hlr : lr ∈ neighbours f.supported) : p.Weighs (lr.1.chord lr.2) :=
  hp.weighs_chord (h.members.supported _ (mem_of_mem_neighbours hlr).1)
    (h.members.supported _ (mem_of_mem_neighbours hlr).2)

theorem inRange (h : f.Drawn p) (hp : p.WholeObjectives) {v : ℚ} (hv : f.Computes v) :
    p.InRange v := by
  cases hv with
  | @level a b _ ha hb hv =>
      have hpoint := h.members.supported a ha
      exact (hp.weighs_chord hpoint (h.members.supported b hb)).inRange_terms hp
        (hp.fits_of_mem_outcomes hpoint .first) (hp.fits_of_mem_outcomes hpoint .second) v hv
  | nadir hab =>
      obtain ⟨hx, hy⟩ := h.fits_gap hp hab
      exact hp.inRange_add hx hy
  | worst hv =>
      rw [h.worstNadir?_eq] at hv
      obtain ⟨ab, hab, rfl⟩ := List.mem_map.1 (isLargest_of_worstNadirOf?_eq_some hv).mem
      obtain ⟨hx, hy⟩ := h.fits_gap hp hab
      exact hp.inRange_add hx hy
  | corner hlr hab hv =>
      obtain ⟨hx, hy⟩ := h.fits_gap hp hab
      exact (h.weighs_gap hp hlr).inRange_terms hp hx hy v hv
  | bar hlr hv =>
      obtain ⟨ab, hab, -, -, rfl⟩ := exists_of_nadirWithin?_eq_some hv
      obtain ⟨hx, hy⟩ := h.fits_gap hp hab
      exact (h.weighs_gap hp hlr).inRange_terms hp hx hy _ (by simp [Weights.terms])

end Drawn

end Frontier

/-- A property of the terms that each directive keeps holds at every solve. -/
theorem forall_asked {K : Type} {P : Terms K → Prop} {t : Terms K} {record : List (Exchange K)}
    (ht : P t) (hstep : ∀ d, .told d ∈ record → ∀ t, P t → P (t.follow d)) :
    ∀ q ∈ asked t record, P q.1 := by
  induction record generalizing t with
  | nil => exact fun q hq => absurd hq List.not_mem_nil
  | cons x record ih =>
      have hrest : ∀ d, .told d ∈ record → ∀ t, P t → P (t.follow d) :=
        fun d hd => hstep d (List.mem_cons_of_mem _ hd)
      cases x with
      | told d => exact ih (hstep d List.mem_cons_self t ht) hrest
      | solved a => exact List.forall_mem_cons.2 ⟨ht, ih ht hrest⟩

theorem solved_mem_of_mem_asked {K : Type} {t : Terms K} {record : List (Exchange K)}
    {q : Terms K × Answer K} (hq : q ∈ asked t record) : .solved q.2 ∈ record := by
  induction record generalizing t with
  | nil => cases hq
  | cons x record ih =>
      cases x with
      | told d => exact List.mem_cons_of_mem _ (ih hq)
      | solved a =>
          rcases List.mem_cons.1 hq with rfl | hq
          · exact List.mem_cons_self
          · exact List.mem_cons_of_mem _ (ih hq)

namespace Program

/-- The corners of a box fit, in a program whose objectives both span a unit. -/
structure Encloses (p : Program ℚ) (r : Region ℚ) : Prop where
  lo1 : p.Fits .first r.lo1
  hi1 : p.Fits .first r.hi1
  lo2 : p.Fits .second r.lo2
  hi2 : p.Fits .second r.hi2
  spread : p.Spread

/-- The range is a cap that is not whole, or both of its ends fit. -/
inductive Ranges (p : Program ℚ) (i : Objective) : Interval ℚ → Prop
  | cap {cap : ℚ} (h : ¬IsWhole cap) : Ranges p i ⟨none, some cap⟩
  | between {lo hi : ℚ} (hlo : p.Fits i lo) (hhi : p.Fits i hi) (hspread : p.Spread) :
      Ranges p i (.between lo hi)

/-- What is told on the program. -/
def Tells (p : Program ℚ) : Directive ℚ → Prop
  | .weights w => p.Weighs w
  | .bound i range => p.Ranges i range
  | _ => True

theorem Encloses.ranges {p : Program ℚ} {r : Region ℚ} (h : p.Encloses r) (i : Objective) :
    p.Ranges i (r.range i) := by
  cases i with
  | first => exact .between h.lo1 h.hi1 h.spread
  | second => exact .between h.lo2 h.hi2 h.spread

/-- What remains of a box around an outcome lies between the outcome and the corners. -/
theorem Encloses.split {p : Program ℚ} (hp : p.WholeObjectives) {r : Region ℚ}
    (h : p.Encloses r) {z : Point ℚ} (hz : z ∈ p.outcomes) : ∀ part ∈ r.split z, p.Encloses part := by
  intro part hpart
  have h1 : p.Fits .first z.z1 := hp.fits_of_mem_outcomes hz .first
  have h2 : p.Fits .second z.z2 := hp.fits_of_mem_outcomes hz .second
  rw [Region.split, List.mem_append, Option.mem_toList, Option.mem_toList, Region.upperLeft?,
    Region.lowerRight?] at hpart
  rcases hpart with hpart | hpart
  · obtain ⟨⟨hle1, hle2⟩, hpart⟩ := Option.ite_none_right_eq_some.1 hpart
    cases hpart
    exact ⟨h.lo1, .of_le (h1.whole.sub isWhole_one) h.lo1 h1 hle1 (by simp),
      .of_le (h2.whole.add isWhole_one) h2 h.hi2 (by simp) hle2, h.hi2, h.spread⟩
  · obtain ⟨⟨hle1, hle2⟩, hpart⟩ := Option.ite_none_right_eq_some.1 hpart
    cases hpart
    exact ⟨.of_le (h1.whole.add isWhole_one) h1 h.hi1 (by simp) hle1, h.hi1, h.lo2,
      .of_le (h2.whole.sub isWhole_one) h.lo2 h2 hle2 (by simp), h.spread⟩

/-- What the first phase tells and holds on an enumerator of the program. -/
def chordRules (p : Program ℚ) : Rules ℚ where
  found best := best.toPoint ∈ p.outcomes
  told := p.Tells
  frontier := Frontier.Drawn p

/-- The gap lies between two outcomes that descend. -/
structure Opens (p : Program ℚ) (ab : Solution ℚ × Solution ℚ) : Prop where
  left : ab.1.toPoint ∈ p.outcomes
  right : ab.2.toPoint ∈ p.outcomes
  descends : Descends ab.1.toPoint ab.2.toPoint

/-- The second phase searches the gaps between supported outcomes that descend. -/
def gapRules (p : Program ℚ) : Rules ℚ where
  found best := best.toPoint ∈ p.outcomes
  told := p.Tells
  frontier f := f.Drawn p ∧ f.supported.Pairwise fun a b => Descends a.toPoint b.toPoint
  gap := p.Opens
  region := p.Encloses

namespace WholeObjectives

variable {p : Program ℚ} (hp : p.WholeObjectives)
include hp

theorem encloses {ab : Solution ℚ × Solution ℚ} (h : p.Opens ab) :
    p.Encloses (.ofCorners ab.1 ab.2) where
  lo1 := hp.fits_of_mem_outcomes h.left .first
  hi1 := hp.fits_of_mem_outcomes h.right .first
  lo2 := hp.fits_of_mem_outcomes h.right .second
  hi2 := hp.fits_of_mem_outcomes h.left .second
  spread := hp.spread h.left h.right h.descends.1 h.descends.2

theorem allowsFirst_chordRules {cfg : Config ℚ} (htol : cfg.tolerances.Fine) :
    p.chordRules.AllowsFirst cfg where
  weights := fun _ hf a ha b hb => hp.weighs_chord (hf.members.supported a ha)
    (hf.members.supported b hb)
  insert := fun _ _ hbest hf => hf.insertSupported hbest
  anchor := .anchor
  cap := fun i _ hbest => .cap (not_isWhole_add_tie (hp.fits_of_mem_outcomes hbest i).whole
    htol.tie_pos htol.tie_le_half)
  retain := fun _ hf => hf.retainSupported

theorem allowsSecond_gapRules (cfg : Config ℚ) : p.gapRules.AllowsSecond cfg where
  gap := fun _ hf _ hab =>
    ⟨hf.1.members.supported _ (mem_of_mem_neighbours hab).1,
      hf.1.members.supported _ (mem_of_mem_neighbours hab).2, rel_of_mem_neighbours hf.2 hab⟩
  weights := fun _ hab => hp.weighs_chord hab.left hab.right
  update := by
    intro f best s hbest hs hf
    refine ⟨hf.1.update (hs.toPoint_eq ▸ hbest), ?_⟩
    rw [Frontier.update_supported]
    exact hf.2

theorem allowsSplitting_gapRules (cfg : Config ℚ) : p.gapRules.AllowsSplitting cfg where
  toAllowsSecond := hp.allowsSecond_gapRules cfg
  corners := fun _ hab => hp.encloses hab
  split := fun _ _ hbox hbest => hbox.split hp hbest
  range := fun _ hbox => hbox.ranges

theorem allowsRanking_gapRules (cfg : Config ℚ) : p.gapRules.AllowsRanking cfg where
  toAllowsSecond := hp.allowsSecond_gapRules cfg
  first := by
    intro ab hab
    have hbox := hp.encloses hab
    exact .between hbox.lo1 (hbox.hi1.pred hbox.lo1 hab.descends.1) hbox.spread
  second := by
    intro ab hab
    have hbox := hp.encloses hab
    exact .between hbox.lo2 (hbox.hi2.pred hbox.lo2 hab.descends.2) hbox.spread

end WholeObjectives

end Program

namespace Run

section Holds

variable {K σ : Type} [Scalar K]

/-- The frontiers that a run holds: in the first phase after any number of chords, between the
phases, and in the second phase after some gaps and any number of solves in the next one. -/
inductive Holds (cfg : Config K) (o : Oracle K σ) (clock : Clock) (fuel : ℕ) (s : σ) :
    Frontier K → Prop
  | refining (n : ℕ) (hn : n ≤ cfg.maxChords) :
      Holds cfg o clock fuel s (hold o clock (Supported.search { cfg with maxChords := n })
        { frontier := .empty cfg.tolerances.dominance } (.start s)).1.2.frontier
  | handed : Holds cfg o clock fuel s (firstPhase cfg o clock s).1.2.frontier
  | splitting {first : Status} {p : Progress K} {w : World K σ}
      {searched rest : List (Solution K × Solution K)} {gap : Solution K × Solution K}
      (hstrategy : cfg.strategy = .splitting) (hfirst : firstPhase cfg o clock s = ((.ok first, p), w))
      (hgaps : neighbours p.frontier.supported = searched ++ gap :: rest) (n : ℕ) (hn : n ≤ fuel) :
      Holds cfg o clock fuel s (hold o clock
        (Splitting.search cfg fuel searched >>= fun _ => Splitting.search cfg n [gap])
        p (w.time clock).2).1.2.frontier
  | ranking {first : Status} {p : Progress K} {w : World K σ}
      {searched rest : List (Solution K × Solution K)} {gap : Solution K × Solution K}
      (hstrategy : cfg.strategy = .ranking) (hfirst : firstPhase cfg o clock s = ((.ok first, p), w))
      (hgaps : neighbours p.frontier.supported = searched ++ gap :: rest) (n : ℕ) (hn : n ≤ fuel) :
      Holds cfg o clock fuel s (hold o clock
        (Ranking.search cfg fuel searched .completed >>= Ranking.search cfg n [gap])
        p (w.time clock).2).1.2.frontier

end Holds

/-- The numbers that a run on an enumerator computes from the objectives, with `world` at its
end: the steps of a scan and its sums, what is told, the weighted sums of each solve, the
distance of the anchors, a unit to either side of a point that is found in a box, and what is
computed on frontiers. -/
inductive Computes (p : Program ℚ) (cfg : Config ℚ) (clock : Clock) (limit? : Option ℕ) (fuel : ℕ)
    (world : World ℚ (Enumerator ℚ)) : ℚ → Prop
  | step {c : Column ℚ} (hc : c ∈ p.columns) (i : Objective) {sign : ℚ}
      (hsign : sign = 1 ∨ sign = -1) : Computes p cfg clock limit? fuel world (sign * i.of c.costs)
  | sum {q : Position ℚ} (hq : q ∈ p.trail) (i : Objective) :
      Computes p cfg clock limit? fuel world (i.of q.point)
  | told {d : Directive ℚ} {v : ℚ} (hd : .told d ∈ world.record.toList) (hv : v ∈ d.numbers) :
      Computes p cfg clock limit? fuel world v
  | value {t : Terms ℚ} {a : Answer ℚ} {q : Position ℚ} {v : ℚ}
      (ht : (t, a) ∈ world.questions .initial) (hq : q ∈ p.trail)
      (hv : v ∈ t.weights.terms (Program.snapPoint q.point).z1 (Program.snapPoint q.point).z2) :
      Computes p cfg clock limit? fuel world v
  | distance {a b : Optimum ℚ} (ha : .solved (.optimal a) ∈ world.record.toList)
      (hb : .solved (.optimal b) ∈ world.record.toList) :
      Computes p cfg clock limit? fuel world (a.z1 - b.z1)
  | unit {t : Terms ℚ} {best : Optimum ℚ} {v : ℚ}
      (ht : (t, .optimal best) ∈ world.questions .initial) (hbox : t.first.lower? ≠ none)
      (hv : v ∈ [best.z1 - 1, best.z1 + 1, best.z2 - 1, best.z2 + 1]) :
      Computes p cfg clock limit? fuel world v
  | frontier {f : Frontier ℚ} {v : ℚ}
      (hf : Holds cfg (Enumerator.oracle p) clock fuel (.ofProgram p limit?) f)
      (hv : f.Computes v) : Computes p cfg clock limit? fuel world v

theorem drawn_from_empty {p : Program ℚ} {α : Type} {good : α → Prop} {x : Phase ℚ α}
    (hx : Abides (Enumerator.oracle p) (·.program = p) p.chordRules good x) (eps : ℚ)
    (clock : Clock) (limit? : Option ℕ) :
    (hold (Enumerator.oracle p) clock x { frontier := .empty eps }
      (.start (.ofProgram p limit?))).1.2.frontier.Drawn p :=
  (hx clock { frontier := .empty eps } (.start (.ofProgram p limit?)) rfl
    (Frontier.drawn_empty p eps)).frontier

variable {p : Program ℚ} (hp : p.WholeObjectives) {cfg : Config ℚ} (htol : cfg.tolerances.Fine)
  {clock : Clock} {limit? : Option ℕ}
include hp htol

theorem gapRules_firstPhase {first : Status} {q : Progress ℚ} {w : World ℚ (Enumerator ℚ)}
    (hfirst : firstPhase cfg (Enumerator.oracle p) clock (.ofProgram p limit?) =
      ((.ok first, q), w)) :
    w.oracle.program = p ∧ p.gapRules.frontier q.frontier := by
  obtain ⟨hmarks, -, hprogram⟩ := marks_firstPhase hp htol hfirst
  have hdrawn := drawn_from_empty (Supported.abides_phase (Enumerator.oracle_vouches p)
    (hp.allowsFirst_chordRules htol)) cfg.tolerances.dominance clock limit?
  rw [← firstPhase, hfirst] at hdrawn
  refine ⟨hprogram, hdrawn, ?_⟩
  -- The staircase is known of the retained solutions, which here are the supported ones.
  rw [← all_of_firstPhase hfirst]
  exact hmarks.tidy.stairs.descends

theorem Holds.drawn {fuel : ℕ} {f : Frontier ℚ}
    (h : Holds cfg (Enumerator.oracle p) clock fuel (.ofProgram p limit?) f) : f.Drawn p := by
  have hv := Enumerator.oracle_vouches p
  cases h with
  | refining n hn =>
      have hr : p.chordRules.AllowsFirst { cfg with maxChords := n } :=
        hp.allowsFirst_chordRules htol
      exact drawn_from_empty (Supported.abides_search hv hr) _ clock limit?
  | handed =>
      have hr := hp.allowsFirst_chordRules htol
      exact drawn_from_empty (Supported.abides_phase hv hr) _ clock limit?
  | @splitting first q w searched rest gap hstrategy hfirst hgaps n hn =>
      obtain ⟨hprogram, hfrontier⟩ := gapRules_firstPhase hp htol hfirst
      have hr := hp.allowsSplitting_gapRules cfg
      have hopen := hr.gap q.frontier hfrontier
      rw [hgaps, List.forall_mem_append, List.forall_mem_cons] at hopen
      have habides := (Splitting.abides_search hv hr fuel hopen.1).bind fun _ _ =>
        Splitting.abides_search hv hr n (List.forall_mem_singleton.2 hopen.2.1)
      exact (habides clock q (w.time clock).2 hprogram hfrontier).frontier.1
  | @ranking first q w searched rest gap hstrategy hfirst hgaps n hn =>
      obtain ⟨hprogram, hfrontier⟩ := gapRules_firstPhase hp htol hfirst
      have hr := hp.allowsRanking_gapRules cfg
      have hopen := hr.gap q.frontier hfrontier
      rw [hgaps, List.forall_mem_append, List.forall_mem_cons] at hopen
      have habides := (Ranking.abides_search hv hr fuel hopen.1 .completed).bind fun status _ =>
        Ranking.abides_search hv hr n (List.forall_mem_singleton.2 hopen.2.1) status
      exact (habides clock q (w.time clock).2 hprogram hfrontier).frontier.1

theorem tells_and_finds (clock : Clock) (limit? : Option ℕ) (fuel : ℕ) :
    let record := ((session cfg p.dimension fuel).exec (Enumerator.oracle p) clock
      (.start (.ofProgram p limit?))).2.record.toList
    (∀ d, .told d ∈ record → p.Tells d) ∧
      ∀ best, .solved (.optimal best) ∈ record → best.toPoint ∈ p.outcomes := by
  have hv := Enumerator.oracle_vouches p
  have hconforms := session_conforms (o := Enumerator.oracle p) (r := p.chordRules)
    (q := p.gapRules) hv hv (hp.allowsFirst_chordRules htol) (hp.allowsSplitting_gapRules cfg)
    (hp.allowsRanking_gapRules cfg) (fun _ => trivial) clock fuel (s := .ofProgram p limit?) rfl
    (Frontier.drawn_empty p _) fun _ _ _ hfirst => (gapRules_firstPhase hp htol hfirst).2
  exact ⟨fun d hd => (hconforms.told d hd).elim id id,
    fun best hbest => (hconforms.solved best hbest).elim id id⟩

omit hp htol

/-- At each solve the weights are small, and a box is searched only if both objectives span a
unit. -/
theorem weighs_of_tells {record : List (Exchange ℚ)} (htold : ∀ d, .told d ∈ record → p.Tells d) :
    ∀ q ∈ asked .initial record,
      p.Weighs q.1.weights ∧ (q.1.first.lower? ≠ none → p.Spread) := by
  have hinitial : p.Weighs Terms.initial.weights ∧
      (Terms.initial.first.lower? ≠ none → p.Spread) :=
    ⟨.untold, fun h => absurd rfl h⟩
  apply forall_asked (P := fun t => p.Weighs t.weights ∧ (t.first.lower? ≠ none → p.Spread)) hinitial
  rintro d hd t ⟨hweights, hspread⟩
  have htells := htold d hd
  rcases d with w | ⟨_ | _, range⟩ | (_ | _) | literals
  · exact ⟨htells, hspread⟩
  · refine ⟨hweights, fun h => ?_⟩
    -- A cap leaves the lower end open, so the range is that of a box.
    cases htells with
    | cap => exact absurd rfl h
    | between hlo hhi hspread => exact hspread
  · exact ⟨hweights, hspread⟩
  · exact ⟨hweights, fun h => absurd rfl h⟩
  · exact ⟨hweights, hspread⟩
  · exact ⟨hweights, hspread⟩

include hp

theorem inRange_or_one_of_told {d : Directive ℚ} (hd : p.Tells d) {v : ℚ} (hv : v ∈ d.numbers) :
    p.InRange v ∨ p.ceiling = 0 ∧ v = 1 := by
  cases d with
  | weights w => exact Program.Weighs.inRange_or_one hp hd hv
  | clear i => cases hv
  | exclude literals => cases hv
  | bound i range =>
      cases hd with
      | cap h => cases hv
      | between hlo hhi hspread =>
          rcases List.mem_pair.1 hv with rfl | rfl
          · exact Or.inl hlo.inRange
          · exact Or.inl hhi.inRange

include htol

theorem inRange_or_one_of_computes {fuel : ℕ} {world : World ℚ (Enumerator ℚ)}
    (htold : ∀ d, .told d ∈ world.record.toList → p.Tells d)
    (hfound : ∀ best, .solved (.optimal best) ∈ world.record.toList → best.toPoint ∈ p.outcomes)
    {v : ℚ} (h : Computes p cfg clock limit? fuel world v) :
    p.InRange v ∨ p.ceiling = 0 ∧ v = 1 := by
  have hterms := weighs_of_tells htold
  cases h with
  | step hc i hsign =>
      have hfits := (hp.fits_cost hc i).inRange
      rcases hsign with rfl | rfl
      · rw [one_mul]
        exact Or.inl hfits
      · rw [neg_one_mul]
        exact Or.inl ⟨hfits.whole.neg, (abs_neg _).trans_le hfits.le_ceiling⟩
  | sum hq i => exact Or.inl (hp.fits_of_mem_trail hq i).inRange
  | told hd hv => exact inRange_or_one_of_told hp (htold _ hd) hv
  | value ht hq hv =>
      exact Or.inl ((hterms _ ht).1.inRange_terms hp (hp.fits_snapPoint hq .first)
        (hp.fits_snapPoint hq .second) v hv)
  | distance ha hb => exact Or.inl (hp.fits_sub (hfound _ ha) (hfound _ hb) .first).inRange
  | unit ht hbox hv =>
      -- Without a unit between the corners of a box, the ceiling could be less than a unit.
      have hspread := (hterms _ ht).2 hbox
      have hbest := hfound _ (solved_mem_of_mem_asked ht)
      obtain ⟨hup1, hdown1⟩ := (hp.fits_of_mem_outcomes hbest .first).add_one hspread
      obtain ⟨hup2, hdown2⟩ := (hp.fits_of_mem_outcomes hbest .second).add_one hspread
      left
      simp only [List.mem_cons, List.not_mem_nil, or_false] at hv
      rcases hv with rfl | rfl | rfl | rfl
      · exact hdown1
      · exact hup1
      · exact hdown2
      · exact hup2
  | frontier hf hv => exact Or.inl ((hf.drawn hp htol).inRange hp hv)

end Run

namespace Method

/-- All numbers that a run computes from whole objectives are whole. None is larger than the
ceiling, except that the unit weights are where all coefficients are zero, and below `2 ^ 53`
all are exact as doubles. The caps that are told as well are not whole. -/
theorem run_magnitudes {p : Program ℚ} (hp : p.WholeObjectives) {m : Method ℚ}
    (htol : m.config.tolerances.Fine) (fmt : ReportFormat ℚ) (clock : Clock) (limit? : Option ℕ)
    (fuel : ℕ) (files : Files) :
    let world := (m.run fmt (Enumerator.oracle p) clock fuel (.ofProgram p limit?) files).world
    (∀ v, Run.Computes p m.config clock limit? fuel world v →
      IsWhole v ∧ (|v| ≤ p.ceiling ∨ p.ceiling = 0 ∧ v = 1) ∧
        (p.ceiling < 2 ^ 53 → Binary64.Exact v)) ∧
      ∀ i cap, .told (.bound i ⟨none, some cap⟩) ∈ world.record.toList → ¬IsWhole cap := by
  intro world
  obtain ⟨htold, hfound⟩ := Run.tells_and_finds hp htol clock limit? fuel
  have hworld : world = _ := run_world m fmt (Enumerator.oracle p) clock fuel _ files
  rw [hworld]
  refine ⟨fun v hv => ?_, fun i cap hcap => ?_⟩
  · rcases Run.inRange_or_one_of_computes hp htol htold hfound hv with h | ⟨hzero, rfl⟩
    · exact ⟨h.whole, Or.inl h.le_ceiling,
        fun hlt => Binary64.exact_of_isWhole h.whole (h.le_ceiling.trans_lt hlt)⟩
    · exact ⟨isWhole_one, Or.inr ⟨hzero, rfl⟩,
        fun _ => Binary64.exact_of_isWhole isWhole_one (by norm_num)⟩
  · have hranges : p.Ranges i ⟨none, some cap⟩ := htold _ hcap
    cases hranges with
    | cap h => exact h

/-- The bar of the only gap, under the weights of its chord. -/
theorem run_magnitudes_pickOne :
    let world := (({ config := .plain .ranking } : Method ℚ).run .bare (Enumerator.oracle pickOne)
      .still 9 (.ofProgram pickOne none) .empty).world
    Run.Computes pickOne (.plain .ranking) .still none 9 world 24 ∧ pickOne.ceiling = 128 ∧
      |(24 : ℚ)| ≤ pickOne.ceiling ∧ Binary64.Exact 24 := by
  intro world
  have hcomputes : Run.Computes pickOne (.plain .ranking) .still none 9 world 24 := by
    have hgaps : neighbours (Run.firstPhase (.plain .ranking) (Enumerator.oracle pickOne) .still
        (.ofProgram pickOne none)).1.2.frontier.supported =
          [(⟨⟨1, 4⟩, true, [1, 0, 0]⟩, ⟨⟨4, 1⟩, true, [0, 0, 1]⟩)] := by
      decide +kernel
    refine .frontier .handed (.bar (hgaps ▸ List.mem_singleton_self _) ?_)
    decide +kernel
  have hceiling : pickOne.ceiling = 128 := by
    decide +kernel
  obtain ⟨-, hle, hexact⟩ := (run_magnitudes (m := { config := .plain .ranking })
    wholeObjectives_pickOne (Config.fine_plain .ranking) .bare .still none 9 .empty).1 24 hcomputes
  refine ⟨hcomputes, hceiling, hle.resolve_right fun h => ?_, hexact ?_⟩
  · exact absurd h.2 (by norm_num)
  · rw [hceiling]
    norm_num

/-- One item that counts in neither objective. -/
def countless : Program ℚ :=
  { c1 := [0]
    c2 := [0]
    rows := []
    c1_ne_nil := by decide
    c1_length_le := by decide
    c2_length := by decide
    coefs_length := by decide }

/-- The unit weights are told whatever the objectives are, so the ceiling alone does not bound
them. -/
theorem ceiling_lt_unit_weight :
    let world := (({ config := .plain .splitting } : Method ℚ).run .bare
      (Enumerator.oracle countless) .still 9 (.ofProgram countless none) .empty).world
    countless.WholeObjectives ∧ (Config.plain .splitting).tolerances.Fine ∧
      ∃ v, Run.Computes countless (.plain .splitting) .still none 9 world v ∧
        ¬|v| ≤ countless.ceiling := by
  intro world
  have hwhole : ∀ c ∈ [(0 : ℚ)], IsWhole c := List.forall_mem_singleton.2 isWhole_zero
  have htold : .told (.weights (Anchor.weightsOf .first)) ∈ world.record.toList := by
    decide +kernel
  refine ⟨⟨hwhole, hwhole⟩, Config.fine_plain .splitting, 1, .told htold List.mem_cons_self, ?_⟩
  decide +kernel

end Method

end Biobjective
