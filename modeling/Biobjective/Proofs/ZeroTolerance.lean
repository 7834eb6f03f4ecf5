import Biobjective.Proofs.Conduct

/-!
# Ties at tolerance zero

A point has to lie below a chord by the tolerance for ties in order to split it. At tolerance
zero the ends of the chord themselves do, so every solve adds a member to the supported list
and the cursor never moves: the first phase goes on until all chords are used up. Unless there
is a single Pareto outcome, the list ends with one member more than the configuration has
chords, and as soon as these are more than there are Pareto outcomes, two members share their
first objective. The main result is `Method.run_tie_eq_zero`.
-/

namespace Biobjective

/-- Supported outcomes with different first objectives are a chain in the order of these. -/
theorem Chain.of_sorted {p : Program ℚ} {l : List (Solution ℚ)}
    (hsorted : l.Pairwise fun a b => a.z1 ≤ b.z1) (hnodup : (l.map (·.z1)).Nodup)
    (hsupported : ∀ s ∈ l, p.IsSupported s.toPoint) : Chain p l := by
  refine ⟨?_, hsupported⟩
  have hlt := (List.pairwise_map.1 hnodup).and hsorted
  refine hlt.imp_of_mem fun {a b} ha hb hab => ?_
  rcases (hsupported a ha).isPareto.eq_or_descends (hsupported b hb).isPareto with
    heq | hdesc | hdesc
  · exact absurd (congrArg Point.z1 heq) hab.1
  · exact hdesc
  · exact absurd hdesc.1 (not_lt.2 hab.2)

/-- A chain has no more members than there are Pareto outcomes. -/
theorem Chain.length_le_paretoPoints {p : Program ℚ} {l : List (Solution ℚ)} (h : Chain p l) :
    l.length ≤ p.paretoPoints.length := by
  have hsub : l.map (·.toPoint) ⊆ p.paretoPoints := by
    intro z hz
    obtain ⟨s, hs, rfl⟩ := List.mem_map.1 hz
    exact (p.mem_paretoPoints_iff _).2 (h.supported s hs).isPareto
  simpa using (h.staircase.nodup.subperm hsub).length_le

/-- A list by ascending first objective falls apart at every level. -/
theorem exists_append_of_sorted {l : List (Solution ℚ)}
    (h : l.Pairwise fun a b => a.z1 ≤ b.z1) (x : ℚ) :
    ∃ xs ys, l = xs ++ ys ∧ (∀ a ∈ xs, a.z1 < x) ∧ ∀ a ∈ ys, x ≤ a.z1 := by
  induction l with
  | nil => exact ⟨[], [], rfl, nofun, nofun⟩
  | cons a l ih =>
      obtain ⟨hal, hl⟩ := List.pairwise_cons.1 h
      by_cases hax : a.z1 < x
      · obtain ⟨xs, ys, rfl, hxs, hys⟩ := ih hl
        exact ⟨a :: xs, ys, rfl, List.forall_mem_cons.2 ⟨hax, hxs⟩, hys⟩
      · rw [not_lt] at hax
        exact ⟨[], a :: l, rfl, nofun,
          List.forall_mem_cons.2 ⟨hax, fun b hb => hax.trans (hal b hb)⟩⟩

/-- A minimum of the chord at the front is supported. -/
theorem Refining.isSupported {p : Program ℚ} {a b : Solution ℚ} {rest : List (Solution ℚ)}
    (h : Refining p 0 (a :: b :: rest)) {best : Optimum ℚ}
    (hbest : IsBest p (a.chord b) .unbounded .unbounded best) : p.IsSupported best.toPoint := by
  have hab : Descends a.toPoint b.toPoint :=
    (List.pairwise_cons.1 h.chain.descends).1 b List.mem_cons_self
  refine ⟨hbest.mem, a.chord b, sub_pos.2 hab.2, sub_pos.2 hab.1, fun y hy => ?_⟩
  rw [← hbest.value_eq]
  exact hbest.value_le y hy (by simp) (by simp)

theorem nodup_of_length_eq_one {l : List (Solution ℚ)} (h : l.length = 1) :
    (l.map (·.z1)).Nodup := by
  obtain ⟨s, rfl⟩ := List.length_eq_one_iff.1 h
  exact List.nodup_singleton _

namespace Supported

/-- The supported list while every solve adds a member to it: feasible outcomes by ascending
first objective, which still run from anchor to anchor as a chain unless two of them share their
first objective. -/
structure Piled (p : Program ℚ) (l : List (Solution ℚ)) : Prop where
  sorted : l.Pairwise fun a b => a.z1 ≤ b.z1
  mem : ∀ s ∈ l, s.toPoint ∈ p.outcomes
  refining : (l.map (·.z1)).Nodup → Refining p 0 l

/-- A supported outcome comes after the first anchor and before the last one. -/
theorem anchored_insert {p : Program ℚ} {xs ys : List (Solution ℚ)} {s : Solution ℚ}
    (hanchored : Anchored p (xs ++ ys)) (hs : p.IsSupported s.toPoint)
    (hxs : ∀ a ∈ xs, a.z1 < s.z1) (hys : ∀ a ∈ ys, s.z1 < a.z1) : Anchored p (xs ++ s :: ys) := by
  obtain ⟨⟨a, ha, hfirst⟩, b, hb, hsecond⟩ := hanchored
  have has : a.z1 ≤ s.z1 := by
    rcases hfirst.lex _ hs.mem with hlt | ⟨heq, -⟩
    · exact hlt.le
    · exact heq.le
  have hsb : s.z1 ≤ b.z1 := by
    by_contra hlt
    rw [not_le] at hlt
    have hle : b.z2 ≤ s.z2 := by
      rcases hsecond.lex _ hs.mem with hlt | ⟨heq, -⟩
      · exact hlt.le
      · exact heq.le
    have heq := hs.isPareto.eq_of_le _ hsecond.mem hlt.le hle
    exact hlt.ne (congrArg Point.z1 heq)
  refine ⟨⟨a, ?_, hfirst⟩, b, ?_, hsecond⟩
  · cases xs with
    | nil => exact absurd (hys a (List.mem_of_mem_head? ha)) (not_lt.2 has)
    | cons x xs => exact ha
  · cases hlast : ys.getLast? with
    | none =>
        rw [List.getLast?_eq_none_iff.1 hlast, List.append_nil] at hb
        exact absurd (hxs b (List.mem_of_getLast? hb)) (not_lt.2 hsb)
    | some y =>
        rw [← hb]
        simp [List.getLast?_append, List.getLast?_cons, hlast]

/-- A minimum of the chord at the front is added to the list. -/
theorem Piled.insert {p : Program ℚ} {f : Frontier ℚ} {a b s : Solution ℚ}
    {rest : List (Solution ℚ)} (hf : f.supported = a :: b :: rest) (h : Piled p f.supported)
    {best : Optimum ℚ} (hbest : IsBest p (a.chord b) .unbounded .unbounded best)
    (hs : s.toPoint = best.toPoint) :
    ∃ l, f.insertSupported s = { f with supported := l } ∧ l.length = f.supported.length + 1 ∧
      Piled p l := by
  obtain ⟨xs, ys, hsplit, hxs, hys⟩ := exists_append_of_sorted h.sorted s.z1
  have hmem : ∀ t ∈ xs ++ s :: ys, t = s ∨ t ∈ f.supported := by
    intro t ht
    rw [hsplit]
    exact List.mem_cons.1 (List.perm_middle.subset ht)
  have hsorted : (xs ++ s :: ys).Pairwise fun a b => a.z1 ≤ b.z1 := by
    have hold := h.sorted
    rw [hsplit] at hold
    obtain ⟨hx, hy, hxy⟩ := List.pairwise_append.1 hold
    refine List.pairwise_append.2 ⟨hx, List.pairwise_cons.2 ⟨hys, hy⟩, fun t ht u hu => ?_⟩
    rcases List.mem_cons.1 hu with rfl | hu
    · exact (hxs t ht).le
    · exact hxy t ht u hu
  refine ⟨xs ++ s :: ys, Frontier.insertSupported_append hsplit s hxs hys, ?_, hsorted, ?_, ?_⟩
  · rw [hsplit, List.length_append, List.length_append, List.length_cons]
    rfl
  · intro t ht
    rcases hmem t ht with rfl | ht
    · rw [hs]
      exact hbest.mem
    · exact h.mem t ht
  · intro hnodup
    have hold : Refining p 0 f.supported := by
      refine h.refining (hnodup.sublist (List.Sublist.map _ ?_))
      rw [hsplit]
      exact (List.sublist_cons_self s ys).append_left xs
    have hsupported : p.IsSupported s.toPoint := hs ▸ (hf ▸ hold).isSupported hbest
    have hbehind : ∀ t ∈ ys, s.z1 < t.z1 := by
      intro t ht
      rw [List.map_append, List.map_cons] at hnodup
      have hne := (List.nodup_cons.1 (List.nodup_append.1 hnodup).2.1).1
      exact lt_of_le_of_ne (hys t ht) fun heq => hne (List.mem_map.2 ⟨t, ht, heq.symm⟩)
    refine ⟨.of_sorted hsorted hnodup fun t ht => ?_, anchored_insert (hsplit ▸ hold.anchored)
      hsupported hxs hbehind, ?_⟩
    · rcases hmem t ht with rfl | ht
      · exact hsupported
      · exact hold.chain.supported t ht
    · cases xs with
      | nil => exact .start p s ys
      | cons x xs => exact .start p x (xs ++ s :: ys)

/-- What a refinement at tolerance zero leaves behind at every point. -/
structure Piles (p : Program ℚ) (limit? : Option ℕ) (k : ℕ) (f : Frontier ℚ) (q : Progress ℚ)
    (w : World ℚ (Enumerator ℚ)) : Prop where
  piled : Piled p q.frontier.supported
  frontier_eq : q.frontier = { f with supported := q.frontier.supported }
  room : q.Room p k
  unexcluding : Excluding p limit? [] w

open Phase in
/-- At tolerance zero every chord that is examined adds a member, and the cursor stays where it
is. -/
theorem ensures_refine_of_tie_eq_zero {p : Program ℚ} {cfg : Config ℚ}
    (htie : cfg.tolerances.tie = 0) {c : Clock} (hnever : NeverOver cfg c) {k : ℕ} (chords : ℕ)
    {weights : Weights ℚ} {q : Progress ℚ} {w : World ℚ (Enumerator ℚ)}
    (hq : Piled p q.frontier.supported) (htwo : 2 ≤ q.frontier.supported.length)
    (hw : InForce (asking p none weights .unbounded .unbounded) w)
    (hroom : q.Room p (k + chords)) :
    Ensures (Enumerator.oracle p) c (refine cfg chords 0) q w
      (fun _ q' w' => Piles p none k q.frontier q' w' ∧
        q'.frontier.supported.length = q.frontier.supported.length + chords ∧
        q'.work.calls = q.work.calls + chords)
      (fun _ _ _ => False) := by
  induction chords generalizing weights q w with
  | zero =>
      rw [refine, ensures_pure]
      exact ⟨⟨hq, rfl, hroom, _, _, _, hw⟩, rfl, rfl⟩
  | succ chords ih =>
      obtain ⟨a, b, rest, hl⟩ : ∃ a b rest, q.frontier.supported = a :: b :: rest := by
        rcases hl : q.frontier.supported with _ | ⟨a, _ | ⟨b, rest⟩⟩
        · simp [hl] at htwo
        · simp [hl] at htwo
        · exact ⟨a, b, rest, rfl⟩
      have hfirst : q.frontier.supported[0]? = some a := by rw [hl]; rfl
      have hnext : q.frontier.supported[0 + 1]? = some b := by rw [hl]; rfl
      have ha : a.toPoint ∈ p.outcomes := hq.mem a (hl ▸ List.mem_cons_self)
      simp only [refine, ensures_bind, ensures_frontier, hfirst, hnext, ensures_tell]
      refine ensures_solve (e := asking p none (a.chord b) .unbounded .unbounded) (hw.tell p _)
        hroom ?_
      intro answer w1 hanswer hw1 hroom1
      rcases outcome_of_answers hanswer with
        ⟨best, rfl, hbest⟩ | ⟨rfl, hnone⟩ | ⟨nodes, rfl, hlim⟩
      · -- the left end itself is as far below the chord as is asked for
        have hbelow : best.value ≤ (a.chord b).value a.toPoint - cfg.tolerances.tie := by
          rw [htie, sub_zero]
          exact hbest.value_le _ ha (by simp) (by simp)
        obtain ⟨l, hinsert, hlen, hpiled⟩ :=
          hq.insert (s := best.toSolution true cfg.keepDecisions) hl hbest rfl
        rw [ensures_demand_optimal, if_pos hbelow, ensures_bind, ensures_modifyFrontier,
          ensures_bind, Progress.count_frontier, hinsert]
        refine ensures_checkTime_of (fun h : ¬Unhindered cfg c none => absurd ⟨rfl, hnever⟩ h) ?_
        refine (ih (q := ⟨⟨_, _, _, _⟩, _⟩) hpiled ?_ (hw1.time c) hroom1).mono ?_ fun _ _ _ h => h
        · exact htwo.trans (hlen ▸ Nat.le_succ _)
        · rintro - q' w' ⟨hpiles, hlength, hcalls⟩
          refine ⟨⟨hpiles.piled, hpiles.frontier_eq, hpiles.room, hpiles.unexcluding⟩, ?_, ?_⟩
          · rw [hlength]
            simp only [hlen]
            omega
          · rw [hcalls]
            simp only [Progress.count]
            omega
      · exact absurd ⟨by simp, by simp⟩ (hnone _ ha)
      · exact absurd rfl hlim

/-- How a search at tolerance zero ends: with the one Pareto outcome, or with all chords used
up. As long as no two members share their first objective, it ends like any other search. -/
structure PiledUp (p : Program ℚ) (cfg : Config ℚ) (q q' : Progress ℚ) : Prop where
  length_eq : q'.frontier.supported.length =
    if p.paretoPoints.length = 1 then 1 else cfg.maxChords - 1 + 2
  searched : (q'.frontier.supported.map (·.z1)).Nodup → Searched p cfg q q'

/-- A minimum of both objectives is the only Pareto outcome. -/
theorem paretoPoints_eq_singleton {p : Program ℚ} (hp : p.WholeObjectives) {a : Point ℚ}
    (hfirst : p.IsLexMin .first a) (hsecond : p.IsLexMin .second a) : p.paretoPoints = [a] := by
  refine p.staircase_paretoPoints.eq_of_mem_iff (List.pairwise_singleton _ _) fun z => ?_
  rw [p.mem_paretoPoints_iff, List.mem_singleton]
  constructor
  · intro hz
    refine (hz.eq_of_le a hfirst.mem ?_ ?_).symm
    · rcases hfirst.lex z hz.mem with hlt | ⟨heq, -⟩
      · exact hlt.le
      · exact heq.le
    · rcases hsecond.lex z hz.mem with hlt | ⟨heq, -⟩
      · exact hlt.le
      · exact heq.le
  · rintro rfl
    exact (hfirst.isSupported hp).isPareto

open Phase in
theorem ensures_search_of_tie_eq_zero {p : Program ℚ} (hp : p.WholeObjectives) {cfg : Config ℚ}
    (htie : cfg.tolerances.tie = 0) {c : Clock} (hnever : NeverOver cfg c) {k : ℕ}
    {weights : Weights ℚ} {q : Progress ℚ} {w : World ℚ (Enumerator ℚ)}
    (hnil : q.frontier.supported = [])
    (hw : InForce (asking p none weights .unbounded .unbounded) w)
    (hroom : q.Room p (k + cfg.maxChords + 4)) :
    Ensures (Enumerator.oracle p) c (search cfg) q w
      (fun _ q' w' => Piles p none k q.frontier q' w' ∧ PiledUp p cfg q q')
      (fun cut _ _ => Excused p cfg c none cut) := by
  have h0 : 0 ≤ cfg.tolerances.tie := htie.ge
  have h1 : cfg.tolerances.tie ≤ 1 / 2 := htie.le.trans one_half_pos.le
  have hover : ¬¬Unhindered cfg c none := not_not_intro ⟨rfl, hnever⟩
  simp only [search, ensures_bind, ensures_modifyFrontier]
  refine (Anchor.ensures_find hp h0 h1 .upperLeft hw hroom).mono ?_
    fun cut q' w' h => h.2.2.2
  rintro ul q1 w1 ⟨hul, hf1, hcalls1, hroom1, weights1, hw1⟩
  have hsul : p.IsSupported ul.toPoint := hul.isSupported hp
  have hinsert1 : q1.frontier.insertSupported ul = { q.frontier with supported := [ul] } := by
    have hsplit : q.frontier.supported = [] ++ [] := hnil
    rw [hf1, Frontier.insertSupported_append hsplit ul (by simp) (by simp)]
    rfl
  rw [hinsert1]
  refine ensures_checkTime_of (fun h : ¬Unhindered cfg c none => absurd h hover) ?_
  refine (Anchor.ensures_find (k := k + cfg.maxChords)
    (q := ⟨{ q.frontier with supported := [ul] }, q1.work⟩) hp h0 h1 .lowerRight (hw1.time c)
    hroom1).mono ?_ fun cut q' w' h => h.2.2.2
  rintro lr q3 w3 ⟨hlr, hf3, hcalls3, hroom3, weights3, hw3⟩
  have hslr : p.IsSupported lr.toPoint := hlr.isSupported hp
  have hlist : q3.frontier.supported = [ul] := by rw [hf3]
  have hcalls : q3.work.calls = q.work.calls + 4 := by
    rw [hcalls3]
    simp only [hcalls1]
  rcases anchors_eq_or_descend hp h0 h1 hul hlr with ⟨hsame, heq⟩ | ⟨hsame, hdesc⟩
  · have hpareto := paretoPoints_eq_singleton hp hul (heq ▸ hlr)
    have hrefining : Refining p 0 [ul] :=
      ⟨.singleton hsul, .singleton hul (heq ▸ hlr), .start p ul []⟩
    rw [if_pos hsame, ensures_pure]
    refine ⟨⟨?_, ?_, hroom3.mono (Nat.le_add_right _ _), _, _, _, hw3⟩, ?_, fun _ => ⟨0, ?_, ?_⟩⟩
    · rw [hlist]
      exact ⟨List.pairwise_singleton _ _, by simpa using hul.mem, fun _ => hrefining⟩
    · rw [hlist, hf3]
    · rw [hlist, hpareto]
      rfl
    · rw [hlist]
      exact hrefining
    · rw [hlist]
      exact ⟨hcalls, Or.inl le_rfl⟩
  · have hchain : Chain p [ul, lr] := .pair hsul hslr hdesc
    have hmany : p.paretoPoints.length ≠ 1 := by
      have hle : 2 ≤ p.paretoPoints.length := hchain.length_le_paretoPoints
      omega
    have hinsert3 : q3.frontier.insertSupported lr =
        { q.frontier with supported := [ul, lr] } := by
      have hsplit : q3.frontier.supported = [ul] ++ [] := hlist
      rw [Frontier.insertSupported_append hsplit lr (by simpa using hdesc.1) (by simp), hf3]
      rfl
    have hpiled : Piled p [ul, lr] := by
      refine ⟨List.pairwise_pair.2 hdesc.1.le, ?_, fun _ => ⟨hchain, .pair hul hlr,
        .start p ul [lr]⟩⟩
      exact fun s hs => (hchain.supported s hs).mem
    rw [if_neg hsame, ensures_bind, ensures_modifyFrontier, ensures_bind, hinsert3]
    refine ensures_checkTime_of (fun h : ¬Unhindered cfg c none => absurd h hover) ?_
    refine (ensures_refine_of_tie_eq_zero (k := k)
      (q := ⟨{ q.frontier with supported := [ul, lr] }, q3.work⟩) htie hnever (cfg.maxChords - 1)
      hpiled le_rfl (hw3.time c) (hroom3.mono (by omega))).mono ?_ fun _ _ _ h => h.elim
    rintro - q' w' ⟨hpiles, hlength, hcalls'⟩
    have hcalls'' : q'.work.calls = q.work.calls + 4 + (cfg.maxChords - 1) := by
      rw [hcalls']
      simp only [hcalls]
    have hlength' : q'.frontier.supported.length = cfg.maxChords - 1 + 2 := by
      rw [hlength]
      exact Nat.add_comm _ _
    refine ⟨⟨hpiles.piled, hpiles.frontier_eq, hpiles.room, hpiles.unexcluding⟩, ?_, ?_⟩
    · rw [if_neg hmany, hlength']
    · exact fun hnodup => ⟨0, hpiles.piled.refining hnodup, by omega, Or.inr hcalls''⟩

open Phase in
theorem ensures_phase_of_tie_eq_zero {p : Program ℚ} (hp : p.WholeObjectives) {cfg : Config ℚ}
    (htie : cfg.tolerances.tie = 0) {c : Clock} (hnever : NeverOver cfg c) {k : ℕ}
    {weights : Weights ℚ} {q : Progress ℚ} {w : World ℚ (Enumerator ℚ)}
    (hnil : q.frontier.supported = [])
    (hw : InForce (asking p none weights .unbounded .unbounded) w)
    (hroom : q.Room p (k + cfg.maxChords + 4)) :
    Ensures (Enumerator.oracle p) c (phase cfg) q w
      (fun status q' w' => PiledUp p cfg q q' ∧
        ((q'.frontier.supported.map (·.z1)).Nodup → Ended p cfg c none k q status q' w'))
      (fun _ _ _ => p.outcomes = ∅) := by
  refine (ensures_handle _ _).2
    ((ensures_search_of_tie_eq_zero hp htie hnever hnil hw hroom).mono ?_ ?_)
  · rintro - q' w' ⟨hpiles, hpiledUp⟩
    unfold Ensures
    refine ⟨⟨hpiledUp.length_eq, hpiledUp.searched⟩, fun hnodup => ?_⟩
    have hkeeps : Keeps p none k q.frontier q' w' :=
      ⟨(hpiles.piled.refining hnodup).chain, hpiles.frontier_eq, hpiles.room, hpiles.unexcluding⟩
    exact hkeeps.ended (fun _ => hpiledUp.searched hnodup) fun _ => rfl
  · intro cut q' w' hexcused
    unfold Ensures
    cases hexcused with
    | timeout hhindered => exact absurd ⟨rfl, hnever⟩ hhindered
    | infeasible stage hempty => exact hempty

end Supported

namespace Run

open Phase

/-- How a run at tolerance zero concludes: like any other one, unless two members of the
supported list share their first objective. -/
structure ConcludesPiled (p : Program ℚ) (cfg : Config ℚ) (clock : Clock) (status : Status)
    (f : Frontier ℚ) : Prop where
  length_eq : f.supported.length =
    if p.paretoPoints.length = 1 then 1 else cfg.maxChords - 1 + 2
  chain : (f.supported.map (·.z1)).Nodup → Chain p f.supported
  concludes : (f.supported.map (·.z1)).Nodup → Concludes p cfg clock none status f

theorem ensures_phases_of_tie_eq_zero {p : Program ℚ} (hp : p.WholeObjectives) {cfg : Config ℚ}
    (htie : cfg.tolerances.tie = 0) (h0 : 0 ≤ cfg.tolerances.dominance)
    (h1 : cfg.tolerances.dominance < 1) (hcap : cfg.maxChords ≤ 2 ^ 32) {clock : Clock}
    (hnever : NeverOver cfg clock) {fuel : ℕ} {short : Prop}
    (hfills : Fills p cfg clock none fuel short) :
    Ensures (Enumerator.oracle p) clock (phases cfg p.dimension fuel)
      { frontier := .empty cfg.tolerances.dominance } (.start (Enumerator.ofProgram p none))
      (fun r q' _ => ConcludesPiled p cfg clock r.1 q'.frontier)
      (fun _ _ _ => p.outcomes = ∅ ∨ short ∨ p.paretoPoints.length ≠ 1) := by
  have hroom : ({ frontier := .empty cfg.tolerances.dominance } : Progress ℚ).Room p
      (5 * 2 ^ p.dimension + cfg.maxChords + 4) := by
    have hdim : 2 ^ p.dimension ≤ 2 ^ 25 := Nat.pow_le_pow_right (by decide) p.c1_length_le
    have hprod : 2 ^ p.dimension * (5 * 2 ^ p.dimension + cfg.maxChords + 4) ≤
        2 ^ 25 * (5 * 2 ^ 25 + 2 ^ 32 + 4) := Nat.mul_le_mul hdim (by omega)
    rw [Progress.Room, Nat.zero_add]
    exact lt_of_le_of_lt hprod (by decide)
  simp only [phases, ensures_bind, ensures_elapsed, ensures_frontier]
  refine (Supported.ensures_phase_of_tie_eq_zero hp htie hnever rfl (inForce_start p none)
    hroom).mono ?_ fun _ _ _ hempty => Or.inl hempty
  rintro first q1 w1 ⟨hpiledUp, hended⟩
  have hkept := ensures_secondPhase_supported cfg (Enumerator.oracle p) p.dimension fuel clock q1
    (w1.time clock).2
  by_cases hnodup : (q1.frontier.supported.map (·.z1)).Nodup
  · have hended := hended hnodup
    have hsound : q1.frontier.Sound p := .of_chain hended.chain hended.all_eq
      (hended.eps_eq ▸ h0) (hended.eps_eq ▸ h1)
    have hexcluding : Excluding p none [] (w1.time clock).2 := by
      obtain ⟨weights, range1, range2, hw⟩ := hended.unexcluding
      exact ⟨weights, range1, range2, hw.time clock⟩
    refine ((hfills q1 _ hended.chain hsound hended.all_eq hexcluding hended.room).and hkept).mono
      ?_ ?_
    · rintro second q2 w2 ⟨hfilled, hsame⟩
      unfold Ensures
      exact ⟨hsame ▸ hpiledUp.length_eq, fun _ => hsame ▸ hended.chain,
        fun _ => .of_ended hended hfilled⟩
    · exact fun cut q2 w2 h => Or.inr (Or.inl h.1)
  · refine hkept.mono ?_ ?_
    · intro second q2 w2 hsame
      unfold Ensures
      exact ⟨hsame ▸ hpiledUp.length_eq, fun h => absurd (hsame ▸ h) hnodup,
        fun h => absurd (hsame ▸ h) hnodup⟩
    · refine fun _ _ _ _ => Or.inr (Or.inr fun hone => hnodup ?_)
      exact nodup_of_length_eq_one (hpiledUp.length_eq.trans (if_pos hone))

end Run

namespace Method

theorem run_cases_of_tie_eq_zero {p : Program ℚ} (hp : p.WholeObjectives) {m : Method ℚ}
    (htie : m.config.tolerances.tie = 0) (h0 : 0 ≤ m.config.tolerances.dominance)
    (h1 : m.config.tolerances.dominance < 1) (hcap : m.config.maxChords ≤ 2 ^ 32) {clock : Clock}
    (hnever : NeverOver m.config clock) (fmt : ReportFormat ℚ) (files : Files) {fuel : ℕ}
    (hfuel : 2 * 2 ^ p.dimension < fuel) :
    match (m.run fmt (Enumerator.oracle p) clock fuel (.ofProgram p none) files).result with
    | .ok c => Run.ConcludesPiled p m.config clock c.status c.frontier
    | .error _ => p.outcomes = ∅ ∨ p.paretoPoints.length ≠ 1 := by
  obtain ⟨short, hfills, hshort⟩ :
      ∃ short, Run.Fills p m.config clock none fuel short ∧ ¬short := by
    cases hcfg : m.config.strategy with
    | splitting => exact ⟨_, Run.fills_splitting hp hcfg clock none fuel, not_le.2 hfuel⟩
    | ranking => exact ⟨_, Run.fills_ranking hp hcfg clock none fuel, by omega⟩
  have hphases := Run.ensures_phases_of_tie_eq_zero hp htie h0 h1 hcap hnever hfills
  rw [run_result]
  exact Run.session_of_ensures (hphases.mono (fun _ _ _ h => h)
    fun _ _ _ h => h.imp_right fun h => h.resolve_left hshort)

/-- With a tolerance of zero for ties, a program with more than one Pareto outcome uses up all
chords, and each one has added a member to the supported list. A run in which no two of these
share their first objective is right nevertheless. Where the chords are not fewer than the
Pareto outcomes, this is the case only if there is a single one. -/
theorem run_tie_eq_zero {p : Program ℚ} (hp : p.WholeObjectives) (hfeasible : ∃ x, p.Feasible x)
    {m : Method ℚ} (htie : m.config.tolerances.tie = 0) (h0 : 0 ≤ m.config.tolerances.dominance)
    (h1 : m.config.tolerances.dominance < 1) (hcap : m.config.maxChords ≤ 2 ^ 32) {clock : Clock}
    (hnever : NeverOver m.config clock) (fmt : ReportFormat ℚ) (files : Files) {fuel : ℕ}
    (hfuel : 2 * 2 ^ p.dimension < fuel) :
    let ran := m.run fmt (Enumerator.oracle p) clock fuel (.ofProgram p none) files
    (∀ c, ran.result = .ok c →
      (c.frontier.supported.length =
        if p.paretoPoints.length = 1 then 1 else m.config.maxChords - 1 + 2) ∧
      ((c.frontier.supported.map (·.z1)).Nodup →
        c.status = .completed ∧ c.frontier.points = p.paretoPoints)) ∧
    (p.paretoPoints.length ≤ m.config.maxChords →
      ((∃ c, ran.result = .ok c ∧ c.status = .completed ∧
          c.frontier.points = p.paretoPoints ∧ (c.frontier.supported.map (·.z1)).Nodup) ↔
        p.paretoPoints.length = 1)) := by
  intro ran
  have hcases := run_cases_of_tie_eq_zero hp htie h0 h1 hcap hnever fmt files hfuel
  have hpiled : ∀ c, ran.result = .ok c →
      Run.ConcludesPiled p m.config clock c.status c.frontier := by
    intro c hrun
    dsimp only [ran] at hrun
    rw [hrun] at hcases
    exact hcases
  have hright : ∀ c, ran.result = .ok c → (c.frontier.supported.map (·.z1)).Nodup →
      c.status = .completed ∧ c.frontier.points = p.paretoPoints := by
    intro c hrun hnodup
    have hconcludes := (hpiled c hrun).concludes hnodup
    have hstatus := hconcludes.completed ⟨rfl, hnever⟩
    exact ⟨hstatus, hconcludes.points_eq hstatus⟩
  refine ⟨fun c hrun => ⟨(hpiled c hrun).length_eq, hright c hrun⟩, fun hfew => ⟨?_, ?_⟩⟩
  · rintro ⟨c, hrun, -, -, hnodup⟩
    by_contra hone
    have hlength := (hpiled c hrun).length_eq
    have hle := ((hpiled c hrun).chain hnodup).length_le_paretoPoints
    rw [if_neg hone] at hlength
    omega
  · intro hone
    cases hrun : ran.result with
    | error failure =>
        dsimp only [ran] at hrun
        rw [hrun] at hcases
        rcases hcases with hempty | hmany
        · exact absurd hempty (Program.outcomes_ne_empty hfeasible)
        · exact absurd hone hmany
    | ok c =>
        have hnodup := nodup_of_length_eq_one ((hpiled c hrun).length_eq.trans (if_pos hone))
        obtain ⟨hstatus, hpoints⟩ := hright c hrun hnodup
        exact ⟨c, rfl, hstatus, hpoints, hnodup⟩

/-- Three items, all of them Pareto, under both tolerances zero: what a run should give, this
one does not. -/
theorem run_tie_eq_zero_pickOne :
    let m : Method ℚ := { config := { Config.plain .splitting with tolerances := ⟨0, 0⟩ } }
    ¬∃ c, (m.run .bare (Enumerator.oracle pickOne) .still ampleFuel (.ofProgram pickOne none)
        .empty).result = .ok c ∧ c.status = .completed ∧
      c.frontier.points = pickOne.paretoPoints ∧ (c.frontier.supported.map (·.z1)).Nodup := by
  intro m
  have hcount : pickOne.paretoPoints.length = 3 := by rw [paretoPoints_pickOne]; rfl
  obtain ⟨-, hiff⟩ := run_tie_eq_zero (m := m) wholeObjectives_pickOne feasible_pickOne rfl le_rfl
    one_pos (by decide) (Config.neverOver_plain .splitting) .bare .empty
    (two_pow_lt_ampleFuel pickOne)
  rw [hiff (by rw [hcount]; decide), hcount]
  decide

end Method

end Biobjective
