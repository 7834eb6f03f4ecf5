import Biobjective.Proofs.AnchorSearch
import Biobjective.Proofs.Chain

/-!
# What the first phase finds

From the first anchor on, the list of supported points is a `Chain`, a staircase
of supported outcomes, and stays one under every chord that is examined: a point
below a chord lies between its ends, so it is inserted right behind the cursor.
With both anchors in it, the list is `Refining`: the chords in front of the
cursor have nothing below them.

Each solve either lengthens the list or moves the cursor on, which bounds the
solves and tells the place of the cursor from their number.
-/

namespace Biobjective

namespace Supported

/-- What the first phase leaves behind at every point: a chain, the rest of the
frontier `f` as it was, room for `k` solves and no exclusion. -/
structure Keeps (p : Program ℚ) (limit? : Option ℕ) (k : ℕ) (f : Frontier ℚ) (q : Progress ℚ)
    (w : World ℚ (Enumerator ℚ)) : Prop where
  chain : Chain p q.frontier.supported
  frontier_eq : q.frontier = { f with supported := q.frontier.supported }
  room : q.Room p k
  unexcluding : Excluding p limit? [] w

/-- How a refinement of `chords` chords from the cursor `left` on ends: each
solve lengthened the list or moved the cursor, and the cursor is at the end of
the list unless all chords were used up. -/
structure Refined (p : Program ℚ) (chords left : ℕ) (q q' : Progress ℚ) : Prop where
  length_le : q.frontier.supported.length ≤ q'.frontier.supported.length
  refining : ∃ left', Refining p left' q'.frontier.supported ∧
    q'.work.calls + (q.frontier.supported.length + left) =
      q.work.calls + (q'.frontier.supported.length + left') ∧
    (q'.frontier.supported.length ≤ left' + 1 ∨ q'.work.calls = q.work.calls + chords)

theorem Keeps.of_supported {p : Program ℚ} {limit? : Option ℕ} {k : ℕ} {f : Frontier ℚ}
    {l : List (Solution ℚ)} {q : Progress ℚ} {w : World ℚ (Enumerator ℚ)}
    (h : Keeps p limit? k { f with supported := l } q w) : Keeps p limit? k f q w :=
  ⟨h.chain, h.frontier_eq, h.room, h.unexcluding⟩

theorem Keeps.of_frontier_eq {p : Program ℚ} {limit? : Option ℕ} {k : ℕ} {f : Frontier ℚ}
    {l : List (Solution ℚ)} {q : Progress ℚ} {w : World ℚ (Enumerator ℚ)}
    (hf : q.frontier = { f with supported := l }) (hchain : Chain p l) (hroom : q.Room p k)
    (hw : Excluding p limit? [] w) : Keeps p limit? k f q w := by
  have hl : q.frontier.supported = l := by rw [hf]
  exact ⟨hl ▸ hchain, hl ▸ hf, hroom, hw⟩

theorem Refined.step {p : Program ℚ} {chords left left' : ℕ} {q q' q'' : Progress ℚ}
    (h : Refined p chords left' q' q'') (hcalls : q'.work.calls = q.work.calls + 1)
    (hlen : q.frontier.supported.length ≤ q'.frontier.supported.length)
    (hmove : q'.frontier.supported.length + left' = q.frontier.supported.length + left + 1) :
    Refined p (chords + 1) left q q'' := by
  obtain ⟨hle, place, hrefining, hcount, hend⟩ := h
  refine ⟨hlen.trans hle, place, hrefining, by omega, hend.imp_right fun h => ?_⟩
  omega

/-- Under the weights of a chord, the optimum is a new supported point between
the ends, or there is nothing below the chord. -/
theorem between_or_saturated {p : Program ℚ} (hp : p.WholeObjectives) {tie : ℚ} (h0 : 0 < tie)
    (h1 : tie ≤ 1 / 2) {a b : Solution ℚ} (ha : p.IsSupported a.toPoint)
    (hb : p.IsSupported b.toPoint) (hab : Descends a.toPoint b.toPoint) {best : Optimum ℚ}
    (hbest : IsBest p (a.chord b) .unbounded .unbounded best) :
    (best.value ≤ (a.chord b).value a.toPoint - tie ∧ p.IsSupported best.toPoint ∧
        Descends a.toPoint best.toPoint ∧ Descends best.toPoint b.toPoint) ∨
      (¬best.value ≤ (a.chord b).value a.toPoint - tie ∧ Saturated p a b) := by
  have hleast : ∀ y ∈ p.outcomes, best.value ≤ (a.chord b).value y :=
    fun y hy => hbest.value_le y hy (by simp) (by simp)
  by_cases hbelow : best.value ≤ (a.chord b).value a.toPoint - tie
  · have hlt : (a.chord b).value best.toPoint < (a.chord b).value a.toPoint := by
      rw [← hbest.value_eq]
      linarith
    obtain ⟨hleft, hright⟩ := ha.between hb hab hbest.mem hlt
    refine Or.inl ⟨hbelow, ⟨hbest.mem, a.chord b, sub_pos.2 hab.2, sub_pos.2 hab.1, ?_⟩,
      hleft, hright⟩
    intro y hy
    rw [← hbest.value_eq]
    exact hleast y hy
  · refine Or.inr ⟨hbelow, fun y hy => ?_⟩
    have hwhole : IsWhole best.value := by
      rw [hbest.value_eq]
      exact isWhole_chord_value (hp.whole ha.mem) (hp.whole hb.mem) (hp.whole hbest.mem)
    have hlevel : (a.chord b).value a.toPoint ≤ best.value :=
      (isWhole_chord_value (hp.whole ha.mem) (hp.whole hb.mem)
        (hp.whole ha.mem)).le_of_lt_add_one hwhole (by linarith)
    exact hlevel.trans (hleast y hy)

/-- A point between two neighbours of a chain is inserted between them. -/
theorem insertSupported_between {p : Program ℚ} {f : Frontier ℚ} {xs ys : List (Solution ℚ)}
    {a b s : Solution ℚ} (hf : f.supported = xs ++ a :: b :: ys) (hchain : Chain p f.supported)
    (has : Descends a.toPoint s.toPoint) (hsb : Descends s.toPoint b.toPoint) :
    f.insertSupported s = { f with supported := xs ++ a :: s :: b :: ys } := by
  rw [hf] at hchain
  obtain ⟨-, hrest, hcross⟩ := List.pairwise_append.1 hchain.descends
  obtain ⟨-, hrest⟩ := List.pairwise_cons.1 hrest
  have hsplit : f.supported = (xs ++ [a]) ++ b :: ys := by
    rw [hf]
    simp
  have hbefore : ∀ x ∈ xs ++ [a], x.z1 < s.z1 := by
    intro x hx
    rcases List.mem_append.1 hx with hx | hx
    · exact (hcross x hx a List.mem_cons_self).1.trans has.1
    · rw [List.mem_singleton.1 hx]
      exact has.1
  have hbehind : ∀ y ∈ b :: ys, s.z1 ≤ y.z1 := by
    intro y hy
    rcases List.mem_cons.1 hy with rfl | hy
    · exact hsb.1.le
    · exact (hsb.1.trans ((List.pairwise_cons.1 hrest).1 y hy).1).le
  rw [Frontier.insertSupported_append hsplit s hbefore hbehind]
  simp

/-- What one solve does to the list: it lengthens it behind the cursor or moves
the cursor. -/
theorem examine {p : Program ℚ} (hp : p.WholeObjectives) {tie : ℚ} (h0 : 0 < tie)
    (h1 : tie ≤ 1 / 2) {f : Frontier ℚ} {xs ys : List (Solution ℚ)} {a b s : Solution ℚ}
    (hf : f.supported = xs ++ a :: b :: ys) (h : Refining p xs.length f.supported)
    {best : Optimum ℚ} (hbest : IsBest p (a.chord b) .unbounded .unbounded best)
    (hs : s.toPoint = best.toPoint) :
    (best.value ≤ (a.chord b).value a.toPoint - tie ∧
        ∃ l, f.insertSupported s = { f with supported := l } ∧
          l.length = f.supported.length + 1 ∧ Refining p xs.length l) ∨
      (¬best.value ≤ (a.chord b).value a.toPoint - tie ∧
        Refining p (xs.length + 1) f.supported) := by
  have hinsert := insertSupported_between (s := s) hf h.chain
  rw [hf] at h ⊢
  have hab : Descends a.toPoint b.toPoint := by
    obtain ⟨-, hpair, -⟩ := List.pairwise_append.1 h.chain.descends
    exact (List.pairwise_cons.1 hpair).1 b List.mem_cons_self
  have ha : p.IsSupported a.toPoint := h.chain.supported a (by simp)
  have hb : p.IsSupported b.toPoint := h.chain.supported b (by simp)
  rcases between_or_saturated hp h0 h1 ha hb hab hbest with
    ⟨hbelow, hsupported, has, hsb⟩ | ⟨hbelow, hsat⟩
  · rw [← hs] at hsupported has hsb
    refine Or.inl ⟨hbelow, _, hinsert has hsb, ?_, h.insert hsupported has hsb⟩
    simp only [List.length_append, List.length_cons]
    omega
  · exact Or.inr ⟨hbelow, h.advance hsat⟩

open Phase in
/-- The solves of a refinement are counted by the length of the list and the
place of the cursor, and both stay below the number of masks. -/
theorem ensures_refine {p : Program ℚ} (hp : p.WholeObjectives) {cfg : Config ℚ}
    (h0 : 0 < cfg.tolerances.tie) (h1 : cfg.tolerances.tie ≤ 1 / 2) {c : Clock}
    {limit? : Option ℕ} {k : ℕ} (chords : ℕ) {left : ℕ} {weights : Weights ℚ} {q : Progress ℚ}
    {w : World ℚ (Enumerator ℚ)} (hq : Refining p left q.frontier.supported)
    (hw : InForce (asking p limit? weights .unbounded .unbounded) w)
    (hroom : q.Room p (k + ((2 ^ p.dimension - q.frontier.supported.length) +
      (2 ^ p.dimension - 1 - left)))) :
    Ensures (Enumerator.oracle p) c (refine cfg chords left) q w
      (fun _ q' w' => Keeps p limit? k q.frontier q' w' ∧ Refined p chords left q q')
      (fun cut q' w' => Keeps p limit? k q.frontier q' w' ∧ Excused p cfg c limit? cut) := by
  induction chords generalizing left weights q w with
  | zero =>
      rw [refine, ensures_pure]
      exact ⟨⟨hq.chain, rfl, hroom.mono (Nat.le_add_right _ _), _, _, _, hw⟩,
        le_rfl, left, hq, rfl, Or.inr rfl⟩
  | succ chords ih =>
      obtain ⟨xs, a, ys, hl, rfl, -⟩ := hq.cursor
      have hleft : q.frontier.supported[xs.length]? = some a := by
        rw [hl]
        simp
      have hnext : q.frontier.supported[xs.length + 1]? = ys.head? := by
        rw [hl, List.getElem?_append_right (Nat.le_add_right _ _), Nat.add_sub_cancel_left,
          List.getElem?_cons_succ, List.head?_eq_getElem?]
      simp only [refine, ensures_bind, ensures_frontier, hleft, hnext]
      cases ys with
      | nil =>
          rw [List.head?_nil, ensures_pure]
          refine ⟨⟨hq.chain, rfl, hroom.mono (Nat.le_add_right _ _), _, _, _, hw⟩,
            le_rfl, xs.length, hq, rfl, Or.inl ?_⟩
          rw [hl]
          simp
      | cons b ys =>
          have hlength : q.frontier.supported.length = xs.length + ys.length + 2 := by
            rw [hl]
            simp only [List.length_append, List.length_cons]
            omega
          have hN := hq.chain.length_le
          have hroom' : q.Room p ((k + ((2 ^ p.dimension - q.frontier.supported.length) +
              (2 ^ p.dimension - 1 - (xs.length + 1)))) + 1) := by
            refine hroom.mono ?_
            omega
          simp only [List.head?_cons, ensures_bind, ensures_tell]
          refine ensures_solve (e := asking p limit? (a.chord b) .unbounded .unbounded)
            (hw.tell p _) hroom' ?_
          intro answer w1 hanswer hw1 hroom1
          rcases outcome_of_answers hanswer with
            ⟨best, rfl, hbest⟩ | ⟨rfl, hnone⟩ | ⟨nodes, rfl, hlim⟩
          · rw [ensures_demand_optimal]
            rcases examine (s := best.toSolution true cfg.keepDecisions) hp h0 h1 hl hq hbest rfl
              with ⟨hbelow, l, hinsert, hlen, hrefining⟩ | ⟨hbelow, hrefining⟩
            · have hN' := hrefining.chain.length_le
              rw [if_pos hbelow, ensures_bind, ensures_modifyFrontier, ensures_bind,
                Progress.count_frontier, hinsert]
              refine ensures_checkTime_of (fun h => ⟨⟨hrefining.chain, rfl,
                hroom1.mono (Nat.le_add_right _ _), _, _, _, hw1⟩, .timeout h⟩) ?_
              refine (ih (q := ⟨⟨_, _, _, _⟩, _⟩) hrefining (hw1.time c) (hroom1.mono ?_)).mono ?_ ?_
              · simp only [hlen]
                omega
              · rintro - q' w' ⟨hkeeps, hrefined⟩
                refine ⟨hkeeps.of_supported, hrefined.step rfl ?_ ?_⟩
                · exact hlen ▸ Nat.le_succ _
                · simp only [hlen]
                  omega
              · rintro cut q' w' ⟨hkeeps, hexcused⟩
                exact ⟨hkeeps.of_supported, hexcused⟩
            · rw [if_neg hbelow, ensures_bind]
              refine ensures_checkTime_of (fun h => ⟨⟨hq.chain, rfl,
                hroom1.mono (Nat.le_add_right _ _), _, _, _, hw1⟩, .timeout h⟩) ?_
              refine (ih (q := q.count (.optimal best)) hrefining (hw1.time c) hroom1).mono ?_
                fun _ _ _ h => h
              rintro - q' w' ⟨hkeeps, hrefined⟩
              exact ⟨hkeeps, hrefined.step rfl le_rfl rfl⟩
          · obtain ⟨s, -, hs⟩ := hq.anchored.head
            exact absurd ⟨by simp, by simp⟩ (hnone _ hs.mem)
          · rw [ensures_demand_timedOut]
            exact ⟨⟨hq.chain, rfl, hroom1.mono (Nat.le_add_right _ _), _, _, _, hw1⟩,
              .timeout (not_unhindered_of_limit hlim)⟩

/-- How a search of the first phase ends: with the anchors at both ends, and
with a cursor that is at the end of the list unless all chords were used up.
Four solves were for the anchors. -/
def Searched (p : Program ℚ) (cfg : Config ℚ) (q q' : Progress ℚ) : Prop :=
  ∃ left, Refining p left q'.frontier.supported ∧
    q'.work.calls = q.work.calls + 4 + (q'.frontier.supported.length - 2) + left ∧
    (q'.frontier.supported.length ≤ left + 1 ∨
      q'.work.calls = q.work.calls + 4 + (cfg.maxChords - 1))

theorem Searched.anchored {p : Program ℚ} {cfg : Config ℚ} {q q' : Progress ℚ}
    (h : Searched p cfg q q') : Anchored p q'.frontier.supported := by
  obtain ⟨left, hrefining, -⟩ := h
  exact hrefining.anchored

theorem Refined.searched {p : Program ℚ} {cfg : Config ℚ} {q q1 q' : Progress ℚ}
    (h : Refined p (cfg.maxChords - 1) 0 q1 q') (hcalls : q1.work.calls = q.work.calls + 4)
    (hlen : q1.frontier.supported.length = 2) : Searched p cfg q q' := by
  obtain ⟨hle, left, hrefining, hcount, hend⟩ := h
  refine ⟨left, hrefining, by omega, hend.imp_right fun h => ?_⟩
  omega

/-- The anchors agree if their first objectives do, and otherwise they descend. -/
theorem anchors_eq_or_descend {p : Program ℚ} (hp : p.WholeObjectives) {tie : ℚ} (h0 : 0 ≤ tie)
    (h1 : tie ≤ 1 / 2) {a b : Point ℚ} (ha : p.IsLexMin .first a) (hb : p.IsLexMin .second b) :
    (Scalar.magnitude (b.z1 - a.z1) ≤ tie ∧ a = b) ∨
      (¬Scalar.magnitude (b.z1 - a.z1) ≤ tie ∧ Descends a b) := by
  rw [Scalar.magnitude_rat]
  have hab := ha.lex b hb.mem
  have hba := hb.lex a ha.mem
  simp only [Objective.of, Objective.other] at hab hba
  rcases hab with hlt | ⟨heq, hle⟩
  · have hstep : a.z1 + 1 ≤ b.z1 :=
      (hp.whole ha.mem).z1.add_one_le_of_lt (hp.whole hb.mem).z1 hlt
    refine Or.inr ⟨?_, hlt, ?_⟩
    · rw [abs_of_pos (sub_pos.2 hlt)]
      linarith
    · rcases hba with hlt2 | ⟨-, hle⟩
      · exact hlt2
      · exact absurd hlt (not_lt.2 hle)
  · refine Or.inl ⟨?_, Point.eq_of_of .first heq ?_⟩
    · rw [heq, sub_self, abs_zero]
      exact h0
    · rcases hba with hlt | ⟨heq2, -⟩
      · exact absurd hlt (not_lt.2 hle)
      · exact heq2.symm

open Phase in
/-- The search finds the anchors with four solves and refines the chord between
them. -/
theorem ensures_search {p : Program ℚ} (hp : p.WholeObjectives) {cfg : Config ℚ}
    (h0 : 0 < cfg.tolerances.tie) (h1 : cfg.tolerances.tie ≤ 1 / 2) {c : Clock}
    {limit? : Option ℕ} {k : ℕ} {weights : Weights ℚ} {q : Progress ℚ}
    {w : World ℚ (Enumerator ℚ)} (hnil : q.frontier.supported = [])
    (hw : InForce (asking p limit? weights .unbounded .unbounded) w)
    (hroom : q.Room p (k + 2 * 2 ^ p.dimension + 4)) :
    Ensures (Enumerator.oracle p) c (search cfg) q w
      (fun _ q' w' => Keeps p limit? k q.frontier q' w' ∧ Searched p cfg q q')
      (fun cut q' w' => Keeps p limit? k q.frontier q' w' ∧ Excused p cfg c limit? cut) := by
  simp only [search, ensures_bind, ensures_modifyFrontier]
  have hN : 0 < 2 ^ p.dimension := Nat.two_pow_pos _
  refine (Anchor.ensures_find hp h0.le h1 .upperLeft hw hroom).mono ?_ ?_
  · rintro ul q1 w1 ⟨hul, hf1, hcalls1, hroom1, weights1, hw1⟩
    have hsul : p.IsSupported ul.toPoint := hul.isSupported hp
    obtain ⟨q2, hq2⟩ : ∃ q2 : Progress ℚ, q2 = ⟨{ q.frontier with supported := [ul] }, q1.work⟩ :=
      ⟨_, rfl⟩
    have hinsert1 : (⟨q1.frontier.insertSupported ul, q1.work⟩ : Progress ℚ) = q2 := by
      have hsplit : q.frontier.supported = [] ++ [] := hnil
      rw [hq2, hf1, Frontier.insertSupported_append hsplit ul (by simp) (by simp)]
      rfl
    have hf2 : q2.frontier = { q.frontier with supported := [ul] } := by rw [hq2]
    have hcalls2 : q2.work.calls = q.work.calls + 2 := by rw [hq2, ← hcalls1]
    have hroom2 : q2.Room p (k + 2 * 2 ^ p.dimension + 2) := by
      rw [hq2]
      exact hroom1
    rw [hinsert1]
    refine ensures_checkTime_of (fun h => ⟨.of_frontier_eq hf2 (.singleton hsul)
      (hroom2.mono (by omega)) ⟨_, _, _, hw1⟩, .timeout h⟩) ?_
    refine (Anchor.ensures_find hp h0.le h1 .lowerRight (hw1.time c) hroom2).mono ?_ ?_
    · rintro lr q3 w3 ⟨hlr, hf3, hcalls3, hroom3, weights3, hw3⟩
      rw [hf2] at hf3
      rw [hcalls2] at hcalls3
      have hslr : p.IsSupported lr.toPoint := hlr.isSupported hp
      have hlist : q3.frontier.supported = [ul] := by rw [hf3]
      rcases anchors_eq_or_descend hp h0.le h1 hul hlr with ⟨htie, heq⟩ | ⟨htie, hdesc⟩
      · rw [if_pos htie, ensures_pure]
        refine ⟨.of_frontier_eq hf3 (.singleton hsul) (hroom3.mono (by omega)) ⟨_, _, _, hw3⟩,
          0, ?_, ?_⟩
        · rw [hlist]
          exact ⟨.singleton hsul, .singleton hul (heq ▸ hlr), .start p ul []⟩
        · rw [hlist]
          exact ⟨hcalls3, Or.inl le_rfl⟩
      · rw [if_neg htie, ensures_bind, ensures_modifyFrontier, ensures_bind]
        have hinsert3 : q3.frontier.insertSupported lr =
            { q.frontier with supported := [ul, lr] } := by
          have hsplit : q3.frontier.supported = [ul] ++ [] := hlist
          rw [Frontier.insertSupported_append hsplit lr (by simpa using hdesc.1) (by simp), hf3]
          rfl
        have hpair : Refining p 0 [ul, lr] :=
          ⟨.pair hsul hslr hdesc, .pair hul hlr, .start p ul [lr]⟩
        rw [hinsert3]
        refine ensures_checkTime_of (fun h => ⟨.of_frontier_eq rfl hpair.chain
          (hroom3.mono (by omega)) ⟨_, _, _, hw3⟩, .timeout h⟩) ?_
        refine (ensures_refine (k := k) (q := ⟨{ q.frontier with supported := [ul, lr] }, q3.work⟩)
          hp h0 h1 (cfg.maxChords - 1) hpair (hw3.time c) (hroom3.mono ?_)).mono ?_ ?_
        · omega
        · rintro - q' w' ⟨hkeeps, hrefined⟩
          exact ⟨hkeeps.of_supported, hrefined.searched hcalls3 rfl⟩
        · rintro cut q' w' ⟨hkeeps, hexcused⟩
          exact ⟨hkeeps.of_supported, hexcused⟩
    · rintro cut q3 w3 ⟨hf3, hroom3, hw3, hexcused⟩
      exact ⟨.of_frontier_eq (hf3.trans hf2) (.singleton hsul) (hroom3.mono (by omega)) hw3,
        hexcused⟩
  · rintro cut q1 w1 ⟨hf1, hroom1, hw1, hexcused⟩
    refine ⟨.of_frontier_eq (l := []) ?_ .nil (hroom1.mono (by omega)) hw1, hexcused⟩
    rw [hf1, ← hnil]

/-- How the first phase ends: a chain is retained, the one that a search ends
with if the phase is complete, and only a hindrance leaves it incomplete. -/
structure Ended (p : Program ℚ) (cfg : Config ℚ) (c : Clock) (limit? : Option ℕ) (k : ℕ)
    (q : Progress ℚ) (status : Status) (q' : Progress ℚ) (w' : World ℚ (Enumerator ℚ)) : Prop where
  chain : Chain p q'.frontier.supported
  all_eq : q'.frontier.all = q'.frontier.supported
  eps_eq : q'.frontier.eps = q.frontier.eps
  room : q'.Room p k
  unexcluding : Excluding p limit? [] w'
  searched : status = .completed → Searched p cfg q q'
  completed : Unhindered cfg c limit? → status = .completed

theorem Keeps.ended {p : Program ℚ} {cfg : Config ℚ} {c : Clock} {limit? : Option ℕ} {k : ℕ}
    {q q' : Progress ℚ} {w' : World ℚ (Enumerator ℚ)} {status : Status}
    (h : Keeps p limit? k q.frontier q' w') (hsearched : status = .completed → Searched p cfg q q')
    (hcompleted : Unhindered cfg c limit? → status = .completed) :
    Ended p cfg c limit? k q status { q' with frontier := q'.frontier.retainSupported } w' := by
  refine ⟨h.chain, rfl, ?_, h.room, h.unexcluding, hsearched, hcompleted⟩
  change q'.frontier.eps = q.frontier.eps
  rw [h.frontier_eq]

open Phase in
theorem ensures_phase {p : Program ℚ} (hp : p.WholeObjectives) {cfg : Config ℚ}
    (h0 : 0 < cfg.tolerances.tie) (h1 : cfg.tolerances.tie ≤ 1 / 2) {c : Clock}
    {limit? : Option ℕ} {k : ℕ} {weights : Weights ℚ} {q : Progress ℚ}
    {w : World ℚ (Enumerator ℚ)} (hnil : q.frontier.supported = [])
    (hw : InForce (asking p limit? weights .unbounded .unbounded) w)
    (hroom : q.Room p (k + 2 * 2 ^ p.dimension + 4)) :
    Ensures (Enumerator.oracle p) c (phase cfg) q w (Ended p cfg c limit? k q)
      (fun cut _ _ => ∃ stage, cut = .infeasible stage ∧ p.outcomes = ∅) := by
  refine (ensures_handle _ _).2 ((ensures_search hp h0 h1 hnil hw hroom).mono ?_ ?_)
  · rintro - q' w' ⟨hkeeps, hsearched⟩
    unfold Ensures
    exact hkeeps.ended (fun _ => hsearched) fun _ => rfl
  · rintro cut q' w' ⟨hkeeps, hexcused⟩
    unfold Ensures
    cases hexcused with
    | timeout hhindered => exact hkeeps.ended (fun h => nomatch h) fun h => absurd h hhindered
    | infeasible stage hempty => exact ⟨stage, rfl, hempty⟩

end Supported

end Biobjective
