import Biobjective.Oracle.Replay
import Biobjective.Proofs.Conduct

/-!
# The solves of the first phase

An anchor takes two solves. Each solve under a chord either adds a supported point or moves
on to the next chord, so the number of solves is the number of points added and of chords
passed. This holds for any answers: a point need not lie between the ends of the chord that
it was found under. `Supported.solves_phase` gives the number of solves of the whole phase
in terms of the number of its points.
-/

namespace Biobjective

open Phase

namespace Supported

section Counting

variable {K σ : Type}

/-- The number of supported points. -/
def points (p : Progress K) : ℕ := p.frontier.supported.length

/-- What examining at most `chords` chords from the one at `left` on comes to. The cursor ends
at the last point unless all the chords that are allowed were examined. -/
structure Counted (chords left : ℕ) (p : Progress K) (w : World K σ) (e : Ending K σ Unit) :
    Prop where
  solves_le : e.2.moment.solves ≤ w.moment.solves + chords
  solves_eq : e.1.1 = .ok () → ∃ last < points e.1.2,
    e.2.moment.solves + (points p + left) = w.moment.solves + (points e.1.2 + last) ∧
      points p ≤ points e.1.2 ∧
      (last + 1 = points e.1.2 ∨ e.2.moment.solves = w.moment.solves + chords)

variable {chords left left' : ℕ} {p p' : Progress K} {w w' : World K σ}

/-- A solve under a chord adds a point or passes the chord. -/
theorem Counted.step {e : Ending K σ Unit} (h : Counted chords left' p' w' e)
    (hsolves : w'.moment.solves = w.moment.solves + 1) (hle : points p ≤ points p')
    (hstep : points p' + left' = points p + left + 1) : Counted (chords + 1) left p w e := by
  obtain ⟨hbound, heq⟩ := h
  refine ⟨by omega, fun hok => ?_⟩
  obtain ⟨last, hlast, hcount, hpoints, hend⟩ := heq hok
  exact ⟨last, hlast, by omega, by omega, by omega⟩

theorem Counted.of_cut {cut : Cut} (hsolves : w'.moment.solves = w.moment.solves + 1) :
    Counted (chords + 1) left p w ((.error cut, p'), w') := by
  refine ⟨?_, fun hok => ?_⟩
  · change w'.moment.solves ≤ _
    omega
  · cases hok

theorem Counted.checkTime {o : Oracle K σ} {c : Clock} {limit : Duration} {next : Phase K Unit}
    (h : Counted chords left' p' (w'.time c).2 (hold o c next p' (w'.time c).2))
    (hsolves : w'.moment.solves = w.moment.solves + 1) (hle : points p ≤ points p')
    (hstep : points p' + left' = points p + left + 1) :
    Counted (chords + 1) left p w (hold o c (Phase.checkTime limit >>= fun _ => next) p' w') := by
  rw [hold_checkTime_bind]
  split
  · exact .of_cut hsolves
  · exact h.step hsolves hle hstep

/-- What the whole search comes to, if it may examine `chords` chords: four solves for the
anchors, and one for each point added and each chord passed after that. -/
structure Totalled (chords : ℕ) (w : World K σ) (e : Ending K σ Unit) : Prop where
  solves_le : e.2.moment.solves ≤ w.moment.solves + (4 + chords)
  solves_eq : e.1.1 = .ok () → 1 ≤ points e.1.2 ∧
    e.2.moment.solves = w.moment.solves + (4 + min (2 * points e.1.2 - 3) chords)

theorem Totalled.of_cut {cut : Cut} (hsolves : w'.moment.solves ≤ w.moment.solves + 4) :
    Totalled chords w ((.error cut, p'), w') := by
  refine ⟨?_, fun hok => ?_⟩
  · exact hsolves.trans (Nat.add_le_add_left (Nat.le_add_right 4 chords) _)
  · cases hok

theorem Totalled.of_counted {e : Ending K σ Unit} (h : Counted chords 0 p' w' e)
    (hpoints : points p' = 2) (hsolves : w'.moment.solves = w.moment.solves + 4) :
    Totalled chords w e := by
  refine ⟨?_, fun hok => ?_⟩
  · have hle := h.solves_le
    omega
  · obtain ⟨last, hlast, hcount, hle, hend⟩ := h.solves_eq hok
    have hbound := h.solves_le
    omega

end Counting

variable {K σ : Type} [Scalar K]

theorem refine_counted (o : Oracle K σ) (c : Clock) (cfg : Config K) (chords left : ℕ)
    (p : Progress K) (w : World K σ) (hleft : left < points p) :
    Counted chords left p w (hold o c (refine cfg chords left) p w) := by
  -- The cursor stays below the number of points: the next chord is examined only if there is
  -- a point after its start.
  induction chords generalizing left p w with
  | zero => exact ⟨Nat.le_refl _, fun _ => ⟨left, hleft, rfl, Nat.le_refl _, Or.inr rfl⟩⟩
  | succ chords ih =>
      rw [refine, hold_frontier_bind]
      dsimp only
      split
      next a b ha hb =>
        have hnext : left + 1 < points p := (List.getElem?_eq_some_iff.1 hb).1
        rw [hold_tell_bind, hold_solve_bind]
        cases p.work.record? ((w.tell o (.weights (a.chord b))).solve o).1.nodes with
        | none => exact .of_cut rfl
        | some work =>
            simp only [hold_demand_bind]
            cases ((w.tell o (.weights (a.chord b))).solve o).1 with
            | infeasible => exact .of_cut rfl
            | timedOut nodes => exact .of_cut rfl
            | optimal best =>
                simp only
                split
                · rw [hold_modifyFrontier_bind]
                  have hpoints : ∀ work, points
                      { frontier := p.frontier.insertSupported
                          (best.toSolution true cfg.keepDecisions), work } = points p + 1 :=
                    fun _ => length_insertSupported _ _
                  apply Counted.checkTime
                  · apply ih left
                    rw [hpoints]
                    exact Nat.lt_succ_of_lt hleft
                  · rfl
                  · rw [hpoints]
                    exact Nat.le_succ _
                  · rw [hpoints]
                    exact Nat.add_right_comm _ _ _
                · apply Counted.checkTime
                  · exact ih (left + 1) _ _ hnext
                  · rfl
                  · exact Nat.le_refl _
                  · rfl
      next hnone =>
        refine ⟨Nat.le_add_right _ _, fun _ => ⟨left, hleft, rfl, Nat.le_refl _, Or.inl ?_⟩⟩
        -- There is no second point from the cursor on, so the cursor is at the last one.
        have hlast : p.frontier.supported[left + 1]? = none := by
          by_contra hsome
          obtain ⟨b, hb⟩ := Option.ne_none_iff_exists'.1 hsome
          exact hnone _ b (List.getElem?_eq_getElem hleft) hb
        have hle := List.getElem?_eq_none_iff.1 hlast
        exact Nat.le_antisymm hleft hle

end Supported

theorem Anchor.solves_find {K σ : Type} [Scalar K] (o : Oracle K σ) (c : Clock) (cfg : Config K)
    (a : Anchor) (p : Progress K) (w : World K σ) :
    (hold o c (a.find cfg) p w).2.moment.solves ≤ w.moment.solves + 2 ∧
      ∀ s, (hold o c (a.find cfg) p w).1.1 = .ok s →
        (hold o c (a.find cfg) p w).2.moment.solves = w.moment.solves + 2 := by
  obtain ⟨tail, hadds, hdialogue⟩ := a.find_dialogue o c cfg p w
  rw [hadds.solves_eq]
  generalize (hold o c (a.find cfg) p w).1.1 = result at hdialogue
  cases hdialogue with
  | level answer cut => simp
  | broken level answer => simp
  | whole level answer result => simp

namespace Supported

variable {K σ : Type} [Scalar K]

theorem search_totalled (o : Oracle K σ) (c : Clock) (cfg : Config K) {p : Progress K}
    (hp : points p = 0) (w : World K σ) :
    Totalled (cfg.maxChords - 1) w (hold o c (search cfg) p w) := by
  have hupper := Anchor.solves_find o c cfg .upperLeft p w
  have hsame := Anchor.find_frontier o c cfg .upperLeft p w
  rw [search, hold_bind]
  generalize hold o c (Anchor.find cfg .upperLeft) p w = e1 at hupper hsame
  rcases e1 with ⟨⟨cut | upperLeft, p1⟩, w1⟩
  · exact .of_cut (hupper.1.trans (Nat.add_le_add_left (by decide) _))
  · have hsolves1 : w1.moment.solves = w.moment.solves + 2 := hupper.2 upperLeft rfl
    have hpoints1 : (p1.frontier.insertSupported upperLeft).supported.length = 1 := by
      rw [length_insertSupported, hsame]
      exact congrArg (· + 1) hp
    simp only [resume]
    rw [hold_modifyFrontier_bind, hold_checkTime_bind]
    split
    · exact .of_cut (hsolves1.le.trans (Nat.add_le_add_left (by decide) _))
    · rw [hold_bind]
      have hlower := Anchor.solves_find o c cfg .lowerRight
        { p1 with frontier := p1.frontier.insertSupported upperLeft } (w1.time c).2
      have hsame2 := Anchor.find_frontier o c cfg .lowerRight
        { p1 with frontier := p1.frontier.insertSupported upperLeft } (w1.time c).2
      rw [World.time_solves, hsolves1] at hlower
      generalize hold o c (Anchor.find cfg .lowerRight) _ _ = e2 at hlower hsame2
      rcases e2 with ⟨⟨cut | lowerRight, p2⟩, w2⟩
      · exact .of_cut hlower.1
      · have hsolves2 : w2.moment.solves = w.moment.solves + 4 := hlower.2 lowerRight rfl
        have hpoints2 : p2.frontier.supported.length = 1 := by
          rw [← hpoints1, hsame2]
        simp only [resume]
        split
        · -- The anchors coincide, and the second one is not added.
          have hone : points p2 = 1 := hpoints2
          refine ⟨hsolves2.le.trans (by omega), fun _ => ⟨hone.ge, ?_⟩⟩
          change w2.moment.solves = _ + (4 + min (2 * points p2 - 3) _)
          rw [hsolves2, hone, Nat.zero_min]
        · rw [hold_modifyFrontier_bind, hold_checkTime_bind]
          split
          · exact .of_cut hsolves2.le
          · have htwo : (p2.frontier.insertSupported lowerRight).supported.length = 2 := by
              rw [length_insertSupported, hpoints2]
            have hcounted := refine_counted o c cfg (cfg.maxChords - 1) 0
              { p2 with frontier := p2.frontier.insertSupported lowerRight } (w2.time c).2
              (Nat.lt_of_lt_of_eq Nat.zero_lt_two htwo.symm)
            exact .of_counted hcounted htwo hsolves2

theorem ok_of_conclude_completed {e : Ending K σ Unit}
    (h : (conclude e).1.1 = .ok .completed) :
    e.1.1 = .ok () ∧ (conclude e).1.2.frontier.supported = e.1.2.frontier.supported := by
  rcases e with ⟨⟨cut | _, p⟩, w⟩
  · cases cut <;> cases h
  · exact ⟨rfl, rfl⟩

/-- Whatever the oracle answers and the clock shows, the first phase makes at most
`4 + (max maxChords 1 - 1)` solves, and it counts each of them. A phase that completes with
`k` supported points makes four solves if `k` is one, and `4 + min (2 * k - 3) (max maxChords
1 - 1)` if there are more. -/
theorem solves_phase (o : Oracle K σ) (c : Clock) (cfg : Config K) (p : Progress K)
    (hp : p.frontier.supported = []) (w : World K σ) :
    let e := hold o c (phase cfg) p w
    let k := e.1.2.frontier.supported.length
    e.2.moment.solves ≤ w.moment.solves + (4 + (max cfg.maxChords 1 - 1)) ∧
    (e.1.1 ≠ .error .overflow →
      e.1.2.work.calls + w.moment.solves = p.work.calls + e.2.moment.solves) ∧
    (e.1.1 = .ok .completed →
      1 ≤ k ∧ (k = 1 → e.2.moment.solves = w.moment.solves + 4) ∧
      (2 ≤ k → e.2.moment.solves =
        w.moment.solves + (4 + min (2 * k - 3) (max cfg.maxChords 1 - 1)))) := by
  intro e k
  have hphase : e = conclude (hold o c (search cfg) p w) := hold_phase o c cfg p w
  have hworld : e.2 = (hold o c (search cfg) p w).2 := by rw [hphase, conclude_world]
  have hchords : max cfg.maxChords 1 - 1 = cfg.maxChords - 1 := by omega
  obtain ⟨hle, heq⟩ := search_totalled o c cfg (congrArg List.length hp) w
  rw [← hworld, ← hchords] at hle heq
  refine ⟨hle, fun hne => ?_, fun hcompleted => ?_⟩
  · obtain ⟨-, -, -, tail, htail⟩ := abides_phase o.vouches_trivial
      (Rules.allowsFirst_trivial cfg) c p w trivial trivial
    have hcalls : e.1.2.work.calls = p.work.calls + (answersOf tail).length :=
      Work.calls_of_tally? (htail.work hne)
    have hsolves : e.2.moment.solves = w.moment.solves + solveCount tail :=
      htail.adds.solves_eq
    rw [hcalls, hsolves, length_answersOf, Nat.add_right_comm, Nat.add_assoc]
  · rw [hphase] at hcompleted
    obtain ⟨hok, hsupported⟩ := ok_of_conclude_completed hcompleted
    have hpoints : points (hold o c (search cfg) p w).1.2 = k := by
      simp only [k, hphase, hsupported]
      rfl
    obtain ⟨hpos, htotal⟩ := heq hok
    rw [hpoints] at hpos htotal
    refine ⟨hpos, fun hone => ?_, fun _ => htotal⟩
    rw [htotal, hone, Nat.zero_min]

/-- Answers that are no optima of one program: the fifth one lies beyond the end of the chord
that it was found under. -/
def beyondChord : List (Recorded ℚ) :=
  [⟨0, 10⟩, ⟨0, 10⟩, ⟨10, 0⟩, ⟨10, 0⟩, ⟨12, -7⟩, ⟨0, 10⟩, ⟨10, 0⟩].map (.weighted · [] 1)

/-- Three points, and no limit on the chords that matters. -/
theorem solves_phase_beyondChord :
    let e := hold (Replay.oracle 1) .still (phase (.plain .splitting))
      { frontier := .empty (1 / 10) } (.start (.ofScript beyondChord))
    e.1.2.frontier.supported.length = 3 ∧ e.2.moment.solves = 7 ∧ e.1.2.work.calls = 7 := by
  intro e
  have hcompleted : e.1.1 = .ok .completed := by decide +kernel
  have hlength : e.1.2.frontier.supported.length = 3 := by decide +kernel
  obtain ⟨-, hcalls, hexact⟩ := solves_phase (Replay.oracle 1) .still (.plain .splitting)
    { frontier := .empty (1 / 10) } rfl (.start (.ofScript beyondChord))
  have hsolves : e.2.moment.solves = 7 := by
    rw [(hexact hcompleted).2.2 (by rw [hlength]; decide), hlength]
    rfl
  refine ⟨hlength, hsolves, ?_⟩
  rw [← hsolves]
  exact (hcalls (by rw [hcompleted]; nofun)).trans (Nat.zero_add _)

end Supported

end Biobjective
