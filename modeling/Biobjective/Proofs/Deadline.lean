import Biobjective.Method
import Biobjective.Proofs.Dialogue

/-!
# Two clocks

A phase is held twice with one oracle: with a clock under which time is never
over, and with one under which it is over from a solve on. Up to the first check
of the time after that solve both runs are the same. `Phase.Lockstep` compares the
two endings, and `Supported.phase_lockstep` says what the first phase comes to.
-/

namespace Biobjective

namespace Phase

variable {K σ α β : Type}

/-- What holding a phase ends with. -/
abbrev Ending (K σ α : Type) : Type := (Except Cut α × Progress K) × World K σ

def hold (o : Oracle K σ) (c : Clock) (x : Phase K α) (p : Progress K) (w : World K σ) :
    Ending K σ α :=
  (x p).exec o c w

/-- Goes on with another phase after an ending without a cut. -/
def resume (o : Oracle K σ) (c : Clock) (f : α → Phase K β) : Ending K σ α → Ending K σ β
  | ((.ok a, p), w) => hold o c (f a) p w
  | ((.error cut, p), w) => ((.error cut, p), w)

theorem hold_bind (o : Oracle K σ) (c : Clock) (x : Phase K α) (f : α → Phase K β)
    (p : Progress K) (w : World K σ) :
    hold o c (x >>= f) p w = resume o c f (hold o c x p w) := by
  rw [hold, hold, bind_def, Session.exec_bind]
  rcases (x p).exec o c w with ⟨⟨cut | a, p'⟩, w'⟩
  · rfl
  · rfl

theorem hold_pure (o : Oracle K σ) (c : Clock) (a : α) (p : Progress K) (w : World K σ) :
    hold o c (Pure.pure a) p w = ((.ok a, p), w) := rfl

theorem hold_tell_bind (o : Oracle K σ) (c : Clock) (d : Directive K) (f : Unit → Phase K β)
    (p : Progress K) (w : World K σ) :
    hold o c (tell d >>= f) p w = hold o c (f ()) p (w.tell o d) := rfl

theorem hold_frontier_bind (o : Oracle K σ) (c : Clock) (f : Frontier K → Phase K β)
    (p : Progress K) (w : World K σ) :
    hold o c (frontier >>= f) p w = hold o c (f p.frontier) p w := rfl

theorem hold_modifyFrontier_bind (o : Oracle K σ) (c : Clock) (g : Frontier K → Frontier K)
    (f : Unit → Phase K β) (p : Progress K) (w : World K σ) :
    hold o c (modifyFrontier g >>= f) p w =
      hold o c (f ()) { p with frontier := g p.frontier } w := rfl

theorem hold_solve_bind (o : Oracle K σ) (c : Clock) (f : Answer K → Phase K β)
    (p : Progress K) (w : World K σ) :
    hold o c (solve >>= f) p w =
      match p.work.record? (w.solve o).1.nodes with
      | some work => hold o c (f (w.solve o).1) { p with work } (w.solve o).2
      | none => ((.error .overflow, p), (w.solve o).2) := by
  rw [hold_bind, hold, solve, Session.exec]
  simp only
  cases p.work.record? (w.solve o).1.nodes with
  | none => rfl
  | some work => rfl

theorem hold_isOver_bind (o : Oracle K σ) (c : Clock) (limit : Duration) (f : Bool → Phase K β)
    (p : Progress K) (w : World K σ) :
    hold o c (isOver limit >>= f) p w =
      hold o c (f (decide (limit ≤ c w.moment))) p (w.time c).2 := rfl

theorem hold_checkTime_bind (o : Oracle K σ) (c : Clock) (limit : Duration)
    (f : Unit → Phase K β) (p : Progress K) (w : World K σ) :
    hold o c (checkTime limit >>= f) p w =
      if limit ≤ c w.moment then ((.error .timeout, p), (w.time c).2)
      else hold o c (f ()) p (w.time c).2 := by
  rw [hold_bind, checkTime, hold_isOver_bind]
  by_cases hover : limit ≤ c w.moment
  · rw [decide_eq_true hover, if_pos hover]
    rfl
  · rw [decide_eq_false hover, if_neg hover]
    rfl

theorem hold_demand_bind (o : Oracle K σ) (c : Clock) (stage : Stage) (a : Answer K)
    (f : Optimum K → Phase K β) (p : Progress K) (w : World K σ) :
    hold o c (demand stage a >>= f) p w =
      match a with
      | .optimal best => hold o c (f best) p w
      | .infeasible => ((.error (.infeasible stage), p), w)
      | .timedOut _ => ((.error .timeout, p), w) := by
  cases a with
  | optimal best => rfl
  | infeasible => rfl
  | timedOut nodes => rfl

theorem solves_le_hold (o : Oracle K σ) (c : Clock) (x : Phase K α) (p : Progress K)
    (w : World K σ) : w.moment.solves ≤ (hold o c x p w).2.moment.solves :=
  Session.solves_le_exec o c (x p) w

theorem solves_le_resume (o : Oracle K σ) (c : Clock) (f : α → Phase K β) (e : Ending K σ α) :
    e.2.moment.solves ≤ (resume o c f e).2.moment.solves := by
  rcases e with ⟨⟨cut | a, p⟩, w⟩
  · exact Nat.le_refl _
  · exact solves_le_hold o c (f a) p w

theorem solves_lt_hold_solve_bind (o : Oracle K σ) (c : Clock) (f : Answer K → Phase K β)
    (p : Progress K) (w : World K σ) {n : ℕ} (hn : w.moment.solves = n) :
    n < (hold o c (solve >>= f) p w).2.moment.solves := by
  rw [hold_solve_bind, ← hn]
  cases p.work.record? (w.solve o).1.nodes with
  | none => exact Nat.lt_succ_self _
  | some work => exact solves_le_hold o c (f (w.solve o).1) { p with work } (w.solve o).2

/-- Two endings are the same and `same` holds of it, or `late` holds of them. -/
def Lockstep (same : Ending K σ α → Prop) (late : Ending K σ α → Ending K σ α → Prop)
    (u l : Ending K σ α) : Prop :=
  (u = l ∧ same l) ∨ late u l

theorem Lockstep.bind {o : Oracle K σ} {free clock : Clock} {x : Phase K α} {f : α → Phase K β}
    {p : Progress K} {w : World K σ} {same : Ending K σ α → Prop} {same' : Ending K σ β → Prop}
    {late : Ending K σ α → Ending K σ α → Prop} {late' : Ending K σ β → Ending K σ β → Prop}
    (hx : Lockstep same late (hold o free x p w) (hold o clock x p w))
    (hcut : ∀ cut p1 w1, same ((.error cut, p1), w1) → same' ((.error cut, p1), w1))
    (hok : ∀ a p1 w1, hold o free x p w = ((.ok a, p1), w1) → same ((.ok a, p1), w1) →
      Lockstep same' late' (hold o free (f a) p1 w1) (hold o clock (f a) p1 w1))
    (hlate : ∀ u l, late u l → late' (resume o free f u) (resume o clock f l)) :
    Lockstep same' late' (hold o free (x >>= f) p w) (hold o clock (x >>= f) p w) := by
  rw [hold_bind, hold_bind]
  rcases hx with ⟨heq, hsame⟩ | hx
  · rw [← heq] at hsame ⊢
    rcases hfree : hold o free x p w with ⟨⟨cut | a, p1⟩, w1⟩
    · rw [hfree] at hsame
      exact Or.inl ⟨rfl, hcut cut p1 w1 hsame⟩
    · rw [hfree] at hsame
      exact hok a p1 w1 hfree hsame
  · exact Or.inr (hlate _ _ hx)

end Phase

/-- Time is never over under `free`, and under `clock` it is over from the `k`th solve
on. What `clock` shows before the first solve does not matter. -/
structure Expires (limit : Duration) (free clock : Clock) (k : ℕ) : Prop where
  never : ∀ t, ¬limit ≤ free t
  over_iff : ∀ t, 0 < t.solves → (limit ≤ clock t ↔ k ≤ t.solves)

theorem Clock.le_jump_iff {limit : Duration} (hlimit : ¬limit ≤ .zero) (n : ℕ) (t : Moment) :
    limit ≤ Clock.jump limit n t ↔ n ≤ t.solves := by
  rw [Clock.jump]
  by_cases hle : n ≤ t.solves
  · rw [if_pos hle]
    exact iff_of_true (Nat.le_refl _) hle
  · rw [if_neg hle]
    exact iff_of_false hlimit hle

/-- The second world has made `k` solves, and these are the first ones of the other. -/
structure World.Behind {K σ : Type} (k : ℕ) (u l : World K σ) : Prop where
  solves_eq : l.moment.solves = k
  le_solves : k ≤ u.moment.solves
  common : ∃ shared tail, shared <+: u.record.toList ∧ l.record.toList = shared ++ tail ∧
    solveCount tail = 0

namespace World.Behind

variable {K σ α : Type} {k : ℕ} {u l : World K σ}

theorem of_time {w : World K σ} (hw : w.moment.solves = k) (c c' : Clock) :
    Behind k (w.time c).2 (w.time c').2 :=
  ⟨hw, Nat.le_of_eq hw.symm, w.record.toList, [], List.prefix_refl _, (List.append_nil _).symm,
    rfl⟩

theorem exec_left (h : Behind k u l) (o : Oracle K σ) (c : Clock) (s : Session K α) :
    Behind k (s.exec o c u).2 l := by
  obtain ⟨shared, tail, hprefix, hrecord, htail⟩ := h.common
  exact ⟨h.solves_eq, Nat.le_trans h.le_solves (Session.solves_le_exec o c s u), shared, tail,
    hprefix.trans (Session.record_prefix_exec o c s u), hrecord, htail⟩

theorem exec_right (h : Behind k u l) (o : Oracle K σ) (c : Clock) (s : Session K α)
    (hsolves : (s.exec o c l).2.moment.solves = l.moment.solves) :
    Behind k u (s.exec o c l).2 := by
  obtain ⟨shared, tail, hprefix, hrecord, htail⟩ := h.common
  obtain ⟨tail', hrecord', hsolves', -⟩ := Session.exec_record o c s l
  refine ⟨hsolves.trans h.solves_eq, h.le_solves, shared, tail ++ tail', hprefix, ?_, ?_⟩
  · rw [hrecord', hrecord, List.append_assoc]
  · rw [solveCount_append, htail]
    omega

theorem tell_left (h : Behind k u l) (o : Oracle K σ) (d : Directive K) :
    Behind k (u.tell o d) l :=
  h.exec_left o .still (.tell d (.done ()))

theorem tell_right (h : Behind k u l) (o : Oracle K σ) (d : Directive K) :
    Behind k u (l.tell o d) :=
  h.exec_right o .still (.tell d (.done ())) rfl

theorem time_left (h : Behind k u l) (c : Clock) : Behind k (u.time c).2 l :=
  ⟨h.solves_eq, h.le_solves, h.common⟩

theorem time_right (h : Behind k u l) (c : Clock) : Behind k u (l.time c).2 :=
  ⟨h.solves_eq, h.le_solves, h.common⟩

/-- The solves of the world behind are the first `k` of the other, with the same
terms in force. -/
theorem asked_eq_take (h : Behind k u l) (hcount : solveCount l.record.toList = k)
    (t : Terms K) : asked t l.record.toList = (asked t u.record.toList).take k := by
  obtain ⟨shared, tail, ⟨rest, hu⟩, hrecord, htail⟩ := h.common
  have hshared : (asked t shared).length = k := by
    rw [hrecord, solveCount_append, htail] at hcount
    rw [length_asked]
    exact hcount
  rw [hrecord, ← hu, asked_append, asked_append, asked_eq_nil _ htail, List.append_nil,
    ← hshared, List.take_left]

end World.Behind

namespace Phase

variable {K σ α β : Type}

/-- The second ending was cut by time after `k` solves, and the first one has made
more solves, or is due to make more. -/
structure Trails (k : ℕ) (due : Except Cut α × Progress K → Prop) (u l : Ending K σ α) :
    Prop where
  cut_eq : l.1.1 = .error .timeout
  behind : World.Behind k u.2 l.2
  ahead : k < u.2.moment.solves ∨ due u.1

/-- At most `k` solves were made. -/
def Within (k : ℕ) (e : Ending K σ α) : Prop := 0 < e.2.moment.solves ∧ e.2.moment.solves ≤ k

/-- A part of a phase that has got ahead leaves the whole ahead. -/
theorem Trails.resume {k : ℕ} {o : Oracle K σ} {free clock : Clock} {f : α → Phase K β}
    {due : Except Cut β × Progress K → Prop} {u l : Ending K σ α}
    (h : Trails k (fun _ => False) u l) :
    Trails k due (Phase.resume o free f u) (Phase.resume o clock f l) := by
  obtain ⟨hcut, hbehind, hahead⟩ := h
  have hlt : k < u.2.moment.solves := hahead.resolve_right id
  rcases l with ⟨⟨cut | a, pl⟩, wl⟩
  · cases hcut
    refine ⟨rfl, ?_, Or.inl (Nat.lt_of_lt_of_le hlt (solves_le_resume o free f u))⟩
    rcases u with ⟨⟨cut' | a, pu⟩, wu⟩
    · exact hbehind
    · exact hbehind.exec_left o free (f a pu)
  · cases hcut

/-- A check of the time either changes nothing or cuts the run whose time is over. -/
theorem lockstep_checkTime {limit : Duration} {free clock : Clock} {k : ℕ}
    (h : Expires limit free clock k) {o : Oracle K σ} {f : Unit → Phase K β} {p : Progress K}
    {w : World K σ} {same : Ending K σ β → Prop} {due : Except Cut β × Progress K → Prop}
    (hpos : 0 < w.moment.solves) (hle : w.moment.solves ≤ k)
    (hbefore : w.moment.solves < k → Lockstep same (Trails k due)
      (hold o free (f ()) p (w.time free).2) (hold o clock (f ()) p (w.time free).2))
    (hafter : w.moment.solves = k →
      k < (hold o free (f ()) p (w.time free).2).2.moment.solves ∨
        due (hold o free (f ()) p (w.time free).2).1) :
    Lockstep same (Trails k due) (hold o free (checkTime limit >>= f) p w)
      (hold o clock (checkTime limit >>= f) p w) := by
  rw [hold_checkTime_bind, hold_checkTime_bind, if_neg (h.never _)]
  rcases Nat.lt_or_eq_of_le hle with hlt | heq
  · rw [if_neg (mt (h.over_iff _ hpos).1 (Nat.not_le.2 hlt))]
    exact hbefore hlt
  · rw [if_pos ((h.over_iff _ hpos).2 (Nat.le_of_eq heq.symm))]
    exact Or.inr ⟨rfl, (World.Behind.of_time heq free clock).exec_left o free (f () p), hafter heq⟩

end Phase

namespace Anchor

variable {K σ : Type} [Scalar K]

open Phase in
theorem solves_lt_find (o : Oracle K σ) (c : Clock) (cfg : Config K) (a : Anchor)
    (p : Progress K) (w : World K σ) :
    w.moment.solves < (hold o c (find cfg a) p w).2.moment.solves := by
  rw [find, hold_tell_bind]
  exact solves_lt_hold_solve_bind o c _ _ _ rfl

open Phase in
theorem find_frontier (o : Oracle K σ) (c : Clock) (cfg : Config K) (a : Anchor)
    (p : Progress K) (w : World K σ) :
    (hold o c (find cfg a) p w).1.2.frontier = p.frontier := by
  simp only [find, hold_tell_bind, hold_solve_bind, hold_demand_bind, hold_checkTime_bind]
  repeat' split
  all_goals rfl

open Phase in
theorem find_lockstep {cfg : Config K} {free clock : Clock} {k : ℕ}
    (h : Expires cfg.timeLimit free clock k) (o : Oracle K σ) (a : Anchor) (p : Progress K)
    (w : World K σ) (hw : w.moment.solves < k) :
    Lockstep (Within k) (Trails k fun _ => False) (hold o free (find cfg a) p w)
      (hold o clock (find cfg a) p w) := by
  rw [find, hold_tell_bind, hold_tell_bind, hold_solve_bind, hold_solve_bind]
  have hwithin : ∀ e, Within (α := Solution K) k
      (e, ((w.tell o (.weights a.levelWeights)).solve o).2) :=
    fun e => ⟨Nat.succ_pos _, hw⟩
  cases p.work.record? ((w.tell o (.weights a.levelWeights)).solve o).1.nodes with
  | none => exact Or.inl ⟨rfl, hwithin _⟩
  | some work =>
      simp only [hold_demand_bind]
      cases ((w.tell o (.weights a.levelWeights)).solve o).1 with
      | infeasible => exact Or.inl ⟨rfl, hwithin _⟩
      | timedOut nodes => exact Or.inl ⟨rfl, hwithin _⟩
      | optimal level =>
          refine lockstep_checkTime h (Nat.succ_pos _) hw (fun hlt => Or.inl ⟨?_, ?_⟩)
            (fun heq => Or.inl ?_)
          · simp only [hold_tell_bind, hold_solve_bind, hold_demand_bind, hold_pure]
          · simp only [hold_tell_bind, hold_solve_bind, hold_demand_bind, hold_pure]
            repeat' split
            all_goals exact ⟨Nat.succ_pos _, hlt⟩
          · rw [hold_tell_bind, hold_tell_bind]
            exact solves_lt_hold_solve_bind o free _ _ _ heq

end Anchor

namespace Supported

variable {K σ : Type} [Scalar K]

/-- The search ended well, with a gap between supported points. -/
def Spanned (e : Except Cut Unit × Progress K) : Prop :=
  e.1 = .ok () ∧ 2 ≤ e.2.frontier.supported.length

theorem length_insertSupported (f : Frontier K) (s : Solution K) :
    (f.insertSupported s).supported.length = f.supported.length + 1 :=
  (f.perm_insertSupported s).length_eq

open Phase in
/-- Examining chords makes a solve, or there is nothing to examine. -/
theorem refine_cases (o : Oracle K σ) (c : Clock) (cfg : Config K) (chords left : ℕ)
    (p : Progress K) (w : World K σ) :
    w.moment.solves < (hold o c (refine cfg chords left) p w).2.moment.solves ∨
      hold o c (refine cfg chords left) p w = ((.ok (), p), w) := by
  cases chords with
  | zero => exact Or.inr rfl
  | succ chords =>
      rw [refine, hold_frontier_bind]
      dsimp only
      split
      · refine Or.inl ?_
        rw [hold_tell_bind]
        exact solves_lt_hold_solve_bind o c _ _ _ rfl
      · exact Or.inr rfl

open Phase in
theorem refine_ahead (o : Oracle K σ) (c : Clock) (cfg : Config K) (chords left : ℕ)
    {p : Progress K} (hp : 2 ≤ p.frontier.supported.length) {w : World K σ} {k : ℕ}
    (hw : w.moment.solves = k) :
    k < (hold o c (refine cfg chords left) p w).2.moment.solves ∨
      Spanned (hold o c (refine cfg chords left) p w).1 := by
  rcases refine_cases o c cfg chords left p w with hlt | heq
  · exact Or.inl (hw ▸ hlt)
  · rw [heq]
    exact Or.inr ⟨rfl, hp⟩

open Phase in
theorem refine_lockstep {cfg : Config K} {free clock : Clock} {k : ℕ}
    (h : Expires cfg.timeLimit free clock k) (o : Oracle K σ) (chords left : ℕ)
    (p : Progress K) {w : World K σ} (hpos : 0 < w.moment.solves) (hw : w.moment.solves < k) :
    Lockstep (Within k) (Trails k Spanned) (hold o free (refine cfg chords left) p w)
      (hold o clock (refine cfg chords left) p w) := by
  -- Fewer than `k` solves before each chord: the check after its solve hands that on to
  -- the next chord, or else cuts the run whose time is over.
  induction chords generalizing left p w with
  | zero => exact Or.inl ⟨rfl, hpos, Nat.le_of_lt hw⟩
  | succ chords ih =>
      rw [refine, hold_frontier_bind, hold_frontier_bind]
      dsimp only
      split
      next a b ha hb =>
        have hlength : 2 ≤ p.frontier.supported.length := by
          have hlt := (List.getElem?_eq_some_iff.1 hb).1
          omega
        rw [hold_tell_bind, hold_tell_bind, hold_solve_bind, hold_solve_bind]
        have hwithin : ∀ e : Except Cut Unit × Progress K, Within k
            (e, ((w.tell o (.weights (a.chord b))).solve o).2) :=
          fun e => ⟨Nat.succ_pos _, hw⟩
        cases p.work.record? ((w.tell o (.weights (a.chord b))).solve o).1.nodes with
        | none => exact Or.inl ⟨rfl, hwithin _⟩
        | some work =>
            simp only [hold_demand_bind]
            cases ((w.tell o (.weights (a.chord b))).solve o).1 with
            | infeasible => exact Or.inl ⟨rfl, hwithin _⟩
            | timedOut nodes => exact Or.inl ⟨rfl, hwithin _⟩
            | optimal best =>
                simp only
                split
                · rw [hold_modifyFrontier_bind, hold_modifyFrontier_bind]
                  refine lockstep_checkTime h (Nat.succ_pos _) hw
                    (fun hlt => ih left _ (Nat.succ_pos _) hlt)
                    (fun heq => refine_ahead o free cfg _ _ ?_ heq)
                  rw [length_insertSupported]
                  exact Nat.le_succ_of_le hlength
                · refine lockstep_checkTime h (Nat.succ_pos _) hw
                    (fun hlt => ih (left + 1) _ (Nat.succ_pos _) hlt)
                    (fun heq => refine_ahead o free cfg _ _ ?_ heq)
                  exact hlength
      next => exact Or.inl ⟨rfl, hpos, Nat.le_of_lt hw⟩

open Phase in
theorem search_lockstep {cfg : Config K} {free clock : Clock} {k : ℕ}
    (h : Expires cfg.timeLimit free clock k) (o : Oracle K σ) (p : Progress K) {w : World K σ}
    (hw : w.moment.solves < k) :
    Lockstep (Within k) (Trails k Spanned) (hold o free (search cfg) p w)
      (hold o clock (search cfg) p w) := by
  rw [search]
  refine (Anchor.find_lockstep h o .upperLeft p w hw).bind (fun _ _ _ hin => hin) ?_
    fun _ _ hlate => hlate.resume
  rintro upperLeft p1 w1 - hin
  -- The check between the anchors comes before the second anchor's solves, so a run that
  -- is cut there is always overtaken.
  rw [hold_modifyFrontier_bind, hold_modifyFrontier_bind]
  refine lockstep_checkTime h hin.1 hin.2 (fun hlt => ?_) (fun heq => Or.inl ?_)
  · have hfind := Anchor.find_lockstep h o .lowerRight
      { p1 with frontier := p1.frontier.insertSupported upperLeft } (w1.time free).2 hlt
    refine hfind.bind (fun _ _ _ hin => hin) ?_ fun _ _ hlate => hlate.resume
    intro lowerRight p2 w2 hfound hin
    split
    · exact Or.inl ⟨rfl, hin⟩
    · -- Refining need not make a solve, but then two supported points are left.
      rw [hold_modifyFrontier_bind, hold_modifyFrontier_bind]
      refine lockstep_checkTime h hin.1 hin.2 (fun hlt => refine_lockstep h o _ _ _ hin.1 hlt)
        (fun heq => refine_ahead o free cfg _ _ ?_ heq)
      have hfrontier := Anchor.find_frontier o free cfg .lowerRight
        { p1 with frontier := p1.frontier.insertSupported upperLeft } (w1.time free).2
      rw [hfound] at hfrontier
      change p2.frontier = p1.frontier.insertSupported upperLeft at hfrontier
      rw [length_insertSupported, hfrontier, length_insertSupported]
      exact Nat.le_add_left 2 _
  · rw [hold_bind, ← heq]
    exact Nat.lt_of_lt_of_le (Anchor.solves_lt_find o free cfg _ _ (w1.time free).2)
      (solves_le_resume o free _ _)

/-- How the search of the first phase amounts to the phase. -/
def conclude : Phase.Ending K σ Unit → Phase.Ending K σ Status
  | ((.ok (), p), w) => ((.ok .completed, { p with frontier := p.frontier.retainSupported }), w)
  | ((.error .timeout, p), w) =>
    ((.ok .partly, { p with frontier := p.frontier.retainSupported }), w)
  | ((.error cut, p), w) => ((.error cut, p), w)

open Phase in
theorem hold_phase (o : Oracle K σ) (c : Clock) (cfg : Config K) (p : Progress K)
    (w : World K σ) : hold o c (phase cfg) p w = conclude (hold o c (search cfg) p w) := by
  rw [hold, hold, phase, Session.exec_bind]
  rcases (search cfg p).exec o c w with ⟨⟨cut | _, p'⟩, w'⟩
  · cases cut <;> rfl
  · rfl

@[simp] theorem conclude_world (e : Phase.Ending K σ Unit) : (conclude e).2 = e.2 := by
  rcases e with ⟨⟨cut | _, p⟩, w⟩
  · cases cut <;> rfl
  · rfl

/-- The second run has ended the first phase for want of time after `k` solves, and
the other one has made more solves, or has found a gap in which to make more. -/
structure Outrun (k : ℕ) (u l : Phase.Ending K σ Status) : Prop where
  partly : l.1.1 = .ok .partly
  behind : World.Behind k u.2 l.2
  ahead : k < u.2.moment.solves ∨
    (u.1.1 = .ok .completed ∧ 2 ≤ u.1.2.frontier.supported.length)

open Phase in
theorem phase_lockstep {cfg : Config K} {free clock : Clock} {k : ℕ}
    (h : Expires cfg.timeLimit free clock k) (o : Oracle K σ) (p : Progress K) {w : World K σ}
    (hw : w.moment.solves < k) :
    Lockstep (Within k) (Outrun k) (hold o free (phase cfg) p w)
      (hold o clock (phase cfg) p w) := by
  rw [hold_phase, hold_phase]
  have hsearch := search_lockstep h o p hw
  generalize hold o free (search cfg) p w = u at hsearch
  generalize hold o clock (search cfg) p w = l at hsearch
  rcases hsearch with ⟨rfl, hin⟩ | ⟨hcut, hbehind, hahead⟩
  · refine Or.inl ⟨rfl, ?_⟩
    rw [Within, conclude_world]
    exact hin
  · refine Or.inr ⟨?_, ?_, ?_⟩
    · rcases l with ⟨⟨cut | _, p'⟩, w'⟩
      · cases hcut
        rfl
      · cases hcut
    · rw [conclude_world, conclude_world]
      exact hbehind
    · rw [conclude_world]
      refine hahead.imp_right ?_
      rcases u with ⟨⟨cut | _, p'⟩, w'⟩
      · rintro ⟨hok, -⟩
        cases hok
      · rintro ⟨-, hlength⟩
        exact ⟨rfl, hlength⟩

end Supported

namespace Run

variable {K σ : Type} [Scalar K]

/-- The first phase of a run from a fresh world. -/
def firstPhase (cfg : Config K) (o : Oracle K σ) (c : Clock) (s : σ) : Phase.Ending K σ Status :=
  Phase.hold o c (Supported.phase cfg) { frontier := .empty cfg.tolerances.dominance } (.start s)

/-- What a run does after its first phase. -/
def rest (cfg : Config K) (dimension fuel : ℕ) :
    Except Cut Status × Progress K → Session K (Except Failure (Conclusion K))
  | (.error cut, _) => .done (.error cut.failure)
  | (.ok first, p) => .clock fun phaseOneTime =>
    (secondPhase cfg dimension fuel p).bind fun
      | (.error cut, _) => .done (.error cut.failure)
      | (.ok second, p') => .clock fun totalTime =>
        .done (.ok
          { status := first.and second
            frontier := p'.frontier
            statistics := statistics dimension p.frontier.size phaseOneTime totalTime p' })

theorem session_eq (cfg : Config K) {dimension : ℕ} (hdim : dimension ≠ 0) (fuel : ℕ) :
    session cfg dimension fuel =
      (Supported.phase cfg { frontier := .empty cfg.tolerances.dominance }).bind
        (rest cfg dimension fuel) := by
  rw [session, if_neg hdim, phases, Phase.bind_def, Session.bind_assoc]
  refine congrArg _ (funext fun e => ?_)
  rcases e with ⟨cut | first, p⟩
  · rfl
  · refine congrArg Session.clock (funext fun phaseOneTime => ?_)
    refine (Session.bind_assoc (secondPhase cfg dimension fuel p) _ _).trans
      (congrArg _ (funext fun e => ?_))
    rcases e with ⟨cut | second, p'⟩
    · rfl
    · rfl

theorem exec_session (cfg : Config K) (o : Oracle K σ) (hdim : o.dimension ≠ 0) (c : Clock)
    (fuel : ℕ) (s : σ) :
    (session cfg o.dimension fuel).exec o c (.start s) =
      (rest cfg o.dimension fuel (firstPhase cfg o c s).1).exec o c (firstPhase cfg o c s).2 := by
  rw [session_eq cfg hdim, Session.exec_bind]
  rfl

theorem exec_rest (cfg : Config K) (o : Oracle K σ) (c : Clock) (dimension fuel : ℕ)
    (first : Status) (p : Progress K) (w : World K σ) :
    (rest cfg dimension fuel (.ok first, p)).exec o c w =
      match Phase.hold o c (secondPhase cfg dimension fuel) p (w.time c).2 with
      | ((.error cut, _), w') => (.error cut.failure, w')
      | ((.ok second, p'), w') =>
        (.ok
          { status := first.and second
            frontier := p'.frontier
            statistics :=
              statistics dimension p.frontier.size (c w.moment) (c w'.moment) p' },
          (w'.time c).2) := by
  rw [rest, Session.exec]
  dsimp only [World.time]
  rw [Session.exec_bind, Phase.hold]
  rcases (secondPhase cfg dimension fuel p).exec o c _ with ⟨⟨cut | second, p'⟩, w'⟩
  · rfl
  · rfl

end Run

end Biobjective
