import Biobjective.Phase
import Biobjective.Proofs.Solve

/-!
# Reasoning about phases

`Phase.Ensures` says how a phase ends when it is held with an oracle and a
clock from a given progress and world: with a result for which `ok` holds, or
with a cut for which `err` holds. Each way of building a phase has one rule.
A phase always ends, so `Ensures` is about the one ending there is.

With an enumerator, `InForce` gives the directives that are in force, and the
rule for a solve hands on what the answer says about the admitted masks. Room
in the node counter is counted in solves: a solve takes at most one unit, the
number of all masks.
-/

namespace Biobjective

namespace Phase

/-- Held from `p` and `w`, the phase ends with a result for which `ok` holds or
with a cut for which `err` holds. -/
def Ensures {K σ α : Type} (o : Oracle K σ) (c : Clock) (x : Phase K α) (p : Progress K)
    (w : World K σ) (ok : α → Progress K → World K σ → Prop)
    (err : Cut → Progress K → World K σ → Prop) : Prop :=
  match (x p).exec o c w with
  | ((.ok a, p), w) => ok a p w
  | ((.error cut, p), w) => err cut p w

section Rules

variable {K σ α β : Type} {o : Oracle K σ} {c : Clock} {p : Progress K} {w : World K σ}
variable {ok : α → Progress K → World K σ → Prop} {err : Cut → Progress K → World K σ → Prop}

theorem Ensures.mono {x : Phase K α} {ok' : α → Progress K → World K σ → Prop}
    {err' : Cut → Progress K → World K σ → Prop} (h : Ensures o c x p w ok err)
    (hok : ∀ a p w, ok a p w → ok' a p w) (herr : ∀ cut p w, err cut p w → err' cut p w) :
    Ensures o c x p w ok' err' := by
  unfold Ensures at h ⊢
  split at h
  · exact hok _ _ _ h
  · exact herr _ _ _ h

theorem Ensures.and {x : Phase K α} {ok' : α → Progress K → World K σ → Prop}
    {err' : Cut → Progress K → World K σ → Prop} (h : Ensures o c x p w ok err)
    (h' : Ensures o c x p w ok' err') :
    Ensures o c x p w (fun a p w => ok a p w ∧ ok' a p w)
      (fun cut p w => err cut p w ∧ err' cut p w) := by
  unfold Ensures at h h' ⊢
  split
  next hexec =>
    rw [hexec] at h h'
    exact ⟨h, h'⟩
  next hexec =>
    rw [hexec] at h h'
    exact ⟨h, h'⟩

theorem ensures_pure (a : α) :
    Ensures o c (Pure.pure a : Phase K α) p w ok err ↔ ok a p w := Iff.rfl

theorem ensures_cut (cut : Cut) :
    Ensures o c (Phase.cut cut : Phase K α) p w ok err ↔ err cut p w := Iff.rfl

theorem ensures_bind (x : Phase K β) (f : β → Phase K α) :
    Ensures o c (x >>= f) p w ok err ↔
      Ensures o c x p w (fun b p w => Ensures o c (f b) p w ok err) err := by
  unfold Ensures
  rw [bind_def, Session.exec_bind]
  rcases (x p).exec o c w with ⟨⟨_ | _, _⟩, _⟩
  · rfl
  · rfl

theorem Ensures.bind {x : Phase K β} {f : β → Phase K α}
    {mid : β → Progress K → World K σ → Prop} (hx : Ensures o c x p w mid err)
    (hf : ∀ b p w, mid b p w → Ensures o c (f b) p w ok err) : Ensures o c (x >>= f) p w ok err :=
  (ensures_bind x f).2 (hx.mono hf fun _ _ _ h => h)

/-- A phase that looks at the ending of another one goes on from there. -/
theorem ensures_handle (x : Phase K β)
    (f : Except Cut β × Progress K → Session K (Except Cut α × Progress K)) :
    Ensures o c (fun p => (x p).bind f) p w ok err ↔
      Ensures o c x p w (fun b p w => Ensures o c (fun p => f (.ok b, p)) p w ok err)
        fun cut p w => Ensures o c (fun p => f (.error cut, p)) p w ok err := by
  unfold Ensures
  rw [Session.exec_bind]
  rcases (x p).exec o c w with ⟨⟨_ | _, _⟩, _⟩
  · rfl
  · rfl

/-- A phase that looks at its progress goes on with what it saw. -/
theorem ensures_look (f : Progress K → Phase K α) :
    Ensures o c (fun p => f p p) p w ok err ↔ Ensures o c (f p) p w ok err := Iff.rfl

theorem ensures_tell (d : Directive K) {ok : Unit → Progress K → World K σ → Prop} :
    Ensures o c (Phase.tell d) p w ok err ↔ ok () p (w.tell o d) := Iff.rfl

theorem ensures_solve_iff {ok : Answer K → Progress K → World K σ → Prop} :
    Ensures o c Phase.solve p w ok err ↔
      match p.work.record? (w.solve o).1.nodes with
      | some work => ok (w.solve o).1 { p with work } (w.solve o).2
      | none => err .overflow p (w.solve o).2 := by
  unfold Ensures
  simp only [Phase.solve, Session.exec]
  cases p.work.record? (w.solve o).1.nodes with
  | none => rfl
  | some work => rfl

theorem ensures_elapsed {ok : Duration → Progress K → World K σ → Prop} :
    Ensures o c Phase.elapsed p w ok err ↔ ok (c w.moment) p (w.time c).2 := Iff.rfl

theorem ensures_isOver (limit : Duration) {ok : Bool → Progress K → World K σ → Prop} :
    Ensures o c (Phase.isOver limit) p w ok err ↔
      ok (decide (limit ≤ c w.moment)) p (w.time c).2 := Iff.rfl

theorem ensures_checkTime (limit : Duration) {ok : Unit → Progress K → World K σ → Prop} :
    Ensures o c (Phase.checkTime limit) p w ok err ↔
      if limit ≤ c w.moment then err .timeout p (w.time c).2 else ok () p (w.time c).2 := by
  rw [Phase.checkTime, ensures_bind, ensures_isOver]
  by_cases h : limit ≤ c w.moment
  · rw [if_pos h, decide_eq_true h]
    rfl
  · rw [if_neg h, decide_eq_false h]
    rfl

theorem ensures_frontier {ok : Frontier K → Progress K → World K σ → Prop} :
    Ensures o c Phase.frontier p w ok err ↔ ok p.frontier p w := Iff.rfl

theorem ensures_modifyFrontier (f : Frontier K → Frontier K)
    {ok : Unit → Progress K → World K σ → Prop} :
    Ensures o c (Phase.modifyFrontier f) p w ok err ↔
      ok () { p with frontier := f p.frontier } w := Iff.rfl

theorem ensures_demand_optimal (stage : Stage) (a : Optimum K)
    {ok : Optimum K → Progress K → World K σ → Prop} :
    Ensures o c (Phase.demand stage (.optimal a)) p w ok err ↔ ok a p w := Iff.rfl

theorem ensures_demand_infeasible (stage : Stage)
    {ok : Optimum K → Progress K → World K σ → Prop} :
    Ensures o c (Phase.demand stage .infeasible) p w ok err ↔ err (.infeasible stage) p w :=
  Iff.rfl

theorem ensures_demand_timedOut (stage : Stage) (nodes : ℕ)
    {ok : Optimum K → Progress K → World K σ → Prop} :
    Ensures o c (Phase.demand stage (.timedOut nodes)) p w ok err ↔ err .timeout p w := Iff.rfl

end Rules

-- From here on the rules say all there is to know, and unification runs no phase.
attribute [irreducible] Ensures

end Phase

/-- The progress after an answer was counted. -/
def Progress.count (q : Progress ℚ) (a : Answer ℚ) : Progress ℚ :=
  { q with work := ⟨q.work.calls + 1, q.work.nodes + a.nodes⟩ }

@[simp] theorem Progress.count_frontier (q : Progress ℚ) (a : Answer ℚ) :
    (q.count a).frontier = q.frontier := rfl

/-- The node counter has room for `k` more solves. -/
def Progress.Room (q : Progress ℚ) (p : Program ℚ) (k : ℕ) : Prop :=
  q.work.nodes + 2 ^ p.dimension * k < Work.nodeBound

theorem Progress.Room.mono {q : Progress ℚ} {p : Program ℚ} {j k : ℕ} (h : q.Room p k)
    (hjk : j ≤ k) : q.Room p j :=
  lt_of_le_of_lt (Nat.add_le_add_left (Nat.mul_le_mul_left _ hjk) _) h

/-- A fresh counter holds what any run of the method can need. -/
theorem Progress.room_start (p : Program ℚ) (f : Frontier ℚ) {k : ℕ}
    (hk : k ≤ 8 * 2 ^ p.dimension + 8) : ({ frontier := f } : Progress ℚ).Room p k := by
  have hdim : 2 ^ p.dimension ≤ 2 ^ 25 := Nat.pow_le_pow_right (by decide) p.c1_length_le
  have hprod : 2 ^ p.dimension * k ≤ 2 ^ 25 * (8 * 2 ^ 25 + 8) :=
    Nat.mul_le_mul hdim (hk.trans (Nat.add_le_add_right (Nat.mul_le_mul_left 8 hdim) 8))
  rw [Progress.Room, Nat.zero_add]
  exact lt_of_le_of_lt hprod (by decide)

/-- The world's enumerator is `e`, whatever the number of its solves. -/
def InForce (e : Enumerator ℚ) (w : World ℚ (Enumerator ℚ)) : Prop :=
  ∃ solves, w.oracle = { e with solves }

namespace InForce

theorem tell {e : Enumerator ℚ} {w : World ℚ (Enumerator ℚ)} (h : InForce e w) (p : Program ℚ)
    (d : Directive ℚ) : InForce (e.follow d) (w.tell (Enumerator.oracle p) d) := by
  obtain ⟨solves, h⟩ := h
  refine ⟨solves, ?_⟩
  change w.oracle.follow d = _
  rw [h]
  rcases d with _ | ⟨_ | _, _⟩ | (_ | _) | _ <;> rfl

theorem time {e : Enumerator ℚ} {w : World ℚ (Enumerator ℚ)} (h : InForce e w) (c : Clock) :
    InForce e (w.time c).2 := h

theorem solve {e : Enumerator ℚ} {w : World ℚ (Enumerator ℚ)} (h : InForce e w)
    (p : Program ℚ) : InForce e (w.solve (Enumerator.oracle p)).2 := by
  obtain ⟨solves, h⟩ := h
  refine ⟨solves + 1, ?_⟩
  change { w.oracle with solves := w.oracle.solves + 1 } = _
  rw [h]

theorem answer_eq {e : Enumerator ℚ} {w : World ℚ (Enumerator ℚ)} (h : InForce e w)
    (p : Program ℚ) : (w.solve (Enumerator.oracle p)).1 = e.answer := by
  obtain ⟨solves, h⟩ := h
  change w.oracle.answer = _
  rw [h]
  rfl

end InForce

theorem Enumerator.Answers.nodes_le {e : Enumerator ℚ} {a : Answer ℚ} (h : e.Answers a) :
    a.nodes ≤ 2 ^ e.program.dimension := by
  cases h with
  | optimal mask _ _ => exact le_rfl
  | infeasible _ => exact Nat.zero_le _
  | timedOut nodes hle _ => exact hle

/-- A solve with room in the counter is answered and counted. -/
theorem Phase.ensures_solve {p : Program ℚ} {c : Clock} {e : Enumerator ℚ}
    {w : World ℚ (Enumerator ℚ)} {q : Progress ℚ} {k : ℕ}
    {ok : Answer ℚ → Progress ℚ → World ℚ (Enumerator ℚ) → Prop}
    {err : Cut → Progress ℚ → World ℚ (Enumerator ℚ) → Prop}
    (hw : InForce e w) (hroom : q.Room e.program (k + 1))
    (h : ∀ a w', e.Answers a → InForce e w' → (q.count a).Room e.program k →
      ok a (q.count a) w') :
    Ensures (Enumerator.oracle p) c Phase.solve q w ok err := by
  have hanswers : e.Answers (w.solve (Enumerator.oracle p)).1 := by
    rw [hw.answer_eq p]
    exact e.answers_answer
  have hnodes := hanswers.nodes_le
  have hroom' : (q.count (w.solve (Enumerator.oracle p)).1).Room e.program k := by
    simp only [Progress.Room, Progress.count, Nat.mul_succ] at hroom ⊢
    omega
  have hfits : q.work.nodes + (w.solve (Enumerator.oracle p)).1.nodes < Work.nodeBound :=
    lt_of_le_of_lt (Nat.le_add_right _ _) hroom'
  have hrecord : q.work.record? (w.solve (Enumerator.oracle p)).1.nodes =
      some (q.count (w.solve (Enumerator.oracle p)).1).work := if_pos hfits
  have hexec : (Phase.solve q).exec (Enumerator.oracle p) c w =
      ((.ok (w.solve (Enumerator.oracle p)).1, q.count (w.solve (Enumerator.oracle p)).1),
        (w.solve (Enumerator.oracle p)).2) := by
    simp only [Phase.solve, Session.exec, hrecord]
    rfl
  unfold Ensures
  rw [hexec]
  exact h _ _ hanswers (hw.solve p) hroom'

/-- A solve is answered, and the answer is counted unless it overflows the counter. -/
theorem Phase.ensures_solve_of {p : Program ℚ} {c : Clock} {e : Enumerator ℚ}
    {w : World ℚ (Enumerator ℚ)} {q : Progress ℚ}
    {ok : Answer ℚ → Progress ℚ → World ℚ (Enumerator ℚ) → Prop}
    {err : Cut → Progress ℚ → World ℚ (Enumerator ℚ) → Prop} (hw : InForce e w)
    (herr : ∀ w', err .overflow q w')
    (h : ∀ a work w', e.Answers a → InForce e w' → ok a { q with work } w') :
    Ensures (Enumerator.oracle p) c Phase.solve q w ok err := by
  rw [ensures_solve_iff]
  split
  · apply h
    · rw [hw.answer_eq p]
      exact e.answers_answer
    · exact hw.solve p
  · exact herr _

end Biobjective
