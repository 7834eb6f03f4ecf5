import Biobjective.Proofs.Ensures
import Biobjective.Proofs.ExactSolve
import Biobjective.Proofs.Question
import Biobjective.Proofs.RegionTree
import Biobjective.Proofs.UpdateOrder
import Biobjective.Splitting

/-!
# The order of the queue

When an oracle answers by the terms in force alone, the second phase by splitting
asks about the boxes of a fixed tree for each pair of supported neighbours. The
order of the queue decides only in which order the boxes of a tree come up. The
solves, the work and the retained solutions do not depend on it:
`Splitting.drain_makes` says what a queue comes to in terms of its trees, and
`Splitting.phase_queueOrder_irrelevant` compares two orders.
-/

namespace Biobjective

namespace Work

theorem record?_bind_comm (w : Work) (m n : ℕ) :
    (w.record? m).bind (·.record? n) = (w.record? n).bind (·.record? m) := by
  simp only [record?]
  by_cases hmn : w.nodes + m + n < nodeBound
  · have hm : w.nodes + m < nodeBound := by omega
    have hn : w.nodes + n < nodeBound := by omega
    simp only [hm, hn, hmn, if_true, Option.bind_some, Nat.add_right_comm]
  · have hnm : ¬w.nodes + n + m < nodeBound := by omega
    split_ifs <;> simp [hmn, hnm]

/-- Counts the nodes of answers one by one. -/
def tally? {K : Type} (w : Work) (answers : List (Answer K)) : Option Work :=
  answers.foldlM (fun w a => w.record? a.nodes) w

@[simp] theorem tally?_nil {K : Type} (w : Work) : w.tally? ([] : List (Answer K)) = some w := rfl

theorem tally?_cons {K : Type} (w : Work) (a : Answer K) (answers : List (Answer K)) :
    w.tally? (a :: answers) = (w.record? a.nodes).bind (·.tally? answers) := by
  rw [tally?, List.foldlM_cons]
  rfl

theorem tally?_append {K : Type} (w : Work) (answers answers' : List (Answer K)) :
    w.tally? (answers ++ answers') = (w.tally? answers).bind (·.tally? answers') := by
  rw [tally?, List.foldlM_append]
  rfl

theorem tally?_perm {K : Type} (w : Work) {answers answers' : List (Answer K)}
    (h : answers.Perm answers') : w.tally? answers = w.tally? answers' := by
  induction h generalizing w with
  | nil => rfl
  | cons a _ ih =>
      rw [tally?_cons, tally?_cons]
      exact Option.bind_congr fun v _ => ih v
  | swap a b answers =>
      simp only [tally?_cons, ← Option.bind_assoc, w.record?_bind_comm]
  | trans _ _ ih ih' => rw [ih, ih']

end Work

/-- Answers that never give up and whose optima are whole points in the ranges. -/
structure WholeReply (reply : Terms ℚ → Answer ℚ) : Prop where
  not_timedOut : ∀ u nodes, reply u ≠ .timedOut nodes
  whole : ∀ u best, reply u = .optimal best → best.toPoint.Whole
  first : ∀ u best, reply u = .optimal best → u.first.allows best.z1 = true
  second : ∀ u best, reply u = .optimal best → u.second.allows best.z2 = true

/-- The terms with the ranges of a box. -/
def Terms.boxed (weights : Weights ℚ) (exclusions : List (List (Literal ℚ))) (r : Region ℚ) :
    Terms ℚ :=
  ⟨weights, r.range .first, r.range .second, exclusions⟩

/-- The answers about boxes under fixed weights and exclusions. -/
def boxReply (reply : Terms ℚ → Answer ℚ) (weights : Weights ℚ)
    (exclusions : List (List (Literal ℚ))) (r : Region ℚ) : Answer ℚ :=
  reply (.boxed weights exclusions r)

theorem WholeReply.truthful {reply : Terms ℚ → Answer ℚ} (h : WholeReply reply)
    (weights : Weights ℚ) (exclusions : List (List (Literal ℚ))) :
    Region.Truthful (boxReply reply weights exclusions) := by
  refine ⟨fun r nodes => h.not_timedOut _ nodes, fun r best _ hask => h.whole _ best hask,
    fun r best hr hask => ?_⟩
  exact (hr.allows_iff (h.whole _ best hask)).1 ⟨h.first _ best hask, h.second _ best hask⟩

/-- The solves for a queue of boxes and the boxes below them. -/
def boxQuestions (reply : Terms ℚ → Answer ℚ) (weights : Weights ℚ)
    (exclusions : List (List (Literal ℚ))) (queue : List (Region ℚ)) :
    List (Terms ℚ × Answer ℚ) :=
  (queue.flatMap (Region.visits (boxReply reply weights exclusions))).map fun r =>
    (.boxed weights exclusions r, boxReply reply weights exclusions r)

/-- The solutions that solves bring. -/
def solutionsOf (keepDecisions : Bool) (questions : List (Terms ℚ × Answer ℚ)) :
    List (Solution ℚ) :=
  questions.filterMap fun x => x.2.solution? keepDecisions

theorem solutionsOf_append (keepDecisions : Bool) (questions questions' : List (Terms ℚ × Answer ℚ)) :
    solutionsOf keepDecisions (questions ++ questions') =
      solutionsOf keepDecisions questions ++ solutionsOf keepDecisions questions' :=
  List.filterMap_append

theorem solutionsOf_boxQuestions (keepDecisions : Bool) (reply : Terms ℚ → Answer ℚ)
    (weights : Weights ℚ) (exclusions : List (List (Literal ℚ))) (queue : List (Region ℚ)) :
    solutionsOf keepDecisions (boxQuestions reply weights exclusions queue) =
      queue.flatMap (Region.finds (boxReply reply weights exclusions) keepDecisions) := by
  rw [solutionsOf, boxQuestions, List.filterMap_map, List.filterMap_flatMap]
  rfl

/-- A frontier of descending whole points with a tolerance below one. -/
structure Frontier.Tidy (f : Frontier ℚ) : Prop where
  stairs : WholeStairs f.all
  eps_nonneg : 0 ≤ f.eps
  eps_lt_one : f.eps < 1

theorem Frontier.Tidy.update {f : Frontier ℚ} (h : f.Tidy) {s : Solution ℚ}
    (hs : s.toPoint.Whole) : (f.update s).2.Tidy := by
  refine ⟨?_, ?_, ?_⟩
  · rw [update_all]
    exact stairs_absorb (Solution.sharp_whole h.eps_nonneg h.eps_lt_one) h.stairs hs
  · rw [update_eps]
    exact h.eps_nonneg
  · rw [update_eps]
    exact h.eps_lt_one

/-- What solves make of a progress and a world. -/
structure Performed {σ : Type} (keepDecisions : Bool) (t : Terms ℚ)
    (questions : List (Terms ℚ × Answer ℚ)) (q : Progress ℚ) (w : World ℚ σ) (q' : Progress ℚ)
    (w' : World ℚ σ) : Prop where
  all_eq : q'.frontier.all =
    (solutionsOf keepDecisions questions).foldl (Frontier.absorb q.frontier.eps) q.frontier.all
  eps_eq : q'.frontier.eps = q.frontier.eps
  work_eq : q.work.tally? (questions.map Prod.snd) = some q'.work
  questions_perm : (w'.questions t).Perm (w.questions t ++ questions)

namespace Performed

variable {σ : Type} {keepDecisions : Bool} {t : Terms ℚ}

theorem refl (q : Progress ℚ) (w : World ℚ σ) : Performed keepDecisions t [] q w q w :=
  ⟨rfl, rfl, rfl, by rw [List.append_nil]⟩

theorem trans {questions questions' : List (Terms ℚ × Answer ℚ)} {q q1 q2 : Progress ℚ}
    {w w1 w2 : World ℚ σ} (h : Performed keepDecisions t questions q w q1 w1)
    (h' : Performed keepDecisions t questions' q1 w1 q2 w2) :
    Performed keepDecisions t (questions ++ questions') q w q2 w2 := by
  refine ⟨?_, h'.eps_eq.trans h.eps_eq, ?_, ?_⟩
  · rw [solutionsOf_append, List.foldl_append, ← h.all_eq, ← h.eps_eq, h'.all_eq]
  · rw [List.map_append, Work.tally?_append, h.work_eq, Option.bind_some, h'.work_eq]
  · rw [← List.append_assoc]
    exact h'.questions_perm.trans (h.questions_perm.append_right _)

theorem of_questions_eq {questions : List (Terms ℚ × Answer ℚ)} {q q' : Progress ℚ}
    {w w1 w' w2 : World ℚ σ} (h : Performed keepDecisions t questions q w1 q' w')
    (h1 : w1.questions t = w.questions t) (h2 : w2.questions t = w'.questions t) :
    Performed keepDecisions t questions q w q' w2 := by
  refine ⟨h.all_eq, h.eps_eq, h.work_eq, ?_⟩
  rw [h2, ← h1]
  exact h.questions_perm

/-- Solves that bring different whole points can be taken in another order. -/
theorem perm {questions questions' : List (Terms ℚ × Answer ℚ)} {q q' : Progress ℚ}
    {w w' : World ℚ σ} (h : Performed keepDecisions t questions q w q' w')
    (hperm : questions.Perm questions') (hq : q.frontier.Tidy)
    (hwhole : ∀ s ∈ solutionsOf keepDecisions questions', s.toPoint.Whole)
    (hne : (solutionsOf keepDecisions questions').Pairwise fun s t => s.z1 ≠ t.z1) :
    Performed keepDecisions t questions' q w q' w' := by
  have hsolutions : (solutionsOf keepDecisions questions').Perm
      (solutionsOf keepDecisions questions) := (hperm.filterMap _).symm
  have hpoints : (solutionsOf keepDecisions questions').Pairwise
      fun s t => s.toPoint ≠ t.toPoint :=
    hne.imp fun hz1 heq => hz1 (congrArg Point.z1 heq)
  refine ⟨?_, h.eps_eq, ?_, h.questions_perm.trans (hperm.append_left _)⟩
  · rw [h.all_eq, Frontier.foldl_absorb_perm
      (Solution.sharp_whole hq.eps_nonneg hq.eps_lt_one) hsolutions hwhole hpoints hq.stairs]
  · rw [← h.work_eq]
    exact (q.work.tally?_perm (hperm.map _)).symm

end Performed

namespace Enumerator

/-- An enumerator without a limit that was told the terms. -/
def holding (p : Program ℚ) (t : Terms ℚ) : Enumerator ℚ :=
  { program := p
    weights := t.weights
    first := t.first
    second := t.second
    excluded := t.exclusions.map (Pattern.ofLiterals p.dimension) }

theorem Keeps.answer_eq_holding {e : Enumerator ℚ} {p : Program ℚ} {t : Terms ℚ}
    (h : e.Keeps p t) : e.answer = (holding p t).answer := by
  have heq : e = { holding p t with solves := e.solves } := by
    cases e
    simpa [holding] using ⟨h.program, h.weights, h.first, h.second, h.excluded, h.unlimited⟩
  rw [heq]
  rfl

theorem replies (p : Program ℚ) :
    (oracle p).Replies (.ofProgram p none) .initial fun t => (holding p t).answer := by
  intro calls
  exact ((keeps_ofProgram p).after calls).answer_eq_holding

theorem wholeReply {p : Program ℚ} (hp : p.WholeObjectives) :
    WholeReply fun t => (holding p t).answer := by
  have hkeeps : ∀ t, (holding p t).Keeps p t := fun t => ⟨rfl, rfl, rfl, rfl, rfl, rfl⟩
  have hbest : ∀ t best, (holding p t).answer = .optimal best →
      ∃ mask, Admissible p t mask ∧ best.toPoint = p.maskOutcome mask := by
    intro t best h
    rcases (hkeeps t).answer_cases with ⟨heq, -⟩ | ⟨k, hk, heq⟩
    · exact absurd (heq.symm.trans h) (by simp)
    · cases Answer.optimal.inj (heq.symm.trans h)
      exact ⟨gray k, hk.admissible, rfl⟩
  refine ⟨fun t nodes h => ?_, fun t best h => ?_, fun t best h => ?_, fun t best h => ?_⟩
  · rcases (hkeeps t).answer_cases with ⟨heq, -⟩ | ⟨k, hk, heq⟩
    · exact absurd (heq.symm.trans h) (by simp)
    · exact absurd (heq.symm.trans h) (by simp)
  · obtain ⟨mask, hmask, heq⟩ := hbest t best h
    rw [heq]
    exact hp.whole ((hkeeps t).admits_iff.2 hmask).1.maskOutcome_mem
  · obtain ⟨mask, hmask, heq⟩ := hbest t best h
    rw [heq]
    exact hmask.first
  · obtain ⟨mask, hmask, heq⟩ := hbest t best h
    rw [heq]
    exact hmask.second

end Enumerator

namespace Splitting

/-- Boxes of whole bounds below which no first objective is found twice. -/
structure Queued (ask : Region ℚ → Answer ℚ) (keepDecisions : Bool)
    (queue : List (Region ℚ)) : Prop where
  whole : ∀ r ∈ queue, r.Whole
  distinct : (queue.flatMap (Region.finds ask keepDecisions)).Pairwise fun s t => s.z1 ≠ t.z1

namespace Queued

variable {ask : Region ℚ → Answer ℚ} {keepDecisions : Bool}

theorem singleton (h : Region.Truthful ask) {r : Region ℚ} (hr : r.Whole) :
    Queued ask keepDecisions [r] := by
  refine ⟨fun r' hr' => List.mem_singleton.1 hr' ▸ hr, ?_⟩
  rw [List.flatMap_singleton]
  exact (h.finds_spread keepDecisions hr).2

theorem whole_of_mem_finds (h : Region.Truthful ask) {queue : List (Region ℚ)}
    (hq : Queued ask keepDecisions queue) {s : Solution ℚ}
    (hs : s ∈ queue.flatMap (Region.finds ask keepDecisions)) : s.toPoint.Whole := by
  obtain ⟨r, hr, hs⟩ := List.mem_flatMap.1 hs
  exact ((h.finds_spread keepDecisions (hq.whole r hr)).1 s hs).1

theorem next (h : Region.Truthful ask) {queue rest : List (Region ℚ)} {r : Region ℚ}
    (hq : Queued ask keepDecisions queue) (hperm : (r :: rest).Perm queue) :
    Queued ask keepDecisions (rest ++ r.parts ask) := by
  have hr : r.Whole := hq.whole r (hperm.mem_iff.1 List.mem_cons_self)
  refine ⟨fun r' hr' => ?_, ?_⟩
  · rcases List.mem_append.1 hr' with hr' | hr'
    · exact hq.whole r' (hperm.mem_iff.1 (List.mem_cons_of_mem _ hr'))
    · exact h.whole_of_mem_parts hr hr'
  · have hfinds := hq.distinct.perm (hperm.flatMap_right _).symm fun h => h.symm
    rw [List.flatMap_cons, h.finds_eq keepDecisions hr, List.append_assoc] at hfinds
    rw [List.flatMap_append]
    exact (List.pairwise_append.1 hfinds).2.1.perm List.perm_append_comm fun h => h.symm

end Queued

section Replies

variable {σ : Type} {o : Oracle ℚ σ} {s : σ} {t : Terms ℚ} {reply : Terms ℚ → Answer ℚ}
variable {exclusions : List (List (Literal ℚ))}

/-- The world's oracle follows its record, with these exclusions in force. -/
structure Following (o : Oracle ℚ σ) (s : σ) (t : Terms ℚ)
    (exclusions : List (List (Literal ℚ))) (w : World ℚ σ) : Prop where
  tracks : w.Tracks o s
  exclusions_eq : (w.terms t).exclusions = exclusions

/-- The solves were made, from `q` and `w`. -/
structure Made (o : Oracle ℚ σ) (s : σ) (t : Terms ℚ) (exclusions : List (List (Literal ℚ)))
    (keepDecisions : Bool) (questions : List (Terms ℚ × Answer ℚ)) (q : Progress ℚ)
    (w : World ℚ σ) (q' : Progress ℚ) (w' : World ℚ σ) : Prop where
  performed : Performed keepDecisions t questions q w q' w'
  tidy : q'.frontier.Tidy
  following : Following o s t exclusions w'

/-- The nodes of the solves cannot be counted, from `q`. -/
structure Uncounted (questions : List (Terms ℚ × Answer ℚ)) (q : Progress ℚ) (cut : Cut) :
    Prop where
  cut_eq : cut = .overflow
  tally_eq : q.work.tally? (questions.map Prod.snd) = none

theorem ensures_made_after {c : Clock} {keepDecisions : Bool} {x : Phase ℚ Unit}
    {questions questions' : List (Terms ℚ × Answer ℚ)} {q q1 : Progress ℚ} {w w1 : World ℚ σ}
    (h1 : Performed keepDecisions t questions q w q1 w1)
    (hx : Phase.Ensures o c x q1 w1
      (fun _ => Made o s t exclusions keepDecisions questions' q1 w1)
      (fun cut _ _ => Uncounted questions' q1 cut)) :
    Phase.Ensures o c x q1 w1
      (fun _ => Made o s t exclusions keepDecisions (questions ++ questions') q w)
      (fun cut _ _ => Uncounted (questions ++ questions') q cut) := by
  refine hx.mono ?_ ?_
  · intro _ q' w' h
    exact ⟨h1.trans h.performed, h.tidy, h.following⟩
  · intro cut _ _ h
    refine ⟨h.cut_eq, ?_⟩
    rw [List.map_append, Work.tally?_append, h1.work_eq, Option.bind_some, h.tally_eq]

/-- The solve in a box, after its ranges were told. -/
theorem Following.solve_boxed (hreply : o.Replies s t reply) {w : World ℚ σ}
    (hw : Following o s t exclusions w) {weights : Weights ℚ}
    (hweights : (w.terms t).weights = weights) (c : Clock) (r : Region ℚ) :
    let boxed := ((w.time c).2.tell o (.bound .first (r.range .first))).tell o
      (.bound .second (r.range .second))
    (boxed.solve o).1 = boxReply reply weights exclusions r ∧
      (boxed.solve o).2.questions t =
        w.questions t ++ [(.boxed weights exclusions r, boxReply reply weights exclusions r)] ∧
      Following o s t exclusions (boxed.solve o).2 ∧
      ((boxed.solve o).2.terms t).weights = weights := by
  intro boxed
  have htracks : boxed.Tracks o s := ((hw.tracks.time c).tell _).tell _
  have hterms : boxed.terms t = .boxed weights exclusions r := by
    rw [← hweights, ← hw.exclusions_eq, World.terms_tell, World.terms_tell, World.terms_time]
    rfl
  have hanswer : (boxed.solve o).1 = boxReply reply weights exclusions r := by
    rw [hreply.answer_eq htracks, hterms]
    rfl
  refine ⟨hanswer, ?_, ⟨htracks.solve, ?_⟩, ?_⟩
  · rw [World.questions_solve, hanswer, hterms, World.questions_tell, World.questions_tell,
      World.questions_time]
  · rw [World.terms_solve, hterms]
    rfl
  · rw [World.terms_solve, hterms]
    rfl

/-- Taking a box off the queue and adding its parts leaves all solves but one. -/
theorem perm_boxQuestions_of_pop (hwhole : WholeReply reply) (weights : Weights ℚ)
    (exclusions : List (List (Literal ℚ))) {r : Region ℚ} (hr : r.Whole)
    {queue rest : List (Region ℚ)} (hperm : (r :: rest).Perm queue) :
    ([(Terms.boxed weights exclusions r, boxReply reply weights exclusions r)] ++
      boxQuestions reply weights exclusions
        (rest ++ r.parts (boxReply reply weights exclusions))).Perm
      (boxQuestions reply weights exclusions queue) := by
  have hvisits := (hwhole.truthful weights exclusions).perm_visits_of_pop hr hperm
  exact hvisits.map fun r => (Terms.boxed weights exclusions r, boxReply reply weights exclusions r)

open Phase in
/-- A box that is taken off the queue costs one solve, and its parts join the
queue. -/
theorem ensures_drain_pop (hreply : o.Replies s t reply) (hwhole : WholeReply reply)
    {cfg : Config ℚ} {c : Clock} (hclock : NeverOver cfg c) {weights : Weights ℚ} {fuel : ℕ}
    {queue rest : List (Region ℚ)} {r : Region ℚ} (hpop : cfg.queueOrder.pop? queue = some (r, rest))
    (hr : r.Whole) {q : Progress ℚ} {w : World ℚ σ} (hq : q.frontier.Tidy)
    (hw : Following o s t exclusions w) (hweights : (w.terms t).weights = weights)
    {ok : Unit → Progress ℚ → World ℚ σ → Prop} {err : Cut → Progress ℚ → World ℚ σ → Prop}
    (hover : q.work.record? (boxReply reply weights exclusions r).nodes = none →
      ∀ w1, err .overflow q w1)
    (hnext : ∀ q1 w1, Performed cfg.keepDecisions t
        [(.boxed weights exclusions r, boxReply reply weights exclusions r)] q w q1 w1 →
      q1.frontier.Tidy → Following o s t exclusions w1 → (w1.terms t).weights = weights →
      Ensures o c (drain cfg fuel (rest ++ r.parts (boxReply reply weights exclusions))) q1 w1
        ok err) :
    Ensures o c (drain cfg (fuel + 1) queue) q w ok err := by
  have htruthful := hwhole.truthful weights exclusions
  obtain ⟨hanswer, hasked, hw1, hweights1⟩ := hw.solve_boxed hreply hweights c r
  simp only [drain, hpop, ensures_bind, ensures_checkTime, if_neg (hclock _), ensures_tell,
    ensures_solve_iff, hanswer]
  cases hrecord : q.work.record? (boxReply reply weights exclusions r).nodes with
  | none => exact hover hrecord _
  | some work =>
      have hwork : q.work.tally? [boxReply reply weights exclusions r] = some work := by
        rw [Work.tally?_cons, hrecord, Option.bind_some, Work.tally?_nil]
      have hperm := List.Perm.of_eq hasked
      cases hask : boxReply reply weights exclusions r with
      | optimal best =>
          rw [hask, Region.parts_eq_split hask] at hnext
          rw [hask] at hwork hperm
          simp only [ensures_bind, ensures_modifyFrontier]
          exact hnext ⟨_, work⟩ _ ⟨Frontier.update_all _ _, Frontier.update_eps _ _, hwork, hperm⟩
            (hq.update (htruthful.whole r best hr hask)) hw1 hweights1
      | infeasible =>
          rw [hask, Region.parts_eq_nil hask, List.append_nil] at hnext
          rw [hask] at hwork hperm
          exact hnext ⟨_, work⟩ _ ⟨rfl, rfl, hwork, hperm⟩ hq hw1 hweights1
      | timedOut nodes => exact absurd hask (htruthful.not_timedOut r nodes)

open Phase in
/-- Whatever the order of the queue, the solves are those of its trees. -/
theorem drain_makes (hreply : o.Replies s t reply) (hwhole : WholeReply reply) {cfg : Config ℚ}
    {c : Clock} (hclock : NeverOver cfg c) {weights : Weights ℚ} (fuel : ℕ)
    {queue : List (Region ℚ)} {q : Progress ℚ} {w : World ℚ σ}
    (hqueue : Queued (boxReply reply weights exclusions) cfg.keepDecisions queue)
    (hfuel : (boxQuestions reply weights exclusions queue).length ≤ fuel)
    (hq : q.frontier.Tidy) (hw : Following o s t exclusions w)
    (hweights : (w.terms t).weights = weights) :
    Ensures o c (drain cfg fuel queue) q w
      (fun _ => Made o s t exclusions cfg.keepDecisions
        (boxQuestions reply weights exclusions queue) q w)
      (fun cut _ _ => Uncounted (boxQuestions reply weights exclusions queue) q cut) := by
  have htruthful := hwhole.truthful weights exclusions
  -- The fuel covers the boxes in the trees of the queue, and each pop uses one of them up.
  induction fuel generalizing queue q w with
  | zero =>
      cases queue with
      | nil => exact (ensures_pure ()).2 ⟨.refl q w, hq, hw⟩
      | cons r rest =>
          have hlength := (perm_boxQuestions_of_pop hwhole weights exclusions
            (hqueue.whole r List.mem_cons_self) (List.Perm.refl (r :: rest))).length_eq
          rw [List.length_append, List.length_singleton] at hlength
          omega
  | succ fuel ih =>
      cases hpop : cfg.queueOrder.pop? queue with
      | none =>
          rw [drain, hpop, (cfg.queueOrder.pop?_eq_none_iff queue).1 hpop]
          exact (ensures_pure ()).2 ⟨.refl q w, hq, hw⟩
      | some popped =>
          obtain ⟨r, rest⟩ := popped
          have hpopped := QueueOrder.perm_of_pop? hpop
          have hr : r.Whole := hqueue.whole r (hpopped.mem_iff.1 List.mem_cons_self)
          have hperm := perm_boxQuestions_of_pop hwhole weights exclusions hr hpopped
          have hlength := hperm.length_eq
          have htally := q.work.tally?_perm (hperm.map Prod.snd)
          have hsolutions := solutionsOf_boxQuestions cfg.keepDecisions reply weights exclusions
            queue
          rw [List.length_append, List.length_singleton] at hlength
          refine ensures_drain_pop hreply hwhole hclock hpop hr hq hw hweights ?_ ?_
          · intro hrecord w1
            refine ⟨rfl, ?_⟩
            rw [← htally, List.map_append, List.map_singleton, List.singleton_append,
              Work.tally?_cons, hrecord, Option.bind_none]
          · intro q1 w1 h1 hq1 hw1 hweights1
            have hmade := ih (hqueue.next htruthful hpopped) (by omega) hq1 hw1 hweights1
            -- `h1` puts the solve of the popped box first; `hperm` moves it to its place.
            refine (ensures_made_after h1 hmade).mono ?_ ?_
            · intro _ q' w' h
              refine ⟨h.performed.perm hperm hq ?_ ?_, h.tidy, h.following⟩
              · rw [hsolutions]
                exact fun s hs => hqueue.whole_of_mem_finds htruthful hs
              · rw [hsolutions]
                exact hqueue.distinct
            · intro cut _ _ h
              exact ⟨h.cut_eq, htally.symm.trans h.tally_eq⟩

/-- The solves for pairs of neighbours, with the boxes below the box between them. -/
def searchQuestions (reply : Terms ℚ → Answer ℚ) (exclusions : List (List (Literal ℚ)))
    (pairs : List (Solution ℚ × Solution ℚ)) : List (Terms ℚ × Answer ℚ) :=
  pairs.flatMap fun ab =>
    boxQuestions reply (ab.1.chord ab.2) exclusions [.ofCorners ab.1 ab.2]

theorem length_boxQuestions_singleton_le (hwhole : WholeReply reply) (weights : Weights ℚ)
    (exclusions : List (List (Literal ℚ))) {r : Region ℚ} (hr : r.Whole) :
    (boxQuestions reply weights exclusions [r]).length ≤ 2 * r.width + 1 := by
  rw [boxQuestions, List.length_map, List.flatMap_singleton]
  exact (hwhole.truthful weights exclusions).length_visits_le hr

open Phase in
theorem search_makes (hreply : o.Replies s t reply) (hwhole : WholeReply reply) {cfg : Config ℚ}
    {c : Clock} (hclock : NeverOver cfg c) {fuel : ℕ} {pairs : List (Solution ℚ × Solution ℚ)}
    (hpairs : ∀ ab ∈ pairs, ab.1.toPoint.Whole ∧ ab.2.toPoint.Whole)
    (hfuel : ∀ ab ∈ pairs, 2 * ⌊ab.2.z1 - ab.1.z1 + 1⌋₊ + 1 ≤ fuel)
    {q : Progress ℚ} {w : World ℚ σ} (hq : q.frontier.Tidy)
    (hw : Following o s t exclusions w) :
    Ensures o c (search cfg fuel pairs) q w
      (fun _ => Made o s t exclusions cfg.keepDecisions
        (searchQuestions reply exclusions pairs) q w)
      (fun cut _ _ => Uncounted (searchQuestions reply exclusions pairs) q cut) := by
  induction pairs generalizing q w with
  | nil => exact (ensures_pure ()).2 ⟨.refl q w, hq, hw⟩
  | cons ab pairs ih =>
      obtain ⟨left, right⟩ := ab
      obtain ⟨hleft, hright⟩ := hpairs _ List.mem_cons_self
      have hr := Region.Whole.ofCorners hleft hright
      have hlength := (length_boxQuestions_singleton_le hwhole (left.chord right) exclusions
        hr).trans (hfuel _ List.mem_cons_self)
      have htold : Following o s t exclusions (w.tell o (.weights (left.chord right))) := by
        refine ⟨hw.tracks.tell _, ?_⟩
        rw [World.terms_tell]
        exact hw.exclusions_eq
      have hweights : ((w.tell o (.weights (left.chord right))).terms t).weights =
          left.chord right := by
        rw [World.terms_tell]
        rfl
      simp only [search, ensures_bind, ensures_tell]
      refine (drain_makes hreply hwhole hclock fuel
        (.singleton (hwhole.truthful _ exclusions) hr) hlength hq htold hweights).mono ?_ ?_
      · intro _ q1 w1 h1
        refine ensures_made_after (h1.performed.of_questions_eq (World.questions_tell _ _ _ _) rfl)
          (ih (fun ab hab => hpairs ab (List.mem_cons_of_mem _ hab))
            (fun ab hab => hfuel ab (List.mem_cons_of_mem _ hab)) h1.tidy h1.following)
      · intro cut _ _ h
        refine ⟨h.cut_eq, ?_⟩
        rw [searchQuestions, List.flatMap_cons, List.map_append, Work.tally?_append, h.tally_eq,
          Option.bind_none]

open Phase in
theorem phase_makes (hreply : o.Replies s t reply) (hwhole : WholeReply reply) {cfg : Config ℚ}
    {c : Clock} (hclock : NeverOver cfg c) {fuel : ℕ} {q : Progress ℚ} {w : World ℚ σ}
    (hsupported : ∀ a ∈ q.frontier.supported, a.toPoint.Whole)
    (hfuel : ∀ ab ∈ neighbours q.frontier.supported, 2 * ⌊ab.2.z1 - ab.1.z1 + 1⌋₊ + 1 ≤ fuel)
    (hq : q.frontier.Tidy) (hw : Following o s t exclusions w) :
    Ensures o c (phase cfg fuel) q w
      (fun status q' w' => status = .completed ∧ Performed cfg.keepDecisions t
        (searchQuestions reply exclusions (neighbours q.frontier.supported)) q w q' w')
      (fun cut _ _ => Uncounted
        (searchQuestions reply exclusions (neighbours q.frontier.supported)) q cut) := by
  have hpairs : ∀ ab ∈ neighbours q.frontier.supported,
      ab.1.toPoint.Whole ∧ ab.2.toPoint.Whole := fun ab hab =>
    ⟨hsupported _ (mem_of_mem_neighbours hab).1, hsupported _ (mem_of_mem_neighbours hab).2⟩
  refine (ensures_handle _ _).2 ((ensures_look fun q => search cfg fuel
    (neighbours q.frontier.supported)).2
      ((search_makes hreply hwhole hclock hpairs hfuel hq hw).mono ?_ ?_))
  · intro _ q' w' h
    unfold Ensures
    refine ⟨rfl, h.performed.of_questions_eq rfl ?_⟩
    rw [World.questions_tell, World.questions_tell]
  · rintro cut q' w' ⟨rfl, hnone⟩
    unfold Ensures
    exact ⟨rfl, hnone⟩

/-- The second phase from a fresh world, with an order of the queue. -/
def held (cfg : Config ℚ) (o : Oracle ℚ σ) (clock : Clock) (fuel : ℕ) (q : Progress ℚ) (s : σ)
    (order : QueueOrder) : (Except Cut Status × Progress ℚ) × World ℚ σ :=
  (phase { cfg with queueOrder := order } fuel q).exec o clock (.start s)

theorem held_cases (hreply : o.Replies s t reply) (hwhole : WholeReply reply) {cfg : Config ℚ}
    {clock : Clock} (hclock : NeverOver cfg clock) {q : Progress ℚ} (hq : q.frontier.Tidy)
    (hsupported : ∀ a ∈ q.frontier.supported, a.toPoint.Whole) {fuel : ℕ}
    (hfuel : ∀ ab ∈ neighbours q.frontier.supported, 2 * ⌊ab.2.z1 - ab.1.z1 + 1⌋₊ + 1 ≤ fuel)
    (order : QueueOrder) :
    let questions := searchQuestions reply t.exclusions (neighbours q.frontier.supported)
    let run := held cfg o clock fuel q s order
    (run.1.1 = .ok .completed ∧
        Performed cfg.keepDecisions t questions q (.start s) run.1.2 run.2) ∨
      (run.1.1 = .error .overflow ∧ q.work.tally? (questions.map Prod.snd) = none) := by
  intro questions run
  have hstart : Following o s t t.exclusions (.start s) := ⟨rfl, rfl⟩
  have hphase := phase_makes hreply hwhole
    (show NeverOver { cfg with queueOrder := order } clock from hclock) hsupported hfuel hq hstart
  have hrun : run = (phase { cfg with queueOrder := order } fuel q).exec o clock (.start s) := rfl
  unfold Phase.Ensures at hphase
  rw [← hrun] at hphase
  rcases run with ⟨⟨cut | status, q'⟩, w'⟩
  · exact Or.inr ⟨congrArg Except.error hphase.cut_eq, hphase.tally_eq⟩
  · exact Or.inl ⟨congrArg Except.ok hphase.1, hphase.2⟩

/-- Let the answers of an oracle depend on the terms in force only, never give up, and
have whole points in the ranges, let all known points be whole, and let time never be
over. Then both orders of the queue complete the phase with the same solves, up to
their order, the same work and the same retained solutions, if the nodes can be
counted in one of the orders. The width of a gap bounds the number of its solves. -/
theorem phase_queueOrder_irrelevant (hreply : o.Replies s t reply) (hwhole : WholeReply reply)
    {cfg : Config ℚ} {clock : Clock} (hclock : NeverOver cfg clock) {q : Progress ℚ}
    (hall : q.frontier.all.Pairwise fun a b => a.z1 < b.z1 ∧ b.z2 < a.z2)
    (hpoints : ∀ a ∈ q.frontier.all, a.toPoint.Whole)
    (heps0 : 0 ≤ q.frontier.eps) (heps1 : q.frontier.eps < 1)
    (hsupported : ∀ a ∈ q.frontier.supported, a.toPoint.Whole) {fuel : ℕ}
    (hfuel : ∀ ab ∈ neighbours q.frontier.supported, 2 * ⌊ab.2.z1 - ab.1.z1 + 1⌋₊ + 1 ≤ fuel)
    (hfits : ∃ order, (held cfg o clock fuel q s order).1.1 ≠ .error .overflow) :
    let fifo := held cfg o clock fuel q s .fifo
    let lifo := held cfg o clock fuel q s .lifo
    fifo.1.1 = .ok .completed ∧ lifo.1.1 = .ok .completed ∧
      (fifo.2.questions t).Perm (lifo.2.questions t) ∧
      fifo.1.2.work = lifo.1.2.work ∧ fifo.1.2.frontier.all = lifo.1.2.frontier.all := by
  intro fifo lifo
  have hcases := held_cases hreply hwhole hclock ⟨⟨hall, hpoints⟩, heps0, heps1⟩ hsupported hfuel
  obtain ⟨order, horder⟩ := hfits
  have htally : q.work.tally? ((searchQuestions reply t.exclusions
      (neighbours q.frontier.supported)).map Prod.snd) ≠ none := by
    rcases hcases order with ⟨-, hperformed⟩ | ⟨hcut, -⟩
    · rw [hperformed.work_eq]
      exact Option.some_ne_none _
    · exact absurd hcut horder
  have hcompleted := fun order => (hcases order).resolve_right fun h => htally h.2
  obtain ⟨hfifo, hperformed⟩ := hcompleted .fifo
  obtain ⟨hlifo, hperformed'⟩ := hcompleted .lifo
  refine ⟨hfifo, hlifo, hperformed.questions_perm.trans hperformed'.questions_perm.symm, ?_, ?_⟩
  · exact Option.some.inj (hperformed.work_eq.symm.trans hperformed'.work_eq)
  · exact hperformed.all_eq.trans hperformed'.all_eq.symm

end Replies

/-- The two ends of the frontier of `pickOne`, before the second phase. -/
def pickOneEnds : Progress ℚ :=
  { frontier :=
      { all := [⟨⟨1, 4⟩, true, [1, 0, 0]⟩, ⟨⟨4, 1⟩, true, [0, 0, 1]⟩]
        supported := [⟨⟨1, 4⟩, true, [1, 0, 0]⟩, ⟨⟨4, 1⟩, true, [0, 0, 1]⟩]
        eps := 1 / 1000 } }

theorem phase_queueOrder_irrelevant_pickOne :
    let run := held (.plain .splitting) (Enumerator.oracle pickOne) .still 9 pickOneEnds
      (.ofProgram pickOne none)
    (run .fifo).1.1 = .ok .completed ∧ (run .lifo).1.1 = .ok .completed ∧
      (run .fifo).1.2.frontier.all = (run .lifo).1.2.frontier.all := by
  have hwhole : ∀ a ∈ pickOneEnds.frontier.all, a.toPoint.Whole := by
    intro a ha
    simp only [pickOneEnds, List.mem_cons, List.not_mem_nil, or_false] at ha
    rcases ha with rfl | rfl
    · exact ⟨⟨1, by norm_num⟩, ⟨4, by norm_num⟩⟩
    · exact ⟨⟨4, by norm_num⟩, ⟨1, by norm_num⟩⟩
  have hfits : (held (.plain .splitting) (Enumerator.oracle pickOne) .still 9 pickOneEnds
      (.ofProgram pickOne none) .fifo).1.1 ≠ .error .overflow := by decide +kernel
  obtain ⟨hfifo, hlifo, -, -, hall⟩ := phase_queueOrder_irrelevant (Enumerator.replies pickOne)
    (Enumerator.wholeReply wholeObjectives_pickOne) (Config.neverOver_plain .splitting)
    (by decide +kernel) hwhole (by decide +kernel) (by decide +kernel) hwhole (by decide +kernel)
    ⟨.fifo, hfits⟩
  exact ⟨hfifo, hlifo, hall⟩

end Splitting

end Biobjective
