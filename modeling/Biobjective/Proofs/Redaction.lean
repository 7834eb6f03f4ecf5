import Biobjective.Proofs.Rerun

/-!
# Assignments left out

A run that keeps no assignments takes the course of the run that keeps them. No step of the
search reads an assignment back from a solution: the frontier compares points, and what is
excluded comes from the answer itself. `Session.Matches` relates two sessions that tell and
ask the same, and `Phase.Mirrors` relates two phases of which the second finds the solutions
of the first one with their assignments left out. The clocks of the two may differ, as long
as they agree on whether time is over. The main result is `Method.run_redacted`.
-/

namespace Biobjective

namespace Session

variable {K σ α β α' β' : Type}

/-- The sessions take the same course. They go on alike after readings of the clock that `V`
relates, and `R` relates their results. -/
inductive Matches (V : Duration → Duration → Prop) (R : α → β → Prop) :
    Session K α → Session K β → Prop
  | done {a b} (h : R a b) : Matches V R (.done a) (.done b)
  | tell (d) {s t} (h : Matches V R s t) : Matches V R (.tell d s) (.tell d t)
  | solve {s t} (h : ∀ answer, Matches V R (s answer) (t answer)) : Matches V R (.solve s) (.solve t)
  | clock {s t} (h : ∀ x y, V x y → Matches V R (s x) (t y)) : Matches V R (.clock s) (.clock t)

theorem Matches.bind {V : Duration → Duration → Prop} {R : α → β → Prop} {R' : α' → β' → Prop}
    {s : Session K α} {t : Session K β} {f : α → Session K α'} {g : β → Session K β'}
    (h : Matches V R s t) (hf : ∀ a b, R a b → Matches V R' (f a) (g b)) :
    Matches V R' (s.bind f) (t.bind g) := by
  induction h with
  | done h => exact hf _ _ h
  | tell d _ ih => exact .tell d ih
  | solve _ ih => exact .solve ih
  | clock _ ih => exact .clock ih

/-- Held with one oracle, the sessions leave the same world behind. -/
theorem Matches.exec {V : Duration → Duration → Prop} {R : α → β → Prop} {s : Session K α}
    {t : Session K β} (h : Matches V R s t) (o : Oracle K σ) {c c' : Clock}
    (hc : ∀ moment, V (c moment) (c' moment)) (w : World K σ) :
    R (s.exec o c w).1 (t.exec o c' w).1 ∧ (t.exec o c' w).2 = (s.exec o c w).2 := by
  induction h generalizing w with
  | done h => exact ⟨h, rfl⟩
  | tell d _ ih => exact ih (w.tell o d)
  | solve _ ih => exact ih (w.solve o).1 (w.solve o).2
  | clock _ ih => exact ih (c w.moment) (c' w.moment) (hc w.moment) (w.time c).2

end Session

section Redact

variable {K : Type}

/-- The solution without its assignment, unless this is to be kept. -/
def Solution.redact (keep : Bool) (s : Solution K) : Solution K :=
  { s with decisions := if keep then s.decisions else [] }

def Frontier.redact (keep : Bool) (f : Frontier K) : Frontier K :=
  { f with all := f.all.map (·.redact keep), supported := f.supported.map (·.redact keep) }

def Progress.redact (keep : Bool) (p : Progress K) : Progress K :=
  { p with frontier := p.frontier.redact keep }

def Placement.redact (keep : Bool) : Placement K → Placement K
  | .covered => .covered
  | .replaced all => .replaced (all.map (·.redact keep))
  | .unmatched => .unmatched

/-- The configuration that keeps assignments only if `keep` holds as well, and that writes
elsewhere. -/
def Config.redact (keep : Bool) (output? : Option String) (cfg : Config K) : Config K :=
  { cfg with keepDecisions := cfg.keepDecisions && keep, output? }

@[simp] theorem Solution.redact_true (s : Solution K) : s.redact true = s := rfl

@[simp] theorem Solution.redact_toPoint (keep : Bool) (s : Solution K) :
    (s.redact keep).toPoint = s.toPoint := rfl

@[simp] theorem Solution.redact_supported (keep : Bool) (s : Solution K) :
    (s.redact keep).supported = s.supported := rfl

@[simp] theorem Frontier.redact_true (f : Frontier K) : f.redact true = f := by
  simp [redact]

/-- What is kept only if `keep` holds and is then redacted is kept only if both hold. -/
theorem Solution.mk_and (z : Point K) (supported keep keep' : Bool) (decisions : List K) :
    (⟨z, supported, if keep && keep' then decisions else []⟩ : Solution K) =
      Solution.redact keep' ⟨z, supported, if keep then decisions else []⟩ := by
  cases keep <;> cases keep' <;> rfl

theorem Optimum.toSolution_and (best : Optimum K) (supported keep keep' : Bool) :
    best.toSolution supported (keep && keep') = (best.toSolution supported keep).redact keep' :=
  Solution.mk_and best.toPoint supported keep keep' best.decisions

theorem neighbours_map {α β : Type} (g : α → β) :
    ∀ l : List α, neighbours (l.map g) = (neighbours l).map (Prod.map g g)
  | [] => rfl
  | [_] => rfl
  | a :: b :: l => congrArg (List.cons (g a, g b)) (neighbours_map g (b :: l))

theorem bisectFrom_map {α β : Type} (g : α → β) (below : β → Bool) (fuel size : ℕ) (l : List α) :
    bisectFrom below fuel size (l.map g) = bisectFrom (below ∘ g) fuel size l := by
  induction fuel generalizing size l with
  | zero => rfl
  | succ fuel ih =>
      by_cases hsize : size ≤ 1
      · rw [bisectFrom_of_le_one _ _ hsize, bisectFrom_of_le_one _ _ hsize, List.head?_map,
          Option.any_map]
        rfl
      · simp only [bisectFrom, if_neg hsize, ← List.map_drop]
        cases l.drop (size / 2) with
        | nil => exact ih _ l
        | cons a rest =>
            have hright := ih (size - size / 2) (a :: rest)
            rw [List.map_cons] at hright
            simp only [List.map_cons, ih, hright, Function.comp_apply]

theorem bisect_map {α β : Type} (g : α → β) (below : β → Bool) (l : List α) :
    bisect below (l.map g) = bisect (below ∘ g) l := by
  rw [bisect, List.length_map, bisectFrom_map, bisect]

end Redact

namespace Frontier

variable {K : Type} [Scalar K]

theorem worstNadirOf?_map_redact (keep : Bool) (all : List (Solution K)) :
    worstNadirOf? (all.map (·.redact keep)) = worstNadirOf? all := by
  rw [worstNadirOf?, worstNadirOf?, neighbours_map]
  cases neighbours all with
  | nil => rfl
  | cons ab rest => exact congrArg some List.foldl_map

theorem redact_withAll (keep : Bool) (f : Frontier K) (all : List (Solution K)) :
    (f.withAll all).redact keep = (f.redact keep).withAll (all.map (·.redact keep)) := by
  simp only [withAll, redact, worstNadirOf?_map_redact]

theorem redact_retainSupported (keep : Bool) (f : Frontier K) :
    f.retainSupported.redact keep = (f.redact keep).retainSupported :=
  redact_withAll keep f f.supported

theorem redact_insertSupported (keep : Bool) (f : Frontier K) (s : Solution K) :
    (f.insertSupported s).redact keep = (f.redact keep).insertSupported (s.redact keep) := by
  have hindex : bisect (fun t : Solution K => decide (t.z1 < (s.redact keep).z1))
      (f.supported.map (·.redact keep)) = bisect (fun t => decide (t.z1 < s.z1)) f.supported :=
    bisect_map (·.redact keep) _ f.supported
  simp only [insertSupported, redact, hindex, List.map_append, List.map_cons, List.map_take,
    List.map_drop]

theorem place_redact (keep : Bool) (eps : K) (s : Solution K) (all : List (Solution K)) :
    place eps (s.redact keep) (all.map (·.redact keep)) = (place eps s all).redact keep := by
  induction all with
  | nil => rfl
  | cons e rest ih =>
      have hcovered : Solution.covers eps (e.redact keep) (s.redact keep) =
          Solution.covers eps e s := rfl
      have hbeats : (s.redact keep).strictlyDominates (e.redact keep) = s.strictlyDominates e := rfl
      rw [List.map_cons, place, place, hcovered, hbeats, ih]
      split
      · rfl
      · split
        · exact congrArg (fun l => Placement.replaced (s.redact keep :: l)) List.filter_map
        · cases place eps s rest <;> rfl

theorem map_insertOrdered_redact (keep : Bool) (s : Solution K) (all : List (Solution K)) :
    (insertOrdered s all).map (·.redact keep) =
      insertOrdered (s.redact keep) (all.map (·.redact keep)) := by
  induction all with
  | nil => rfl
  | cons e rest ih =>
      rw [List.map_cons, insertOrdered, insertOrdered, ← ih]
      exact apply_ite (List.map (Solution.redact keep)) (s.z1 < e.z1) _ _

theorem redact_update (keep : Bool) (f : Frontier K) (s : Solution K) :
    (f.update s).2.redact keep = ((f.redact keep).update (s.redact keep)).2 := by
  have hempty : (f.redact keep).all.isEmpty = f.all.isEmpty := List.isEmpty_map
  have hplace : place (f.redact keep).eps (s.redact keep) (f.redact keep).all =
      (place f.eps s f.all).redact keep := place_redact keep f.eps s f.all
  rw [update, update, hempty, hplace]
  split
  · rfl
  · cases place f.eps s f.all with
    | covered => rfl
    | replaced all => exact redact_withAll keep f all
    | unmatched =>
        refine (redact_withAll keep f _).trans ?_
        rw [map_insertOrdered_redact]
        rfl

theorem nadirWithin?_redact (keep : Bool) (f : Frontier K) (w : Weights K) (lo hi : K) :
    (f.redact keep).nadirWithin? w lo hi = f.nadirWithin? w lo hi := by
  simp only [nadirWithin?, redact, neighbours_map, List.takeWhile_map, List.foldl_map]
  rfl

omit [Scalar K] in
theorem getElem?_redact_supported (keep : Bool) (f : Frontier K) (i : ℕ) :
    (f.redact keep).supported[i]? = f.supported[i]?.map (·.redact keep) :=
  List.getElem?_map

end Frontier

namespace Phase

variable {K α β : Type} {limit : Duration} {keep : Bool}

/-- The clocks agree on whether time is over. -/
def SameSide (limit time time' : Duration) : Prop := limit ≤ time ↔ limit ≤ time'

/-- Begun with the solutions redacted, the second phase takes the course of the first one and
ends as it does, with `g` of its result and with the solutions redacted. -/
def Mirrors (limit : Duration) (keep : Bool) (g : α → β) (x : Phase K α) (y : Phase K β) : Prop :=
  ∀ p, Session.Matches (SameSide limit) (fun e e' => e' = (e.1.map g, e.2.redact keep)) (x p)
    (y (p.redact keep))

theorem mirrors_pure (g : α → β) (a : α) :
    Mirrors limit keep g (Pure.pure a : Phase K α) (Pure.pure (g a)) :=
  fun _ => .done rfl

theorem mirrors_cut (g : α → β) (c : Cut) :
    Mirrors limit keep g (cut c : Phase K α) (cut c) :=
  fun _ => .done rfl

theorem Mirrors.bind {α' β' : Type} {g : α → β} {g' : α' → β'} {x : Phase K α} {y : Phase K β}
    {f : α → Phase K α'} {f' : β → Phase K β'} (h : Mirrors limit keep g x y)
    (hf : ∀ a, Mirrors limit keep g' (f a) (f' (g a))) :
    Mirrors limit keep g' (x >>= f) (y >>= f') := by
  intro p
  refine (h p).bind fun e e' he => ?_
  obtain ⟨cut | a, p1⟩ := e
  · subst he
    exact .done rfl
  · subst he
    exact hf a p1

theorem Mirrors.ite {g : α → β} {x x' : Phase K α} {y y' : Phase K β} {P : Prop} [Decidable P]
    (h : Mirrors limit keep g x y) (h' : Mirrors limit keep g x' y') :
    Mirrors limit keep g (if P then x else x') (if P then y else y') := by
  split
  · exact h
  · exact h'

theorem mirrors_tell (d : Directive K) : Mirrors limit keep id (tell d) (tell d) :=
  fun _ => .tell d (.done rfl)

theorem mirrors_solve : Mirrors limit keep id (solve : Phase K (Answer K)) solve := by
  intro p
  refine .solve fun answer => ?_
  have hwork : (p.redact keep).work = p.work := rfl
  rw [hwork]
  cases p.work.record? answer.nodes with
  | none => exact .done rfl
  | some work => exact .done rfl

theorem mirrors_demand (stage : Stage) (a : Answer K) :
    Mirrors limit keep id (demand stage a) (demand stage a) := by
  cases a with
  | optimal best => exact mirrors_pure id best
  | infeasible => exact mirrors_cut id _
  | timedOut nodes => exact mirrors_cut id _

theorem mirrors_isOver : Mirrors limit keep id (isOver limit : Phase K Bool) (isOver limit) := by
  intro p
  refine .clock fun time time' htime => .done ?_
  have hover : decide (limit ≤ time') = decide (limit ≤ time) := decide_eq_decide.2 htime.symm
  rw [hover]
  rfl

theorem mirrors_checkTime :
    Mirrors limit keep id (checkTime limit : Phase K Unit) (checkTime limit) := by
  refine mirrors_isOver.bind fun ended => ?_
  cases ended with
  | true => exact mirrors_cut id _
  | false => exact mirrors_pure id ()

theorem mirrors_frontier :
    Mirrors limit keep (Frontier.redact keep) (frontier : Phase K (Frontier K)) frontier :=
  fun _ => .done rfl

theorem mirrors_modifyFrontier {g g' : Frontier K → Frontier K}
    (h : ∀ f, (g f).redact keep = g' (f.redact keep)) :
    Mirrors limit keep id (modifyFrontier g) (modifyFrontier g') := by
  intro p
  refine .done ?_
  change (Except.ok (), { p.redact keep with frontier := g' (p.frontier.redact keep) }) = _
  rw [← h]
  rfl

end Phase

open Phase

section Phases

variable {K : Type} [Scalar K] (cfg : Config K) (keep : Bool) (output? : Option String)

theorem Anchor.mirrors_find (a : Anchor) :
    Mirrors cfg.timeLimit keep (Solution.redact keep) (a.find cfg)
      (a.find (cfg.redact keep output?)) := by
  refine (mirrors_tell _).bind fun _ => mirrors_solve.bind fun answer => ?_
  refine (mirrors_demand _ answer).bind fun level => mirrors_checkTime.bind fun _ => ?_
  refine (mirrors_tell _).bind fun _ => (mirrors_tell _).bind fun _ => ?_
  refine mirrors_solve.bind fun answer => (mirrors_tell _).bind fun _ => ?_
  refine (mirrors_demand _ answer).bind fun best => ?_
  rw [Config.redact, Optimum.toSolution_and]
  exact mirrors_pure _ _

namespace Supported

theorem mirrors_insert (s : Solution K) :
    Mirrors cfg.timeLimit keep id (modifyFrontier (·.insertSupported s))
      (modifyFrontier (·.insertSupported (s.redact keep))) :=
  mirrors_modifyFrontier fun f => f.redact_insertSupported keep s

theorem mirrors_refine (chords left : ℕ) :
    Mirrors cfg.timeLimit keep id (refine cfg chords left)
      (refine (cfg.redact keep output?) chords left) := by
  induction chords generalizing left with
  | zero => exact mirrors_pure id ()
  | succ chords ih =>
      refine mirrors_frontier.bind fun f => ?_
      simp only [Frontier.getElem?_redact_supported]
      cases f.supported[left]? with
      | none => exact mirrors_pure id ()
      | some a =>
          cases f.supported[left + 1]? with
          | none => exact mirrors_pure id ()
          | some b =>
              refine (mirrors_tell _).bind fun _ => mirrors_solve.bind fun answer => ?_
              refine (mirrors_demand _ answer).bind fun best => ?_
              have hbest := best.toSolution_and true cfg.keepDecisions keep
              refine .ite ?_ (mirrors_checkTime.bind fun _ => ih (left + 1))
              rw [id, Config.redact, hbest]
              refine (mirrors_insert cfg keep _).bind fun _ => ?_
              exact mirrors_checkTime.bind fun _ => ih left

theorem mirrors_search :
    Mirrors cfg.timeLimit keep id (search cfg) (search (cfg.redact keep output?)) := by
  refine (Anchor.mirrors_find cfg keep output? .upperLeft).bind fun upperLeft => ?_
  refine (mirrors_insert cfg keep upperLeft).bind fun _ => mirrors_checkTime.bind fun _ => ?_
  refine (Anchor.mirrors_find cfg keep output? .lowerRight).bind fun lowerRight => ?_
  refine .ite (mirrors_pure id ()) ?_
  refine (mirrors_insert cfg keep lowerRight).bind fun _ => mirrors_checkTime.bind fun _ => ?_
  exact mirrors_refine cfg keep output? _ _

theorem mirrors_phase :
    Mirrors cfg.timeLimit keep id (phase cfg) (phase (cfg.redact keep output?)) := by
  intro p
  refine (mirrors_search cfg keep output? p).bind fun e e' he => ?_
  subst he
  have hretain : ∀ q : Progress K, { q.redact keep with
      frontier := (q.redact keep).frontier.retainSupported } =
      Progress.redact keep { q with frontier := q.frontier.retainSupported } := by
    intro q
    simp only [Progress.redact, Frontier.redact_retainSupported]
  rcases e with ⟨cut | _, q⟩
  · cases cut with
    | timeout => exact .done (congrArg (Prod.mk _) (hretain q))
    | infeasible stage => exact .done rfl
    | overflow => exact .done rfl
    | tooManyVariables => exact .done rfl
    | outOfFuel => exact .done rfl
  · exact .done (congrArg (Prod.mk _) (hretain q))

end Supported

theorem mirrors_update (s : Solution K) :
    Mirrors cfg.timeLimit keep id (modifyFrontier fun f => (f.update s).2)
      (modifyFrontier fun f => (f.update (s.redact keep)).2) :=
  mirrors_modifyFrontier fun f => f.redact_update keep s

namespace Splitting

theorem mirrors_drain (fuel : ℕ) (queue : List (Region K)) :
    Mirrors cfg.timeLimit keep id (drain cfg fuel queue)
      (drain (cfg.redact keep output?) fuel queue) := by
  induction fuel generalizing queue with
  | zero =>
      rw [drain, drain]
      split
      · exact mirrors_pure id ()
      · exact mirrors_cut id _
  | succ fuel ih =>
      rw [drain, drain, Config.redact]
      cases cfg.queueOrder.pop? queue with
      | none => exact mirrors_pure id ()
      | some popped =>
          obtain ⟨region, queue⟩ := popped
          refine mirrors_checkTime.bind fun _ => (mirrors_tell _).bind fun _ => ?_
          refine (mirrors_tell _).bind fun _ => mirrors_solve.bind fun answer => ?_
          cases answer with
          | infeasible => exact ih queue
          | timedOut nodes => exact mirrors_cut id _
          | optimal best =>
              dsimp only [id]
              rw [Optimum.toSolution_and]
              exact (mirrors_update cfg keep _).bind fun _ => ih _

theorem mirrors_search (fuel : ℕ) (pairs : List (Solution K × Solution K)) :
    Mirrors cfg.timeLimit keep id (search cfg fuel pairs)
      (search (cfg.redact keep output?) fuel
        (pairs.map (Prod.map (Solution.redact keep) (Solution.redact keep)))) := by
  induction pairs with
  | nil => exact mirrors_pure id ()
  | cons pair pairs ih =>
      refine (mirrors_tell _).bind fun _ => ?_
      exact (mirrors_drain cfg keep output? fuel _).bind fun _ => ih

theorem mirrors_phase (fuel : ℕ) :
    Mirrors cfg.timeLimit keep id (phase cfg fuel) (phase (cfg.redact keep output?) fuel) := by
  intro p
  have hreleased : ∀ status, Mirrors cfg.timeLimit keep id (phase.released (K := K) status)
      (phase.released status) := by
    intro status
    exact (mirrors_tell _).bind fun _ => (mirrors_tell _).bind fun _ => mirrors_pure id status
  have hpairs : neighbours (p.redact keep).frontier.supported =
      (neighbours p.frontier.supported).map (Prod.map (·.redact keep) (·.redact keep)) :=
    neighbours_map _ _
  rw [phase, phase, hpairs]
  refine (mirrors_search cfg keep output? fuel _ p).bind fun e e' he => ?_
  subst he
  rcases e with ⟨cut | _, q⟩
  · cases cut with
    | overflow => exact .done rfl
    | outOfFuel => exact .done rfl
    | timeout => exact hreleased .partly q
    | infeasible stage => exact hreleased .partly q
    | tooManyVariables => exact hreleased .partly q
  · exact hreleased .completed q

end Splitting

namespace Ranking

theorem mirrors_drain (w : Weights K) (lo hi : K) (fuel : ℕ) :
    Mirrors cfg.timeLimit keep id (drain cfg w lo hi fuel)
      (drain (cfg.redact keep output?) w lo hi fuel) := by
  induction fuel with
  | zero => exact mirrors_cut id _
  | succ fuel ih =>
      refine mirrors_solve.bind fun answer => ?_
      cases answer with
      | infeasible => exact mirrors_pure id _
      | timedOut nodes => exact mirrors_pure id _
      | optimal best =>
          refine mirrors_frontier.bind fun f => ?_
          dsimp only [id]
          rw [Frontier.nadirWithin?_redact]
          refine .ite (mirrors_pure id _) ?_
          -- What is excluded is taken from the answer, not from the solution that is stored.
          rw [Config.redact, Solution.mk_and]
          refine (mirrors_update cfg keep _).bind fun _ => (mirrors_tell _).bind fun _ => ?_
          refine mirrors_isOver.bind fun ended => ?_
          cases ended with
          | true => exact mirrors_pure id _
          | false => exact ih

theorem mirrors_search (fuel : ℕ) (pairs : List (Solution K × Solution K)) (status : Status) :
    Mirrors cfg.timeLimit keep id (search cfg fuel pairs status)
      (search (cfg.redact keep output?) fuel
        (pairs.map (Prod.map (Solution.redact keep) (Solution.redact keep))) status) := by
  induction pairs generalizing status with
  | nil => exact mirrors_pure id status
  | cons pair pairs ih =>
      refine (mirrors_tell _).bind fun _ => (mirrors_tell _).bind fun _ => ?_
      refine (mirrors_tell _).bind fun _ => ?_
      exact (mirrors_drain cfg keep output? _ _ _ fuel).bind fun here => ih (status.and here)

theorem mirrors_phase (dimension fuel : ℕ) :
    Mirrors cfg.timeLimit keep id (phase cfg dimension fuel)
      (phase (cfg.redact keep output?) dimension fuel) := by
  rw [phase, phase]
  refine .ite ((mirrors_cut id _).bind fun _ => ?_) ?_
  all_goals
    refine mirrors_frontier.bind fun f => ?_
    have hpairs : neighbours (f.redact keep).supported =
        (neighbours f.supported).map (Prod.map (·.redact keep) (·.redact keep)) :=
      neighbours_map _ _
    dsimp only
    rw [hpairs]
    refine (mirrors_search cfg keep output? fuel _ _).bind fun status => ?_
    exact (mirrors_tell _).bind fun _ => (mirrors_tell _).bind fun _ => mirrors_pure id status

end Ranking

theorem Run.mirrors_secondPhase (dimension fuel : ℕ) :
    Mirrors cfg.timeLimit keep id (secondPhase cfg dimension fuel)
      (secondPhase (cfg.redact keep output?) dimension fuel) := by
  cases hstrategy : cfg.strategy with
  | splitting =>
      have hstrategy' : (cfg.redact keep output?).strategy = .splitting := hstrategy
      rw [secondPhase_splitting hstrategy, secondPhase_splitting hstrategy']
      exact Splitting.mirrors_phase cfg keep output? fuel
  | ranking =>
      have hstrategy' : (cfg.redact keep output?).strategy = .ranking := hstrategy
      rw [secondPhase_ranking hstrategy, secondPhase_ranking hstrategy']
      exact Ranking.mirrors_phase cfg keep output? dimension fuel

end Phases

def Conclusion.redact {K : Type} (keep : Bool) (c : Conclusion K) : Conclusion K :=
  { c with frontier := c.frontier.redact keep }

namespace Run

variable {K : Type}

theorem counters_statistics_redact (keep : Bool) (dimension phaseOneSolutions : ℕ)
    (one one' total total' : Duration) (p : Progress K) :
    (statistics dimension phaseOneSolutions one' total' (p.redact keep)).counters =
      (statistics dimension phaseOneSolutions one total p).counters := by
  simp only [statistics, Statistics.counters, Progress.redact, Frontier.redact, Frontier.size,
    List.countP_map, List.length_map]
  rfl

/-- The results agree, but for the times and for what is redacted. -/
def Redacts (keep : Bool) (result result' : Except Failure (Conclusion K)) : Prop :=
  result'.map Conclusion.timeless = result.map fun c => c.timeless.redact keep

variable [Scalar K]

theorem matches_rest (cfg : Config K) (keep : Bool) (output? : Option String)
    (dimension fuel : ℕ) (result : Except Cut Status) (p : Progress K) :
    Session.Matches (SameSide cfg.timeLimit) (Redacts keep)
      (rest cfg dimension fuel (result, p))
      (rest (cfg.redact keep output?) dimension fuel (result, p.redact keep)) := by
  cases result with
  | error cut => exact .done rfl
  | ok first =>
      refine .clock fun one one' _ => ?_
      refine (mirrors_secondPhase cfg keep output? dimension fuel p).bind fun e e' he => ?_
      subst he
      rcases e with ⟨cut | second, q⟩
      · exact .done rfl
      · refine .clock fun total total' _ => .done (congrArg Except.ok ?_)
        have hsize : (p.redact keep).frontier.size = p.frontier.size := List.length_map _
        have hcounters := counters_statistics_redact keep dimension p.frontier.size one one' total
          total' q
        simp only [Conclusion.timeless, Conclusion.redact, hsize, hcounters]
        rfl

theorem matches_session (cfg : Config K) (keep : Bool) (output? : Option String)
    (dimension fuel : ℕ) :
    Session.Matches (SameSide cfg.timeLimit) (Redacts keep) (session cfg dimension fuel)
      (session (cfg.redact keep output?) dimension fuel) := by
  by_cases hdim : dimension = 0
  · rw [session, session, if_pos hdim, if_pos hdim]
    exact .done rfl
  · rw [session_eq cfg hdim, session_eq _ hdim]
    refine (Supported.mirrors_phase cfg keep output? _).bind fun e e' he => ?_
    subst he
    rw [Except.map_id]
    exact matches_rest cfg keep output? dimension fuel e.1 e.2

end Run

namespace Method

/-- What a run leaves behind depends on the configuration but for its output, on the oracle,
and on the clock as far as it tells whether time is over. -/
theorem run_mirrored {K σ : Type} [Scalar K] {m m' : Method K} (keep : Bool)
    (output? : Option String) (hconfig : m'.config = m.config.redact keep output?)
    (fmt fmt' : ReportFormat K) (o : Oracle K σ) {clock clock' : Clock}
    (hclock : ∀ t, m.config.timeLimit ≤ clock t ↔ m.config.timeLimit ≤ clock' t) (fuel : ℕ) (s : σ)
    (files files' : Files) :
    let ran := m.run fmt o clock fuel s files
    let ran' := m'.run fmt' o clock' fuel s files'
    Run.Redacts keep ran.result ran'.result ∧ ran'.world = ran.world := by
  intro ran ran'
  simp only [ran, ran', run_result, run_world, hconfig]
  exact (Run.matches_session m.config keep output? o.dimension fuel).exec o hclock (.start s)

/-- A run that keeps no assignments tells, asks and is answered the same as the run that keeps
them, and so it comes to the same state, counters and failure or status. Its frontier is that of
the other run without the assignments. -/
theorem run_redacted {K σ : Type} [Scalar K] (m : Method K) (fmt fmt' : ReportFormat K)
    (o : Oracle K σ) {clock clock' : Clock}
    (hclock : ∀ t, m.config.timeLimit ≤ clock t ↔ m.config.timeLimit ≤ clock' t) (fuel : ℕ) (s : σ)
    (files files' : Files) :
    let keeping : Method K := { m with config := { m.config with keepDecisions := true } }
    let leaving : Method K := { m with config := { m.config with keepDecisions := false } }
    let full := keeping.run fmt o clock fuel s files
    let bare := leaving.run fmt' o clock' fuel s files'
    bare.world = full.world ∧
      bare.method.state = full.method.state ∧
      bare.method.statistics.counters = full.method.statistics.counters ∧
      bare.result.map Conclusion.timeless =
        full.result.map fun c =>
          { status := c.status
            frontier :=
              { all := c.frontier.all.map fun s => { s with decisions := [] }
                supported := c.frontier.supported.map fun s => { s with decisions := [] }
                eps := c.frontier.eps
                worstNadir? := c.frontier.worstNadir? }
            statistics := c.statistics.counters } := by
  intro keeping leaving full bare
  have hconfig : leaving.config = keeping.config.redact false m.config.output? := rfl
  obtain ⟨hresult, hworld⟩ :=
    run_mirrored false _ hconfig fmt fmt' o hclock fuel s files files'
  have hfull : full.method = keeping.after full.result := run_method ..
  have hbare : bare.method = leaving.after bare.result := run_method ..
  change Run.Redacts false full.result bare.result at hresult
  have hmethod : bare.method.state = full.method.state ∧
      bare.method.statistics.counters = full.method.statistics.counters := by
    rw [hfull, hbare]
    unfold Run.Redacts at hresult
    generalize full.result = result at hresult
    generalize bare.result = result' at hresult
    rcases result with failure | c <;> rcases result' with failure' | c'
    · exact ⟨rfl, rfl⟩
    · cases hresult
    · cases hresult
    · exact ⟨rfl, congrArg Conclusion.statistics (Except.ok.inj hresult)⟩
  exact ⟨hworld, hmethod.1, hmethod.2, hresult⟩

/-- Three items by ranking, with clocks that differ by a second. -/
theorem run_redacted_pickOne :
    let ran := fun (keepDecisions : Bool) (clock : Clock) =>
      ({ config := { Config.plain .ranking with keepDecisions } } : Method ℚ).run .bare
        (Enumerator.oracle pickOne) clock 9 (.ofProgram pickOne none) .empty
    let bare := ran false fun _ => .ofParts 1 0
    let full := ran true .still
    full.result.map (·.frontier.all.map (·.decisions)) =
        .ok [[1, 0, 0], [0, 1, 0], [0, 0, 1]] ∧
      bare.result.map Conclusion.timeless = full.result.map (·.timeless.redact false) ∧
      bare.world.record = full.world.record ∧ bare.method.state = .done := by
  intro ran bare full
  have hclock : ∀ t, (Config.plain .ranking).timeLimit ≤ Clock.still t ↔
      (Config.plain .ranking).timeLimit ≤ Duration.ofParts 1 0 :=
    fun t => iff_of_false (Config.neverOver_plain .ranking t) (by decide)
  obtain ⟨hworld, hstate, -, hresult⟩ := run_redacted { config := Config.plain .ranking } .bare
    .bare (Enumerator.oracle pickOne) hclock 9 (.ofProgram pickOne none) .empty .empty
  have hdone : full.method.state = .done := by decide +kernel
  exact ⟨by decide +kernel, hresult, congrArg World.record hworld, hstate.trans hdone⟩

end Method

end Biobjective
