import Biobjective.Proofs.QueueOrder
import Biobjective.Proofs.RankingDeadline
import Biobjective.Proofs.SplittingDeadline

/-!
# The conduct of a phase

What a phase tells, what it counts and what it makes of the frontier can be said step by
step. `Phase.Abides` says that a phase keeps to given rules with every clock, from every
progress and in every world: it tells only what may be told, the work that it counts is
that of the answers it got, and it keeps a property of the frontier. What may be told can
depend on the frontier, on the gap that is searched and on the box at hand. Each phase of a
run abides by rules that allow its own steps. `Run.session_counters` reads the counters of
a conclusion off the record of the run.
-/

namespace Biobjective

theorem exists_of_map_eq_ok {ε α β : Type} {g : α → β} {x : Except ε α} {b : β}
    (h : x.map g = .ok b) : ∃ a, x = .ok a ∧ g a = b := by
  cases x with
  | error e => cases h
  | ok a => exact ⟨a, rfl, Except.ok.inj h⟩

/-- The answers in a record. -/
def answersOf {K : Type} (record : List (Exchange K)) : List (Answer K) :=
  record.filterMap fun
    | .told _ => none
    | .solved a => some a

@[simp] theorem answersOf_nil {K : Type} : answersOf ([] : List (Exchange K)) = [] := rfl

@[simp] theorem answersOf_told {K : Type} (d : Directive K) (record : List (Exchange K)) :
    answersOf (.told d :: record) = answersOf record := rfl

@[simp] theorem answersOf_solved {K : Type} (a : Answer K) (record : List (Exchange K)) :
    answersOf (.solved a :: record) = a :: answersOf record := rfl

theorem answersOf_append {K : Type} (record record' : List (Exchange K)) :
    answersOf (record ++ record') = answersOf record ++ answersOf record' :=
  List.filterMap_append

theorem length_answersOf {K : Type} (record : List (Exchange K)) :
    (answersOf record).length = solveCount record := by
  induction record with
  | nil => rfl
  | cons x record ih =>
      cases x with
      | told d => rw [answersOf_told, ih, solveCount_told]
      | solved a => rw [answersOf_solved, List.length_cons, ih, solveCount_solved]

theorem Work.calls_of_tally? {K : Type} {work work' : Work} {answers : List (Answer K)}
    (h : work.tally? answers = some work') : work'.calls = work.calls + answers.length := by
  induction answers generalizing work with
  | nil =>
      cases h
      rfl
  | cons a answers ih =>
      rw [tally?_cons] at h
      obtain ⟨work1, hrecord, htally⟩ := Option.bind_eq_some_iff.1 h
      obtain ⟨-, rfl⟩ := record?_eq_some_iff.1 hrecord
      rw [ih htally, List.length_cons, Nat.add_right_comm, Nat.add_assoc]

/-- The oracle keeps `T` of its states, and in such a state `good` holds of its optima. -/
structure Oracle.Vouches {K σ : Type} (o : Oracle K σ) (T : σ → Prop)
    (good : Optimum K → Prop) : Prop where
  follow : ∀ s d, T s → T (o.follow s d)
  solve : ∀ s, T s → T (o.solve s).2
  optimal : ∀ s best, T s → (o.solve s).1 = .optimal best → good best

theorem Oracle.vouches_trivial {K σ : Type} (o : Oracle K σ) :
    o.Vouches (fun _ => True) fun _ => True :=
  ⟨fun _ _ _ => trivial, fun _ _ => trivial, fun _ _ _ _ => trivial⟩

/-- The cut is due to an infeasible answer. -/
def Cut.Fatal (cut : Cut) : Prop := ∃ stage, cut = .infeasible stage

/-- Only a fatal cut amounts to a fault. -/
theorem Cut.fatal_of_failure_eq {cut : Cut} {fault : Fault} (h : cut.failure = .fault fault) :
    cut.Fatal := by
  cases cut with
  | infeasible stage => exact ⟨stage, rfl⟩
  | timeout => cases h
  | overflow => cases h
  | tooManyVariables => cases h
  | outOfFuel => cases h

theorem Cut.failure_eq_addOverflow_iff {cut : Cut} :
    cut.failure = .crash .addOverflow ↔ cut = .overflow := by
  cases cut <;> simp [failure]

/-- The solution is the optimum's, without the mark of a supported point; the assignment, if
it is kept, is as the oracle gave it or rounded. -/
structure Optimum.Unmarked {K : Type} [Scalar K] (best : Optimum K) (keepDecisions : Bool)
    (s : Solution K) : Prop where
  toPoint_eq : s.toPoint = best.toPoint
  supported_eq : s.supported = false
  decisions_eq : s.decisions = (if keepDecisions then best.decisions else []) ∨
    s.decisions = if keepDecisions then best.decisions.map binary else []

namespace Phase

/-- What is known of the optima that a phase is given, what it may tell, what it is to keep
of the frontier, which gaps and boxes it may search, and by what it may be cut. -/
structure Rules (K : Type) where
  found : Optimum K → Prop := fun _ => True
  told : Directive K → Prop := fun _ => True
  frontier : Frontier K → Prop := fun _ => True
  gap : Solution K × Solution K → Prop := fun _ => True
  region : Region K → Prop := fun _ => True
  cut : Cut → Prop := fun _ => True

variable {K σ α β : Type}

/-- An ending with `tail` added to the record keeps to the rules. An answer that overflows
the counter is not counted. -/
structure Conducted (r : Rules K) (p : Progress K) (w : World K σ) (e : Ending K σ α)
    (tail : List (Exchange K)) : Prop where
  adds : w.Adds e.2 tail
  told : ∀ d, .told d ∈ tail → r.told d
  solved : ∀ best, .solved (.optimal best) ∈ tail → r.found best
  work : e.1.1 ≠ .error .overflow → p.work.tally? (answersOf tail) = some e.1.2.work
  overflow : e.1.1 = .error .overflow → p.work.tally? (answersOf tail) = none
  frontier : r.frontier e.1.2.frontier

namespace Conducted

variable {r : Rules K} {p p1 : Progress K} {w w1 : World K σ}

theorem of_silent (hp : r.frontier p.frontier) (h : w.Adds w1 []) {result : Except Cut α}
    (hresult : result ≠ .error .overflow) : Conducted r p w ((result, p), w1) [] :=
  ⟨h, fun _ hd => absurd hd List.not_mem_nil, fun _ hbest => absurd hbest List.not_mem_nil,
    fun _ => rfl, fun ho => absurd ho hresult, hp⟩

/-- A result other than an overflow can be turned into any other such result. -/
theorem recast {result : Except Cut α} {result' : Except Cut β} {tail : List (Exchange K)}
    (h : Conducted r p w ((result, p1), w1) tail)
    (hresult : result = .error .overflow ↔ result' = .error .overflow) :
    Conducted r p w ((result', p1), w1) tail :=
  ⟨h.adds, h.told, h.solved, fun hne => h.work (mt hresult.1 hne),
    fun ho => h.overflow (hresult.2 ho), h.frontier⟩

theorem overflow_iff {e : Ending K σ α} {tail : List (Exchange K)} (h : Conducted r p w e tail) :
    e.1.1 = .error .overflow ↔ p.work.tally? (answersOf tail) = none := by
  refine ⟨h.overflow, fun hnone => ?_⟩
  by_contra hne
  exact Option.some_ne_none _ ((h.work hne).symm.trans hnone)

theorem trans {a : α} {e : Ending K σ β} {tail tail' : List (Exchange K)}
    (h : Conducted r p w ((.ok a, p1), w1) tail) (h' : Conducted r p1 w1 e tail') :
    Conducted r p w e (tail ++ tail') := by
  have htally : p.work.tally? (answersOf (tail ++ tail')) =
      p1.work.tally? (answersOf tail') := by
    rw [answersOf_append, Work.tally?_append, h.work nofun, Option.bind_some]
  refine ⟨h.adds.trans h'.adds, ?_, ?_, ?_, ?_, h'.frontier⟩
  · exact fun d hd => (List.mem_append.1 hd).elim (h.told d) (h'.told d)
  · exact fun best hbest => (List.mem_append.1 hbest).elim (h.solved best) (h'.solved best)
  · exact fun hne => htally.trans (h'.work hne)
  · exact fun ho => htally.trans (h'.overflow ho)

end Conducted

/-- An ending keeps to the rules, `T` holds of the oracle's state and `good` of the result. -/
structure Honours (T : σ → Prop) (r : Rules K) (good : α → Prop) (p : Progress K)
    (w : World K σ) (e : Ending K σ α) : Prop where
  state : T e.2.oracle
  result : ∀ a, e.1.1 = .ok a → good a
  cut : ∀ cut, e.1.1 = .error cut → r.cut cut
  conducted : ∃ tail, Conducted r p w e tail

namespace Honours

variable {T : σ → Prop} {r : Rules K} {good : α → Prop} {good' : β → Prop} {p p1 : Progress K}
  {w w1 : World K σ}

theorem error {cut : Cut} (h : Honours T r good p w ((.error cut, p1), w1)) :
    Honours T r good' p w ((.error cut, p1), w1) := by
  obtain ⟨tail, htail⟩ := h.conducted
  refine ⟨h.state, nofun, fun cut' hcut' => ?_, tail, htail.recast (by simp)⟩
  cases hcut'
  exact h.cut cut rfl

theorem excused {cut : Cut} (h : Honours T r good p w ((.error cut, p1), w1))
    (hcut : cut ≠ .overflow) (b : β) :
    Honours T r (fun _ : β => True) p w ((.ok b, p1), w1) := by
  obtain ⟨tail, htail⟩ := h.conducted
  exact ⟨h.state, fun _ _ => trivial, nofun, tail, htail.recast (by simp [hcut])⟩

theorem frontier {e : Ending K σ α} (h : Honours T r good p w e) :
    r.frontier e.1.2.frontier := by
  obtain ⟨tail, htail⟩ := h.conducted
  exact htail.frontier

theorem trans {a : α} {e : Ending K σ β} (h : Honours T r good p w ((.ok a, p1), w1))
    (h' : Honours T r good' p1 w1 e) : Honours T r good' p w e := by
  obtain ⟨tail, htail⟩ := h.conducted
  obtain ⟨tail', htail'⟩ := h'.conducted
  exact ⟨h'.state, h'.result, h'.cut, tail ++ tail', htail.trans htail'⟩

end Honours

/-- With every clock, from every progress with a frontier as the rules ask for and in every
world for which `T` holds, the phase keeps to the rules. -/
def Abides (o : Oracle K σ) (T : σ → Prop) (r : Rules K) (good : α → Prop) (x : Phase K α) :
    Prop :=
  ∀ c p w, T w.oracle → r.frontier p.frontier → Honours T r good p w (hold o c x p w)

theorem Ensures.ok_of_hold {o : Oracle K σ} {c : Clock} {x : Phase K α} {p p1 : Progress K}
    {w w1 : World K σ} {ok : α → Progress K → World K σ → Prop}
    {err : Cut → Progress K → World K σ → Prop} {a : α} (h : Ensures o c x p w ok err)
    (he : hold o c x p w = ((.ok a, p1), w1)) : ok a p1 w1 := by
  unfold Ensures at h
  rw [hold] at he
  rw [he] at h
  exact h

theorem Ensures.error_of_hold {o : Oracle K σ} {c : Clock} {x : Phase K α} {p p1 : Progress K}
    {w w1 : World K σ} {ok : α → Progress K → World K σ → Prop}
    {err : Cut → Progress K → World K σ → Prop} {cut : Cut} (h : Ensures o c x p w ok err)
    (he : hold o c x p w = ((.error cut, p1), w1)) : err cut p1 w1 := by
  unfold Ensures at h
  rw [hold] at he
  rw [he] at h
  exact h

section Steps

variable {o : Oracle K σ} {T : σ → Prop} {r : Rules K}

theorem abides_pure {good : α → Prop} {a : α} (ha : good a) :
    Abides o T r good (Pure.pure a : Phase K α) := by
  intro c p w hw hp
  refine ⟨hw, fun b hb => ?_, nofun, [], .of_silent hp (.refl w) nofun⟩
  cases hb
  exact ha

theorem abides_cut {good : α → Prop} {cut : Cut} (hcut : r.cut cut) (hne : cut ≠ .overflow) :
    Abides o T r good (Phase.cut cut : Phase K α) := by
  intro c p w hw hp
  refine ⟨hw, nofun, fun cut' hcut' => ?_, [],
    .of_silent hp (.refl w) fun ho => hne (Except.error.inj ho)⟩
  cases hcut'
  exact hcut

theorem Abides.bind {good : α → Prop} {good' : β → Prop} {x : Phase K α} {f : α → Phase K β}
    (hx : Abides o T r good x) (hf : ∀ a, good a → Abides o T r good' (f a)) :
    Abides o T r good' (x >>= f) := by
  intro c p w hw hp
  have hends := hx c p w hw hp
  rw [hold_bind]
  generalize hold o c x p w = e at hends
  rcases e with ⟨⟨cut | a, p1⟩, w1⟩
  · exact hends.error
  · exact hends.trans (hf a (hends.result a rfl) c p1 w1 hends.state hends.frontier)

theorem abides_tell (hv : o.Vouches T r.found) {d : Directive K} (hd : r.told d) :
    Abides o T r (fun _ => True) (tell d) := by
  intro c p w hw hp
  refine ⟨hv.follow _ d hw, fun _ _ => trivial, nofun, [.told d], .tell w o d, ?_, ?_,
    fun _ => rfl, nofun, hp⟩
  · intro d' hd'
    cases List.mem_singleton.1 hd'
    exact hd
  · intro best hbest
    cases List.mem_singleton.1 hbest

theorem abides_solve (hv : o.Vouches T r.found) (hoverflow : r.cut .overflow) :
    Abides o T r (fun a => ∀ best, a = .optimal best → r.found best) solve := by
  intro c p w hw hp
  have hstate : T (w.solve o).2.oracle := hv.solve _ hw
  have htold : ∀ d, Exchange.told d ∈ [.solved (w.solve o).1] → r.told d := by
    intro d hd
    cases List.mem_singleton.1 hd
  have hfound : ∀ best, .solved (.optimal best) ∈ [Exchange.solved (w.solve o).1] →
      r.found best := by
    intro best hbest
    exact hv.optimal _ best hw (Exchange.solved.inj (List.mem_singleton.1 hbest)).symm
  have htally : p.work.tally? (answersOf [.solved (w.solve o).1]) =
      p.work.record? (w.solve o).1.nodes := by
    rw [answersOf_solved, answersOf_nil, Work.tally?_cons]
    exact Option.bind_fun_some _
  simp only [hold, solve, Session.exec]
  cases hrecord : p.work.record? (w.solve o).1.nodes with
  | none =>
      refine ⟨hstate, fun _ ha => ?_, fun cut hcut => ?_, _, .solve w o, htold, hfound,
        fun hne => ?_, fun _ => htally.trans hrecord, hp⟩
      · cases ha
      · cases hcut
        exact hoverflow
      · exact absurd rfl hne
  | some work =>
      refine ⟨hstate, fun a ha best hbest => ?_, fun _ hcut => ?_, _, .solve w o, htold, hfound,
        fun _ => htally.trans hrecord, fun ho => ?_, hp⟩
      · cases ha
        exact hv.optimal _ best hw hbest
      · cases hcut
      · cases ho

theorem abides_demand (htimeout : r.cut .timeout) {stage : Stage}
    (hinfeasible : r.cut (.infeasible stage)) {a : Answer K} (ha : ∀ best, a = .optimal best → r.found best) :
    Abides o T r r.found (demand stage a) := by
  cases a with
  | optimal best => exact abides_pure (ha best rfl)
  | infeasible => exact abides_cut hinfeasible nofun
  | timedOut nodes => exact abides_cut htimeout nofun

theorem abides_isOver (limit : Duration) : Abides o T r (fun _ => True) (isOver limit) := by
  intro c p w hw hp
  exact ⟨hw, fun _ _ => trivial, nofun, [], .of_silent hp (.time w c) nofun⟩

theorem abides_checkTime (htimeout : r.cut .timeout) (limit : Duration) :
    Abides o T r (fun _ => True) (checkTime limit) := by
  refine (abides_isOver limit).bind fun ended _ => ?_
  cases ended with
  | true => exact abides_cut htimeout nofun
  | false => exact abides_pure trivial

theorem abides_frontier : Abides o T r r.frontier frontier := by
  intro c p w hw hp
  refine ⟨hw, fun f hf => ?_, nofun, [], .of_silent hp (.refl w) nofun⟩
  cases hf
  exact hp

theorem abides_modifyFrontier {g : Frontier K → Frontier K}
    (hg : ∀ f, r.frontier f → r.frontier (g f)) :
    Abides o T r (fun _ => True) (modifyFrontier g) := by
  intro c p w hw hp
  exact ⟨hw, fun _ _ => trivial, nofun, [], .refl w, fun _ hd => absurd hd List.not_mem_nil,
    fun _ hbest => absurd hbest List.not_mem_nil, fun _ => rfl, nofun, hg p.frontier hp⟩

end Steps

namespace Rules

variable [Scalar K]

/-- The rules allow what is done under a chord. -/
structure AllowsChords (r : Rules K) (cfg : Config K) : Prop where
  weights : ∀ f, r.frontier f → ∀ a ∈ f.supported, ∀ b ∈ f.supported,
    r.told (.weights (a.chord b)) := by intros; exact True.intro
  insert : ∀ f best, r.found best → r.frontier f →
    r.frontier (f.insertSupported (best.toSolution true cfg.keepDecisions)) := by
      intros; exact True.intro
  timeout : r.cut .timeout := by exact True.intro
  overflow : r.cut .overflow := by exact True.intro
  infeasible : ∀ stage, r.cut (.infeasible stage) := by intros; exact True.intro

/-- The rules allow what the first phase does. -/
structure AllowsFirst (r : Rules K) (cfg : Config K) : Prop extends AllowsChords r cfg where
  anchor : ∀ i, r.told (.weights (Anchor.weightsOf i)) := by intros; exact True.intro
  cap : ∀ i best, r.found best →
    r.told (.bound i ⟨none, some (i.of best.toPoint + cfg.tolerances.tie)⟩) := by
      intros; exact True.intro
  clear : ∀ i, r.told (.clear i) := by intros; exact True.intro
  retain : ∀ f, r.frontier f → r.frontier f.retainSupported := by intros; exact True.intro

/-- The rules allow what the second phase does by either strategy. -/
structure AllowsSecond (r : Rules K) (cfg : Config K) : Prop where
  gap : ∀ f, r.frontier f → ∀ ab ∈ neighbours f.supported, r.gap ab := by
    intros; exact True.intro
  weights : ∀ ab, r.gap ab → r.told (.weights (ab.1.chord ab.2)) := by intros; exact True.intro
  clear : ∀ i, r.told (.clear i) := by intros; exact True.intro
  update : ∀ f best s, r.found best → best.Unmarked cfg.keepDecisions s → r.frontier f →
    r.frontier (f.update s).2 := by intros; exact True.intro
  cut : ∀ cut, ¬cut.Fatal → cut ≠ .tooManyVariables → r.cut cut := by intros; exact True.intro

section AllowsSecond

variable {r : Rules K} {cfg : Config K} (hr : r.AllowsSecond cfg)
include hr

theorem AllowsSecond.timeout : r.cut .timeout := hr.cut _ nofun nofun

theorem AllowsSecond.overflow : r.cut .overflow := hr.cut _ nofun nofun

theorem AllowsSecond.outOfFuel : r.cut .outOfFuel := hr.cut _ nofun nofun

end AllowsSecond

/-- The rules allow splitting. -/
structure AllowsSplitting (r : Rules K) (cfg : Config K) : Prop extends AllowsSecond r cfg where
  corners : ∀ ab, r.gap ab → r.region (.ofCorners ab.1 ab.2) := by intros; exact True.intro
  split : ∀ box best, r.region box → r.found best → ∀ part ∈ box.split best.toPoint,
    r.region part := by intros; exact True.intro
  range : ∀ box, r.region box → ∀ i, r.told (.bound i (box.range i)) := by
    intros; exact True.intro

/-- The rules allow ranking. -/
structure AllowsRanking (r : Rules K) (cfg : Config K) : Prop extends AllowsSecond r cfg where
  first : ∀ ab, r.gap ab → r.told (.bound .first (.between ab.1.z1 (ab.2.z1 - 1))) := by
    intros; exact True.intro
  second : ∀ ab, r.gap ab → r.told (.bound .second (.between ab.2.z2 (ab.1.z2 - 1))) := by
    intros; exact True.intro
  exclude : ∀ best, r.found best → r.told (.exclude (noGood (best.decisions.map binary))) := by
    intros; exact True.intro

theorem allowsFirst_trivial (cfg : Config K) : ({} : Rules K).AllowsFirst cfg := {}

end Rules

end Phase

open Phase

section FirstPhase

variable {K σ : Type} [Scalar K] {o : Oracle K σ} {T : σ → Prop} {r : Rules K} {cfg : Config K}

theorem Anchor.told_tieWeights (hr : r.AllowsFirst cfg) (a : Anchor) :
    r.told (.weights a.tieWeights) := by
  cases a with
  | upperLeft => exact hr.anchor .second
  | lowerRight => exact hr.anchor .first

theorem Anchor.abides_find (hv : o.Vouches T r.found) (hr : r.AllowsFirst cfg) (a : Anchor) :
    Abides o T r (fun s => ∃ best, r.found best ∧ s = best.toSolution true cfg.keepDecisions)
      (a.find cfg) := by
  refine (abides_tell hv (hr.anchor _)).bind fun _ _ => ?_
  refine (abides_solve hv hr.overflow).bind fun answer hanswer => ?_
  refine (abides_demand hr.timeout (hr.infeasible _) hanswer).bind fun level hlevel => ?_
  refine (abides_checkTime hr.timeout cfg.timeLimit).bind fun _ _ => ?_
  refine (abides_tell hv (hr.cap _ level hlevel)).bind fun _ _ => ?_
  refine (abides_tell hv (told_tieWeights hr a)).bind fun _ _ => ?_
  refine (abides_solve hv hr.overflow).bind fun answer hanswer => ?_
  refine (abides_tell hv (hr.clear _)).bind fun _ _ => ?_
  refine (abides_demand hr.timeout (hr.infeasible _) hanswer).bind fun best hbest => ?_
  exact abides_pure ⟨best, hbest, rfl⟩

/-- What the search for an anchor adds to the record, and what it comes to. Once the cap was
told it is released, unless the second answer overflows the counter. -/
inductive Anchor.Dialogue (cfg : Config K) (a : Anchor) :
    List (Exchange K) → Except Cut (Solution K) → Prop
  | level (answer : Answer K) (cut : Cut) :
      Dialogue cfg a [.told (.weights a.levelWeights), .solved answer] (.error cut)
  | broken (level : Optimum K) (answer : Answer K) :
      Dialogue cfg a
        [.told (.weights a.levelWeights), .solved (.optimal level),
          .told (.bound a.primary ⟨none, some (a.primary.of level.toPoint + cfg.tolerances.tie)⟩),
          .told (.weights a.tieWeights), .solved answer]
        (.error .overflow)
  | whole (level : Optimum K) (answer : Answer K) (result : Except Cut (Solution K)) :
      Dialogue cfg a
        [.told (.weights a.levelWeights), .solved (.optimal level),
          .told (.bound a.primary ⟨none, some (a.primary.of level.toPoint + cfg.tolerances.tie)⟩),
          .told (.weights a.tieWeights), .solved answer, .told (.clear a.primary)]
        result

theorem Anchor.find_dialogue (o : Oracle K σ) (c : Clock) (cfg : Config K) (a : Anchor)
    (p : Progress K) (w : World K σ) :
    ∃ tail, w.Adds (hold o c (a.find cfg) p w).2 tail ∧
      Dialogue cfg a tail (hold o c (a.find cfg) p w).1.1 := by
  rw [find, hold_tell_bind, hold_solve_bind]
  have hlevel := (World.Adds.tell w o (.weights a.levelWeights)).trans (.solve _ o)
  cases p.work.record? ((w.tell o (.weights a.levelWeights)).solve o).1.nodes with
  | none => exact ⟨_, hlevel, .level _ _⟩
  | some work =>
      simp only [hold_demand_bind]
      cases hanswer : ((w.tell o (.weights a.levelWeights)).solve o).1 with
      | infeasible => exact ⟨_, hlevel, .level _ _⟩
      | timedOut nodes => exact ⟨_, hlevel, .level _ _⟩
      | optimal level =>
          simp only [hold_checkTime_bind]
          split
          · exact ⟨_, hlevel.trans (.time _ c), .level _ _⟩
          · rw [hanswer] at hlevel
            have htie := (((hlevel.trans (.time _ c)).trans (.tell _ o (.bound a.primary
              ⟨none, some (a.primary.of level.toPoint + cfg.tolerances.tie)⟩))).trans
              (.tell _ o (.weights a.tieWeights))).trans (.solve _ o)
            rw [hold_tell_bind, hold_tell_bind, hold_solve_bind]
            split
            · rw [hold_tell_bind, hold_demand_bind]
              have hclear := htie.trans (.tell _ o (.clear a.primary))
              split
              · exact ⟨_, hclear, .whole _ _ _⟩
              · exact ⟨_, hclear, .whole _ _ _⟩
              · exact ⟨_, hclear, .whole _ _ _⟩
            · exact ⟨_, htie, .broken _ _⟩

namespace Supported

theorem abides_insert (hr : r.AllowsChords cfg) {s : Solution K}
    (hs : ∃ best, r.found best ∧ s = best.toSolution true cfg.keepDecisions) :
    Abides o T r (fun _ => True) (modifyFrontier (·.insertSupported s)) := by
  obtain ⟨best, hbest, rfl⟩ := hs
  exact abides_modifyFrontier fun f hf => hr.insert f best hbest hf

theorem abides_refine (hv : o.Vouches T r.found) (hr : r.AllowsChords cfg) (chords left : ℕ) :
    Abides o T r (fun _ => True) (refine cfg chords left) := by
  induction chords generalizing left with
  | zero => exact abides_pure trivial
  | succ chords ih =>
      refine abides_frontier.bind fun f hf => ?_
      dsimp only
      split
      · rename_i a b ha hb
        have htold := hr.weights f hf a (List.mem_of_getElem? ha) b (List.mem_of_getElem? hb)
        refine (abides_tell hv htold).bind fun _ _ => ?_
        refine (abides_solve hv hr.overflow).bind fun answer hanswer => ?_
        refine (abides_demand hr.timeout (hr.infeasible _) hanswer).bind fun best hbest => ?_
        split
        · refine (abides_insert hr ⟨best, hbest, rfl⟩).bind fun _ _ => ?_
          exact (abides_checkTime hr.timeout cfg.timeLimit).bind fun _ _ => ih left
        · exact (abides_checkTime hr.timeout cfg.timeLimit).bind fun _ _ => ih (left + 1)
      · exact abides_pure trivial

theorem abides_search (hv : o.Vouches T r.found) (hr : r.AllowsFirst cfg) :
    Abides o T r (fun _ => True) (search cfg) := by
  refine (Anchor.abides_find hv hr .upperLeft).bind fun upperLeft hupperLeft => ?_
  refine (abides_insert hr.toAllowsChords hupperLeft).bind fun _ _ => ?_
  refine (abides_checkTime hr.timeout cfg.timeLimit).bind fun _ _ => ?_
  refine (Anchor.abides_find hv hr .lowerRight).bind fun lowerRight hlowerRight => ?_
  split
  · exact abides_pure trivial
  · refine (abides_insert hr.toAllowsChords hlowerRight).bind fun _ _ => ?_
    refine (abides_checkTime hr.timeout cfg.timeLimit).bind fun _ _ => ?_
    exact abides_refine hv hr.toAllowsChords _ _

theorem abides_phase (hv : o.Vouches T r.found) (hr : r.AllowsFirst cfg) :
    Abides o T r (fun _ => True) (phase cfg) := by
  intro c p w hw hp
  have hsearch := abides_search hv hr c p w hw hp
  rw [hold_phase]
  generalize hold o c (search cfg) p w = e at hsearch
  have hretain : ∀ status p1 w1, Honours T r (fun _ => True) p w ((.ok (), p1), w1) →
      Honours T r (fun _ : Status => True) p w
        ((.ok status, { p1 with frontier := p1.frontier.retainSupported }), w1) := by
    intro status p1 w1 hends
    obtain ⟨tail, htail⟩ := hends.conducted
    exact ⟨hends.state, fun _ _ => trivial, nofun, tail, htail.adds, htail.told, htail.solved,
      fun _ => htail.work nofun, nofun, hr.retain _ htail.frontier⟩
  rcases e with ⟨⟨cut | _, p1⟩, w1⟩
  · cases cut with
    | timeout => exact hretain .partly p1 w1 (hsearch.excused nofun ())
    | infeasible stage => exact hsearch.error
    | overflow => exact hsearch.error
    | tooManyVariables => exact hsearch.error
    | outOfFuel => exact hsearch.error
  · exact hretain .completed p1 w1 hsearch

end Supported

end FirstPhase

section SecondPhase

variable {K σ : Type} [Scalar K] {o : Oracle K σ} {T : σ → Prop} {r : Rules K} {cfg : Config K}

theorem Splitting.abides_drain (hv : o.Vouches T r.found) (hr : r.AllowsSplitting cfg) (fuel : ℕ)
    {queue : List (Region K)} (hqueue : ∀ box ∈ queue, r.region box) :
    Abides o T r (fun _ => True) (drain cfg fuel queue) := by
  induction fuel generalizing queue with
  | zero =>
      rw [drain]
      split
      · exact abides_pure trivial
      · exact abides_cut hr.outOfFuel (by decide)
  | succ fuel ih =>
      rw [drain]
      cases hpop : cfg.queueOrder.pop? queue with
      | none => exact abides_pure trivial
      | some popped =>
          obtain ⟨box, rest⟩ := popped
          have hperm := QueueOrder.perm_of_pop? hpop
          have hbox : r.region box := hqueue box (hperm.subset List.mem_cons_self)
          have hrest : ∀ part ∈ rest, r.region part :=
            fun part hpart => hqueue part (hperm.subset (List.mem_cons_of_mem _ hpart))
          refine (abides_checkTime hr.timeout cfg.timeLimit).bind fun _ _ => ?_
          refine (abides_tell hv (hr.range box hbox _)).bind fun _ _ => ?_
          refine (abides_tell hv (hr.range box hbox _)).bind fun _ _ => ?_
          refine (abides_solve hv hr.overflow).bind fun answer hanswer => ?_
          cases answer with
          | infeasible => exact ih hrest
          | timedOut nodes => exact abides_cut hr.timeout (by decide)
          | optimal best =>
              have hbest : r.found best := hanswer best rfl
              refine (abides_modifyFrontier fun f hf => ?_).bind fun _ _ => ih ?_
              · exact hr.update f best _ hbest ⟨rfl, rfl, Or.inl rfl⟩ hf
              · intro part hpart
                rcases List.mem_append.1 hpart with hpart | hpart
                · exact hrest part hpart
                · exact hr.split box best hbox hbest part hpart

theorem Splitting.abides_search (hv : o.Vouches T r.found) (hr : r.AllowsSplitting cfg) (fuel : ℕ)
    {pairs : List (Solution K × Solution K)} (hpairs : ∀ ab ∈ pairs, r.gap ab) :
    Abides o T r (fun _ => True) (search cfg fuel pairs) := by
  induction pairs with
  | nil => exact abides_pure trivial
  | cons pair pairs ih =>
      obtain ⟨hpair, hpairs⟩ := List.forall_mem_cons.1 hpairs
      refine (abides_tell hv (hr.weights pair hpair)).bind fun _ _ => ?_
      have hbox : ∀ box ∈ [Region.ofCorners pair.1 pair.2], r.region box :=
        List.forall_mem_singleton.2 (hr.corners pair hpair)
      exact (abides_drain hv hr fuel hbox).bind fun _ _ => ih hpairs

theorem Splitting.abides_phase (hv : o.Vouches T r.found) (hr : r.AllowsSplitting cfg)
    (fuel : ℕ) : Abides o T r (fun _ => True) (phase cfg fuel) := by
  intro c p w hw hp
  have hreleased : ∀ status, Abides o T r (fun _ => True) (phase.released (K := K) status) := by
    intro status
    refine (abides_tell hv (hr.clear _)).bind fun _ _ => ?_
    exact (abides_tell hv (hr.clear _)).bind fun _ _ => abides_pure trivial
  have hsearch := abides_search hv hr fuel (hr.gap p.frontier hp) c p w hw hp
  rw [hold_phase]
  generalize hold o c (search cfg fuel (neighbours p.frontier.supported)) p w = e at hsearch
  rcases e with ⟨⟨cut | _, p1⟩, w1⟩
  · have hpartly := hreleased .partly c p1 w1 hsearch.state hsearch.frontier
    cases cut with
    | overflow => exact hsearch.error
    | outOfFuel => exact hsearch.error
    | timeout => exact (hsearch.excused nofun ()).trans hpartly
    | infeasible stage => exact (hsearch.excused nofun ()).trans hpartly
    | tooManyVariables => exact (hsearch.excused nofun ()).trans hpartly
  · exact hsearch.trans (hreleased .completed c p1 w1 hsearch.state hsearch.frontier)

theorem Ranking.abides_drain (hv : o.Vouches T r.found) (hr : r.AllowsRanking cfg)
    (weights : Weights K) (lo hi : K) (fuel : ℕ) :
    Abides o T r (fun _ => True) (drain cfg weights lo hi fuel) := by
  induction fuel with
  | zero => exact abides_cut hr.outOfFuel (by decide)
  | succ fuel ih =>
      rw [drain]
      refine (abides_solve hv hr.overflow).bind fun answer hanswer => ?_
      cases answer with
      | infeasible => exact abides_pure trivial
      | timedOut nodes => exact abides_pure trivial
      | optimal best =>
          have hbest : r.found best := hanswer best rfl
          refine abides_frontier.bind fun f _ => ?_
          dsimp only
          split
          · exact abides_pure trivial
          · refine (abides_modifyFrontier fun f hf => ?_).bind fun _ _ => ?_
            · exact hr.update f best _ hbest ⟨rfl, rfl, Or.inr rfl⟩ hf
            refine (abides_tell hv (hr.exclude best hbest)).bind fun _ _ => ?_
            refine (abides_isOver cfg.timeLimit).bind fun ended _ => ?_
            cases ended with
            | true => exact abides_pure trivial
            | false => exact ih

theorem Ranking.abides_search (hv : o.Vouches T r.found) (hr : r.AllowsRanking cfg) (fuel : ℕ)
    {pairs : List (Solution K × Solution K)} (hpairs : ∀ ab ∈ pairs, r.gap ab) (status : Status) :
    Abides o T r (fun _ => True) (search cfg fuel pairs status) := by
  induction pairs generalizing status with
  | nil => exact abides_pure trivial
  | cons pair pairs ih =>
      obtain ⟨hpair, hpairs⟩ := List.forall_mem_cons.1 hpairs
      refine (abides_tell hv (hr.first pair hpair)).bind fun _ _ => ?_
      refine (abides_tell hv (hr.second pair hpair)).bind fun _ _ => ?_
      refine (abides_tell hv (hr.weights pair hpair)).bind fun _ _ => ?_
      exact (abides_drain hv hr _ _ _ fuel).bind fun here _ => ih hpairs (status.and here)

/-- Only an assignment that is too long to be held cuts ranking before it begins. -/
theorem Ranking.abides_phase (hv : o.Vouches T r.found) (hr : r.AllowsRanking cfg)
    {dimension : ℕ} (hmany : maxLength < dimension → r.cut .tooManyVariables) (fuel : ℕ) :
    Abides o T r (fun _ => True) (phase cfg dimension fuel) := by
  rw [phase]
  split
  · rename_i hlong
    exact (abides_cut (hmany hlong) (by decide)).bind fun _ (h : False) => h.elim
  · refine abides_frontier.bind fun f hf => ?_
    refine (abides_search hv hr fuel (hr.gap f hf) .completed).bind fun status _ => ?_
    refine (abides_tell hv (hr.clear _)).bind fun _ _ => ?_
    exact (abides_tell hv (hr.clear _)).bind fun _ _ => abides_pure trivial

theorem Run.abides_secondPhase (hv : o.Vouches T r.found) (hsplit : r.AllowsSplitting cfg)
    (hrank : r.AllowsRanking cfg) {dimension : ℕ}
    (hmany : maxLength < dimension → r.cut .tooManyVariables) (fuel : ℕ) :
    Abides o T r (fun _ => True) (secondPhase cfg dimension fuel) := by
  cases hstrategy : cfg.strategy with
  | splitting =>
      rw [secondPhase_splitting hstrategy]
      exact Splitting.abides_phase hv hsplit fuel
  | ranking =>
      rw [secondPhase_ranking hstrategy]
      exact Ranking.abides_phase hv hrank hmany fuel

/-- The second phase leaves the supported list as it is. -/
theorem Run.ensures_secondPhase_supported (cfg : Config K) (o : Oracle K σ)
    (dimension fuel : ℕ) (c : Clock) (p : Progress K) (w : World K σ) :
    Ensures o c (secondPhase cfg dimension fuel) p w
      (fun _ p' _ => p'.frontier.supported = p.frontier.supported) (fun _ _ _ => True) := by
  let r : Rules K := { frontier := fun f => f.supported = p.frontier.supported }
  have hr : r.AllowsSecond cfg :=
    { update := fun f _ s _ _ hf => (f.update_supported s).trans hf }
  obtain ⟨-, -, -, tail, htail⟩ := abides_secondPhase (r := r) o.vouches_trivial { hr with }
    { hr with } (fun _ => trivial) fuel c p w trivial rfl
  have hfrontier := htail.frontier
  rw [hold] at hfrontier
  unfold Ensures
  split
  next hexec =>
    rw [hexec] at hfrontier
    exact hfrontier
  next => trivial

/-- The second phase takes an infeasible answer for the end of a box. -/
theorem Run.not_fatal_secondPhase (o : Oracle K σ) (c : Clock) (cfg : Config K)
    (dimension fuel : ℕ) (p : Progress K) (w : World K σ) {cut : Cut}
    (hcut : (hold o c (secondPhase cfg dimension fuel) p w).1.1 = .error cut) : ¬cut.Fatal := by
  let r : Rules K := { cut := fun cut => ¬cut.Fatal }
  have hr : r.AllowsSecond cfg := { cut := fun _ hcut _ => hcut }
  exact (abides_secondPhase (r := r) o.vouches_trivial { hr with } { hr with } (fun _ => nofun)
    fuel c p w trivial trivial).cut cut hcut

end SecondPhase

/-- The statistics without the times. -/
def Statistics.counters (s : Statistics) : Statistics :=
  { s with phaseOneTime := .zero, phaseTwoTime := .zero, totalTime := .zero }

namespace Run

variable {K σ : Type} [Scalar K]

/-- A run that concludes has ended both of its phases. -/
theorem of_session_ok {cfg : Config K} {o : Oracle K σ} {clock : Clock} {fuel : ℕ} {s : σ}
    {c : Conclusion K}
    (hok : ((session cfg o.dimension fuel).exec o clock (.start s)).1 = .ok c) :
    ∃ first p w second p' w', firstPhase cfg o clock s = ((.ok first, p), w) ∧
      hold o clock (secondPhase cfg o.dimension fuel) p (w.time clock).2 =
        ((.ok second, p'), w') ∧
      c = { status := first.and second, frontier := p'.frontier,
            statistics := statistics o.dimension p.frontier.size (clock w.moment)
              (clock w'.moment) p' } ∧
      ((session cfg o.dimension fuel).exec o clock (.start s)).2 = (w'.time clock).2 := by
  by_cases hdim : o.dimension = 0
  · rw [session, if_pos hdim] at hok
    cases hok
  · rw [exec_session cfg o hdim] at hok ⊢
    generalize firstPhase cfg o clock s = e at hok
    rcases e with ⟨⟨cut | first, p⟩, w⟩
    · cases hok
    · rw [exec_rest] at hok ⊢
      rcases hsecond : hold o clock (secondPhase cfg o.dimension fuel) p (w.time clock).2 with
        ⟨⟨cut | second, p'⟩, w'⟩
      · rw [hsecond] at hok
        cases hok
      · rw [hsecond] at hok
        cases hok
        exact ⟨first, p, w, second, p', w', rfl, hsecond, rfl, rfl⟩

/-- What a first phase that ends retains are its supported solutions. -/
theorem all_of_firstPhase {cfg : Config K} {o : Oracle K σ} {clock : Clock} {s : σ}
    {first : Status} {p : Progress K} {w : World K σ}
    (hfirst : firstPhase cfg o clock s = ((.ok first, p), w)) :
    p.frontier.all = p.frontier.supported := by
  rw [firstPhase, Supported.hold_phase] at hfirst
  generalize hold o clock (Supported.search cfg) { frontier := .empty cfg.tolerances.dominance }
    (.start s) = e at hfirst
  rcases e with ⟨⟨cut | _, p1⟩, w1⟩
  · cases cut <;> cases hfirst
    rfl
  · cases hfirst
    rfl

/-- The record of a run and its conclusion keep to rules for each of its phases. -/
structure Conforms (r q : Rules K) (result : Except Failure (Conclusion K))
    (record : List (Exchange K)) : Prop where
  told : ∀ d, .told d ∈ record → r.told d ∨ q.told d
  solved : ∀ best, .solved (.optimal best) ∈ record → r.found best ∨ q.found best
  overflow_iff : result = .error (.crash .addOverflow) ↔
    ({} : Work).tally? (answersOf record) = none
  frontier : ∀ c, result = .ok c → q.frontier c.frontier
  work : ∀ c, result = .ok c → ({} : Work).tally? (answersOf record) =
    some ⟨c.statistics.oracleCalls, c.statistics.branchingNodes⟩

omit [Scalar K] in
/-- Without variables nothing is told and asked. -/
theorem Conforms.of_silent {r q : Rules K} {fault : Fault} :
    Conforms r q (.error (.fault fault)) [] :=
  ⟨fun _ hd => absurd hd List.not_mem_nil, fun _ hbest => absurd hbest List.not_mem_nil,
    iff_of_false nofun nofun, nofun, nofun⟩

omit [Scalar K] in
theorem Conforms.of_cut {r q : Rules K} {cut : Cut} {record : List (Exchange K)}
    (htold : ∀ d, .told d ∈ record → r.told d ∨ q.told d)
    (hsolved : ∀ best, .solved (.optimal best) ∈ record → r.found best ∨ q.found best)
    (hcut : (.error cut : Except Cut Status) = .error .overflow ↔
      ({} : Work).tally? (answersOf record) = none) :
    Conforms r q (.error cut.failure) record := by
  refine ⟨htold, hsolved, ?_, nofun, nofun⟩
  rw [← hcut, Except.error.injEq, Cut.failure_eq_addOverflow_iff, Except.error.injEq]

/-- A run conforms to rules that its phases abide by, if the second ones hold of the frontier
that the first phase hands on. -/
theorem session_conforms {cfg : Config K} {o : Oracle K σ} {T : σ → Prop} {r q : Rules K}
    (hv : o.Vouches T r.found) (hv' : o.Vouches T q.found) (hr : r.AllowsFirst cfg)
    (hsplit : q.AllowsSplitting cfg) (hrank : q.AllowsRanking cfg)
    (hmany : maxLength < o.dimension → q.cut .tooManyVariables) (clock : Clock) (fuel : ℕ)
    {s : σ} (hs : T s) (hempty : r.frontier (.empty cfg.tolerances.dominance))
    (hfirst : ∀ first p w, firstPhase cfg o clock s = ((.ok first, p), w) →
      q.frontier p.frontier) :
    Conforms r q ((session cfg o.dimension fuel).exec o clock (.start s)).1
      ((session cfg o.dimension fuel).exec o clock (.start s)).2.record.toList := by
  by_cases hdim : o.dimension = 0
  · rw [session, if_pos hdim]
    exact .of_silent
  · obtain ⟨hstate, -, -, tail, htail⟩ := Supported.abides_phase hv hr clock
      { frontier := .empty cfg.tolerances.dominance } (.start s) hs hempty
    change Conducted _ _ _ (firstPhase cfg o clock s) tail at htail
    change T (firstPhase cfg o clock s).2.oracle at hstate
    rw [exec_session cfg o hdim]
    generalize firstPhase cfg o clock s = e at *
    rcases e with ⟨⟨cut | first, p⟩, w⟩
    · have hrecord : w.record.toList = tail := htail.adds.record_eq
      change Conforms r q (.error cut.failure) w.record.toList
      rw [hrecord]
      exact .of_cut (fun d hd => Or.inl (htail.told d hd))
        (fun best hbest => Or.inl (htail.solved best hbest)) htail.overflow_iff
    · obtain ⟨-, -, -, tail', htail'⟩ := abides_secondPhase hv' hsplit hrank hmany fuel
        clock p (w.time clock).2 hstate (hfirst first p w rfl)
      rw [exec_rest]
      generalize hold o clock (secondPhase cfg o.dimension fuel) p (w.time clock).2 = e at htail'
      have htally : ({} : Work).tally? (answersOf (tail ++ tail')) =
          p.work.tally? (answersOf tail') := by
        rw [answersOf_append, Work.tally?_append, htail.work (by simp), Option.bind_some]
      have htold : ∀ d, .told d ∈ tail ++ tail' → r.told d ∨ q.told d :=
        fun d hd => (List.mem_append.1 hd).imp (htail.told d) (htail'.told d)
      have hsolved : ∀ best, .solved (.optimal best) ∈ tail ++ tail' → r.found best ∨ q.found best :=
        fun best hbest => (List.mem_append.1 hbest).imp (htail.solved best) (htail'.solved best)
      have hrecord : e.2.record.toList = tail ++ tail' := by
        rw [htail'.adds.record_eq, World.time_record, htail.adds.record_eq]
        rfl
      rcases e with ⟨⟨cut | second, p'⟩, w'⟩
      · change Conforms r q (.error cut.failure) w'.record.toList
        rw [hrecord]
        exact .of_cut htold hsolved (htally ▸ htail'.overflow_iff)
      · have hwork := htally.trans (htail'.work (by simp))
        change Conforms r q (.ok _) w'.record.toList
        rw [hrecord]
        refine ⟨htold, hsolved, ?_, fun c hc => ?_, fun c hc => ?_⟩
        · rw [hwork]
          exact iff_of_false (by simp) (by simp)
        · cases hc
          exact htail'.frontier
        · cases hc
          exact hwork

/-- The counters of a conclusion are those of its frontier and of the answers in the
record. -/
theorem session_counters {cfg : Config K} {o : Oracle K σ} {clock : Clock} {fuel : ℕ} {s : σ}
    {c : Conclusion K}
    (hok : ((session cfg o.dimension fuel).exec o clock (.start s)).1 = .ok c) :
    ∃ work : Work, ({} : Work).tally? (answersOf
        ((session cfg o.dimension fuel).exec o clock (.start s)).2.record.toList) = some work ∧
      c.statistics.counters =
        { dimension := o.dimension
          branchingNodes := work.nodes
          oracleCalls := work.calls
          phaseOneSolutions := c.frontier.supported.length
          phaseTwoSolutions := c.frontier.all.countP fun s => !s.supported
          totalSolutions := c.frontier.all.length } := by
  -- The second phase leaves the supported solutions as the first one has found them.
  let r : Rules K :=
    { frontier := fun f => f.supported = (firstPhase cfg o clock s).1.2.frontier.supported }
  have hr : r.AllowsSecond cfg :=
    { update := fun f _ s _ _ hf => (f.update_supported s).trans hf }
  have hfirst : ∀ first p w, firstPhase cfg o clock s = ((.ok first, p), w) →
      p.frontier.supported = (firstPhase cfg o clock s).1.2.frontier.supported := by
    intro first p w hfirst
    rw [hfirst]
  have hconforms := session_conforms (q := r) o.vouches_trivial o.vouches_trivial
    (Rules.allowsFirst_trivial cfg) { hr with } { hr with } (fun _ => trivial) clock fuel (s := s)
    trivial trivial hfirst
  refine ⟨_, hconforms.work c hok, ?_⟩
  have hsupported := hconforms.frontier c hok
  obtain ⟨first, p, w, second, p', w', hfirst, -, rfl, -⟩ := of_session_ok hok
  rw [hsupported, hfirst, ← all_of_firstPhase hfirst]
  rfl

end Run

end Biobjective
