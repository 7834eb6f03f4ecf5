import Biobjective.Proofs.Completeness
import Biobjective.Proofs.Deadline

/-!
# Running out of time while ranking

Ranking checks the time only after it has recorded a point, and a time limit ends
the current gap only. So once time is over after the `k`th solve, the gap of that
solve is left, and every gap that remains takes one more solve. A gap is left
incomplete by an answer that gave up, or by a point recorded when time was over. The
main result is `Method.run_ranking_timeout`.

That a point was recorded is read off the exclusion that was told. An update gets the
point just there: `Ranking.Updates.mem_recordings_iff`, with `Run.session_updates`.
-/

namespace Biobjective

theorem Status.and_eq_partly_iff {s t : Status} : s.and t = partly ↔ s = partly ∨ t = partly := by
  cases s <;> cases t <;> simp [and]

/-- The numbers of the solves after which an exclusion was told, in a record before
which there were `n` solves. -/
def recordings {K : Type} : ℕ → List (Exchange K) → List ℕ
  | _, [] => []
  | n, .solved _ :: record => recordings (n + 1) record
  | n, .told (.exclude _) :: record => n :: recordings n record
  | n, .told _ :: record => recordings n record

/-- An answer gave up, or an exclusion was told after the `k`th or a later solve. -/
def Marked {K : Type} (k n : ℕ) (record : List (Exchange K)) : Prop :=
  (∃ nodes, Exchange.solved (.timedOut nodes) ∈ record) ∨ ∃ m ∈ recordings n record, k ≤ m

namespace Marked

variable {K : Type} {k n : ℕ} {record : List (Exchange K)}

@[simp] theorem nil_iff : Marked k n ([] : List (Exchange K)) ↔ False := by
  simp [Marked, recordings]

@[simp] theorem weights_iff (w : Weights K) :
    Marked k n (.told (.weights w) :: record) ↔ Marked k n record := by
  simp [Marked, recordings]

@[simp] theorem bound_iff (objective : Objective) (range : Interval K) :
    Marked k n (.told (.bound objective range) :: record) ↔ Marked k n record := by
  simp [Marked, recordings]

@[simp] theorem clear_iff (objective : Objective) :
    Marked k n (.told (.clear objective) :: record) ↔ Marked k n record := by
  simp [Marked, recordings]

@[simp] theorem exclude_iff (literals : List (Literal K)) :
    Marked k n (.told (.exclude literals) :: record) ↔ k ≤ n ∨ Marked k n record := by
  simp [Marked, recordings, or_left_comm]

@[simp] theorem optimal_iff (best : Optimum K) :
    Marked k n (.solved (.optimal best) :: record) ↔ Marked k (n + 1) record := by
  simp [Marked, recordings]

@[simp] theorem infeasible_iff :
    Marked k n (.solved .infeasible :: record) ↔ Marked k (n + 1) record := by
  simp [Marked, recordings]

@[simp] theorem timedOut_iff (nodes : ℕ) :
    Marked k n (.solved (.timedOut nodes) :: record) ↔ True := by
  simp [Marked]

end Marked

theorem recordings_append {K : Type} (n : ℕ) (record record' : List (Exchange K)) :
    recordings n (record ++ record') =
      recordings n record ++ recordings (n + solveCount record) record' := by
  induction record generalizing n with
  | nil => rfl
  | cons x record ih =>
      cases x with
      | solved a =>
          rw [List.cons_append, recordings, recordings, ih, solveCount_solved, Nat.add_right_comm,
            Nat.add_assoc]
      | told d =>
          cases d with
          | exclude literals => rw [List.cons_append, recordings, recordings, ih]; rfl
          | weights w => exact ih n
          | bound objective range => exact ih n
          | clear objective => exact ih n

theorem Marked.append_iff {K : Type} {k n : ℕ} {record record' : List (Exchange K)} :
    Marked k n (record ++ record') ↔
      Marked k n record ∨ Marked k (n + solveCount record) record' := by
  simp only [Marked, recordings_append, List.mem_append]
  constructor
  · rintro (⟨nodes, h | h⟩ | ⟨m, h | h, hk⟩)
    · exact Or.inl (Or.inl ⟨nodes, h⟩)
    · exact Or.inr (Or.inl ⟨nodes, h⟩)
    · exact Or.inl (Or.inr ⟨m, h, hk⟩)
    · exact Or.inr (Or.inr ⟨m, h, hk⟩)
  · rintro ((⟨nodes, h⟩ | ⟨m, h, hk⟩) | (⟨nodes, h⟩ | ⟨m, h, hk⟩))
    · exact Or.inl ⟨nodes, Or.inl h⟩
    · exact Or.inr ⟨m, Or.inl h, hk⟩
    · exact Or.inl ⟨nodes, Or.inr h⟩
    · exact Or.inr ⟨m, Or.inr h, hk⟩

/-- What the record of a world has more than that of another. -/
structure World.Adds {K σ : Type} (w w' : World K σ) (tail : List (Exchange K)) : Prop where
  record_eq : w'.record.toList = w.record.toList ++ tail
  solves_eq : w'.moment.solves = w.moment.solves + solveCount tail

namespace World.Adds

variable {K σ : Type} {w w1 w2 : World K σ} {tail tail' : List (Exchange K)}

theorem refl (w : World K σ) : Adds w w [] := ⟨(List.append_nil _).symm, rfl⟩

theorem trans (h : Adds w w1 tail) (h' : Adds w1 w2 tail') : Adds w w2 (tail ++ tail') := by
  refine ⟨?_, ?_⟩
  · rw [h'.record_eq, h.record_eq, List.append_assoc]
  · rw [h'.solves_eq, h.solves_eq, solveCount_append, Nat.add_assoc]

theorem tell (w : World K σ) (o : Oracle K σ) (d : Directive K) :
    Adds w (w.tell o d) [.told d] := ⟨tell_record o d w, rfl⟩

theorem solve (w : World K σ) (o : Oracle K σ) :
    Adds w (w.solve o).2 [.solved (w.solve o).1] := ⟨solve_record o w, rfl⟩

theorem time (w : World K σ) (c : Clock) : Adds w (w.time c).2 [] :=
  ⟨(List.append_nil _).symm, rfl⟩

end World.Adds

namespace Ranking

variable {K σ : Type}

/-- The solves that one gap takes when time is over from the `k`th solve on. -/
structure Paced (k : ℕ) (w : World K σ) (e : Phase.Ending K σ Status) : Prop where
  within : w.moment.solves < k → e.2.moment.solves ≤ k
  once : k ≤ w.moment.solves → e.2.moment.solves ≤ w.moment.solves + 1
  solved : ∀ status, e.1.1 = .ok status → w.moment.solves < e.2.moment.solves

/-- What ranking a gap comes to when time is over from the `k`th solve on. -/
structure Ranked (k : ℕ) (w : World K σ) (e : Phase.Ending K σ Status) : Prop
    extends Paced k w e where
  marked : ∃ tail, World.Adds w e.2 tail ∧
    ∀ status, e.1.1 = .ok status → (status = .partly ↔ Marked k w.moment.solves tail)

namespace Ranked

variable {k : ℕ} {w w1 : World K σ} {e : Phase.Ending K σ Status} {tail : List (Exchange K)}

theorem of_single (hsolves : e.2.moment.solves = w.moment.solves + 1) (hadds : w.Adds e.2 tail)
    (hmarked : ∀ status, e.1.1 = .ok status → (status = .partly ↔ Marked k w.moment.solves tail)) :
    Ranked k w e := by
  refine ⟨⟨fun hlt => ?_, fun _ => Nat.le_of_eq hsolves, fun _ _ => ?_⟩, tail, hadds, hmarked⟩
  · rw [hsolves]
    exact hlt
  · rw [hsolves]
    exact Nat.lt_succ_self _

/-- A solve before time is over leaves it to what comes next. -/
theorem of_next (h : Ranked k w1 e) (hadds : w.Adds w1 tail)
    (hsolves : w1.moment.solves = w.moment.solves + 1) (hlt : w1.moment.solves < k)
    (hmarked : ¬Marked k w.moment.solves tail) : Ranked k w e := by
  refine ⟨⟨fun _ => h.within hlt, fun hle => by omega, fun status hok => ?_⟩, ?_⟩
  · have hsolved := h.solved status hok
    omega
  · obtain ⟨tail', hadds', hmarked'⟩ := h.marked
    refine ⟨tail ++ tail', hadds.trans hadds', fun status hok => ?_⟩
    rw [Marked.append_iff, or_iff_right hmarked, ← hadds.solves_eq]
    exact hmarked' status hok

end Ranked

section Updates

variable [Scalar K]

/-- What is recorded of an optimum. -/
def noted (cfg : Config K) (best : Optimum K) : Solution K where
  toPoint := best.toPoint
  supported := false
  decisions := if cfg.keepDecisions then best.decisions.map binary else []

/-- What a record of ranking makes of a frontier. An optimum that an update gets is excluded right
after its solve, and nothing else is excluded or changes the frontier. -/
inductive Updates (cfg : Config K) : Frontier K → List (Exchange K) → Frontier K → Prop
  | nil (f : Frontier K) : Updates cfg f [] f
  | told {f f' : Frontier K} {d : Directive K} {record : List (Exchange K)}
      (hd : ∀ literals, d ≠ .exclude literals) (h : Updates cfg f record f') :
      Updates cfg f (.told d :: record) f'
  | solved {f f' : Frontier K} {record : List (Exchange K)} (a : Answer K)
      (h : Updates cfg f record f') : Updates cfg f (.solved a :: record) f'
  | excluded {f f' : Frontier K} {record : List (Exchange K)} (best : Optimum K)
      (h : Updates cfg (f.update (noted cfg best)).2 record f') :
      Updates cfg f (.solved (.optimal best) ::
        .told (.exclude (noGood (best.decisions.map binary))) :: record) f'

namespace Updates

variable {cfg : Config K} {f f' f'' : Frontier K} {record record' : List (Exchange K)}

theorem append (h : Updates cfg f record f') (h' : Updates cfg f' record' f'') :
    Updates cfg f (record ++ record') f'' := by
  induction h with
  | nil f => exact h'
  | told hd _ ih => exact .told hd (ih h')
  | solved a _ ih => exact .solved a (ih h')
  | excluded best _ ih => exact .excluded best (ih h')

/-- A point is recorded by a solve exactly if an update gets it there. -/
theorem mem_recordings_iff (h : Updates cfg f record f') {n m : ℕ} :
    m ∈ recordings n record ↔ ∃ before best after mid, Updates cfg f before mid ∧
      Updates cfg (mid.update (noted cfg best)).2 after f' ∧ m = n + solveCount before + 1 ∧
      record = before ++ .solved (.optimal best) ::
        .told (.exclude (noGood (best.decisions.map binary))) :: after := by
  constructor
  · intro hm
    induction h generalizing n with
    | nil f => cases hm
    | @told f f' d record hd h ih =>
        have hsame : recordings n (.told d :: record) = recordings n record := by
          cases d with
          | exclude literals => exact absurd rfl (hd literals)
          | weights w => rfl
          | bound objective range => rfl
          | clear objective => rfl
        rw [hsame] at hm
        obtain ⟨before, best, after, mid, hbefore, hafter, rfl, rfl⟩ := ih hm
        exact ⟨.told d :: before, best, after, mid, .told hd hbefore, hafter, rfl, rfl⟩
    | solved a h ih =>
        obtain ⟨before, best, after, mid, hbefore, hafter, rfl, rfl⟩ := ih hm
        refine ⟨.solved a :: before, best, after, mid, .solved a hbefore, hafter, ?_, rfl⟩
        rw [solveCount_solved]
        omega
    | @excluded f f' record best h ih =>
        rcases List.mem_cons.1 hm with rfl | hm
        · exact ⟨[], best, record, f, .nil f, h, rfl, rfl⟩
        · obtain ⟨before, best', after, mid, hbefore, hafter, rfl, rfl⟩ := ih hm
          refine ⟨_ :: _ :: before, best', after, mid, .excluded best hbefore, hafter, ?_, rfl⟩
          rw [solveCount_solved, solveCount_told]
          omega
  · rintro ⟨before, best, after, mid, -, -, rfl, rfl⟩
    rw [recordings_append]
    exact List.mem_append_right _ List.mem_cons_self

end Updates

end Updates

/-- How the search of the second phase amounts to the phase. -/
def conclude (o : Oracle K σ) : Phase.Ending K σ Status → Phase.Ending K σ Status
  | ((.error cut, p), w) => ((.error cut, p), w)
  | ((.ok status, p), w) =>
    ((.ok status, p), (w.tell o (.clear .first)).tell o (.clear .second))

theorem conclude_solves (o : Oracle K σ) (e : Phase.Ending K σ Status) :
    (conclude o e).2.moment.solves = e.2.moment.solves := by
  rcases e with ⟨⟨cut | status, p⟩, w⟩
  · rfl
  · rfl

variable [Scalar K]

open Phase in
theorem drain_ranked {cfg : Config K} {clock : Clock} {k : ℕ}
    (hclock : ∀ t, cfg.timeLimit ≤ clock t ↔ k ≤ t.solves) (o : Oracle K σ) (weights : Weights K)
    (lo hi : K) (fuel : ℕ) (p : Progress K) (w : World K σ) :
    Ranked k w (hold o clock (drain cfg weights lo hi fuel) p w) := by
  induction fuel generalizing p w with
  | zero =>
      refine ⟨⟨Nat.le_of_lt, fun _ => Nat.le_succ _, fun _ hok => ?_⟩, [], .refl w,
        fun _ hok => ?_⟩
      · cases hok
      · cases hok
  | succ fuel ih =>
      have hadds := World.Adds.solve w o
      rw [drain, hold_solve_bind]
      cases p.work.record? (w.solve o).1.nodes with
      | none => exact .of_single rfl hadds fun _ hok => by cases hok
      | some work =>
          simp only
          cases hanswer : (w.solve o).1 with
          | infeasible =>
              rw [hanswer] at hadds
              refine .of_single rfl hadds fun status hok => ?_
              cases hok
              simp
          | timedOut nodes =>
              rw [hanswer] at hadds
              refine .of_single rfl hadds fun status hok => ?_
              cases hok
              simp
          | optimal best =>
              rw [hanswer] at hadds
              rw [hold_frontier_bind]
              dsimp only
              split
              · refine .of_single rfl hadds fun status hok => ?_
                cases hok
                simp
              · rw [hold_modifyFrontier_bind, hold_tell_bind, hold_isOver_bind]
                have hrecorded := (hadds.trans (.tell _ o
                  (.exclude (noGood (best.decisions.map binary))))).trans (.time _ clock)
                -- The time is checked only here, after the point was recorded.
                by_cases hover : k ≤ w.moment.solves + 1
                · rw [decide_eq_true ((hclock _).2 hover)]
                  refine .of_single rfl hrecorded fun status hok => ?_
                  cases hok
                  simp [hover]
                · rw [decide_eq_false (mt (hclock _).1 hover)]
                  refine (ih _ _).of_next hrecorded rfl (not_le.1 hover) ?_
                  simp [hover]

/-- What is told before a gap is ranked. -/
def prepare (o : Oracle K σ) (left right : Solution K) (w : World K σ) : World K σ :=
  ((w.tell o (.bound .first (.between left.z1 (right.z1 - 1)))).tell o
    (.bound .second (.between right.z2 (left.z2 - 1)))).tell o (.weights (left.chord right))

theorem exists_adds_prepare (o : Oracle K σ) (left right : Solution K) (w : World K σ) (k : ℕ) :
    ∃ tail, w.Adds (prepare o left right w) tail ∧ (∀ n, ¬Marked k n tail) ∧
      ∀ (cfg : Config K) (f : Frontier K), Updates cfg f tail f :=
  ⟨[.told (.bound .first (.between left.z1 (right.z1 - 1))),
      .told (.bound .second (.between right.z2 (left.z2 - 1))),
      .told (.weights (left.chord right))],
    ((World.Adds.tell w o _).trans (.tell _ o _)).trans (.tell _ o _), fun n => by simp,
    fun _ f => .told nofun (.told nofun (.told nofun (.nil f)))⟩

open Phase in
theorem hold_search_cons (o : Oracle K σ) (c : Clock) (cfg : Config K) (fuel : ℕ)
    (left right : Solution K) (pairs : List (Solution K × Solution K)) (status : Status)
    (p : Progress K) (w : World K σ) :
    hold o c (search cfg fuel ((left, right) :: pairs) status) p w =
      resume o c (fun here => search cfg fuel pairs (status.and here))
        (hold o c (drain cfg (left.chord right) left.z1 right.z1 fuel) p
          (prepare o left right w)) := by
  rw [search, hold_tell_bind, hold_tell_bind]
  dsimp only
  rw [hold_tell_bind, hold_bind]
  rfl

open Phase in
theorem hold_search_append (o : Oracle K σ) (c : Clock) (cfg : Config K) (fuel : ℕ)
    (pairs pairs' : List (Solution K × Solution K)) (status : Status) (p : Progress K)
    (w : World K σ) :
    hold o c (search cfg fuel (pairs ++ pairs') status) p w =
      resume o c (search cfg fuel pairs') (hold o c (search cfg fuel pairs status) p w) := by
  induction pairs generalizing status p w with
  | nil => rfl
  | cons pair pairs ih =>
      obtain ⟨left, right⟩ := pair
      rw [List.cons_append, hold_search_cons, hold_search_cons]
      rcases hold o c (drain cfg (left.chord right) left.z1 right.z1 fuel) p
        (prepare o left right w) with ⟨⟨cut | here, p1⟩, w1⟩
      · rfl
      · exact ih (status.and here) p1 w1

section Over

variable {cfg : Config K} {clock : Clock} {k : ℕ}
  (hclock : ∀ t, cfg.timeLimit ≤ clock t ↔ k ≤ t.solves)

include hclock

open Phase in
theorem search_singleton_paced (o : Oracle K σ) (fuel : ℕ) (pair : Solution K × Solution K)
    (status : Status) (p : Progress K) (w : World K σ) :
    Paced k w (hold o clock (search cfg fuel [pair] status) p w) := by
  obtain ⟨left, right⟩ := pair
  have hdrain := (drain_ranked hclock o (left.chord right) left.z1 right.z1 fuel p
    (prepare o left right w)).toPaced
  rw [hold_search_cons]
  generalize hold o clock (drain cfg (left.chord right) left.z1 right.z1 fuel) p
    (prepare o left right w) = e at hdrain
  rcases e with ⟨⟨cut | here, p1⟩, w1⟩
  · exact ⟨hdrain.within, hdrain.once, fun status hok => by cases hok⟩
  · exact ⟨hdrain.within, hdrain.once, fun _ _ => hdrain.solved here rfl⟩

open Phase in
/-- Ranking is incomplete just if it was before or one of its gaps is. -/
theorem search_marked (o : Oracle K σ) (fuel : ℕ) (pairs : List (Solution K × Solution K))
    (status : Status) (p : Progress K) (w : World K σ) :
    ∃ tail, w.Adds (hold o clock (search cfg fuel pairs status) p w).2 tail ∧
      ∀ final, (hold o clock (search cfg fuel pairs status) p w).1.1 = .ok final →
        (final = .partly ↔ status = .partly ∨ Marked k w.moment.solves tail) := by
  induction pairs generalizing status p w with
  | nil =>
      refine ⟨[], .refl w, fun final hok => ?_⟩
      cases hok
      simp
  | cons pair pairs ih =>
      obtain ⟨left, right⟩ := pair
      obtain ⟨told, htold, hunmarked, -⟩ := exists_adds_prepare o left right w k
      obtain ⟨tail, htail, hmarked⟩ := (drain_ranked hclock o (left.chord right) left.z1 right.z1
        fuel p (prepare o left right w)).marked
      rw [hold_search_cons]
      generalize hold o clock (drain cfg (left.chord right) left.z1 right.z1 fuel) p
        (prepare o left right w) = e at htail hmarked
      rcases e with ⟨⟨cut | here, p1⟩, w1⟩
      · exact ⟨told ++ tail, htold.trans htail, fun final hok => by cases hok⟩
      · obtain ⟨rest, hrest, hfinal⟩ := ih (status.and here) p1 w1
        refine ⟨told ++ tail ++ rest, (htold.trans htail).trans hrest, fun final hok => ?_⟩
        have hadded := (htold.trans htail).solves_eq
        rw [hfinal final hok, Status.and_eq_partly_iff, hmarked here rfl, Marked.append_iff, ← hadded,
          Marked.append_iff, ← htold.solves_eq, or_iff_right (hunmarked _), or_assoc]

end Over

open Phase in
/-- However the ranking of a gap ends, its record shows what became of the frontier. -/
theorem drain_updates (cfg : Config K) (o : Oracle K σ) (clock : Clock) (weights : Weights K)
    (lo hi : K) (fuel : ℕ) (p : Progress K) (w : World K σ) :
    let e := hold o clock (drain cfg weights lo hi fuel) p w
    ∃ tail, w.Adds e.2 tail ∧ Updates cfg p.frontier tail e.1.2.frontier := by
  induction fuel generalizing p w with
  | zero => exact ⟨[], .refl w, .nil _⟩
  | succ fuel ih =>
      have hadds := World.Adds.solve w o
      intro e
      simp only [e]
      rw [drain, hold_solve_bind]
      cases p.work.record? (w.solve o).1.nodes with
      | none => exact ⟨_, hadds, .solved _ (.nil _)⟩
      | some work =>
          simp only
          cases hanswer : (w.solve o).1 with
          | infeasible => exact ⟨_, hadds, .solved _ (.nil _)⟩
          | timedOut nodes => exact ⟨_, hadds, .solved _ (.nil _)⟩
          | optimal best =>
              rw [hanswer] at hadds
              rw [hold_frontier_bind]
              dsimp only
              split
              · exact ⟨_, hadds, .solved _ (.nil _)⟩
              · rw [hold_modifyFrontier_bind, hold_tell_bind, hold_isOver_bind]
                have hrecorded := (hadds.trans (.tell _ o
                  (.exclude (noGood (best.decisions.map binary))))).trans (.time _ clock)
                split
                · exact ⟨_, hrecorded, .excluded best (.nil _)⟩
                · obtain ⟨tail, htail, hupdates⟩ := ih _ _
                  exact ⟨_, hrecorded.trans htail, .excluded best hupdates⟩

open Phase in
theorem search_updates (cfg : Config K) (o : Oracle K σ) (clock : Clock) (fuel : ℕ)
    (pairs : List (Solution K × Solution K)) (status : Status) (p : Progress K) (w : World K σ) :
    let e := hold o clock (search cfg fuel pairs status) p w
    ∃ tail, w.Adds e.2 tail ∧ Updates cfg p.frontier tail e.1.2.frontier := by
  induction pairs generalizing status p w with
  | nil => exact ⟨[], .refl w, .nil _⟩
  | cons pair pairs ih =>
      obtain ⟨left, right⟩ := pair
      obtain ⟨told, htold, -, hsame⟩ := exists_adds_prepare o left right w 0
      obtain ⟨tail, htail, hupdates⟩ := drain_updates cfg o clock (left.chord right) left.z1
        right.z1 fuel p (prepare o left right w)
      have htail' := htold.trans htail
      have hupdates' := (hsame cfg p.frontier).append hupdates
      rw [hold_search_cons]
      generalize hold o clock (drain cfg (left.chord right) left.z1 right.z1 fuel) p
        (prepare o left right w) = e at htail' hupdates'
      rcases e with ⟨⟨cut | here, p1⟩, w1⟩
      · exact ⟨_, htail', hupdates'⟩
      · obtain ⟨rest, hrest, hupdates''⟩ := ih (status.and here) p1 w1
        exact ⟨_, htail'.trans hrest, hupdates'.append hupdates''⟩

/-- Two runs are the same, or the second one has made `k` solves. -/
def Abreast (k : ℕ) : Phase.Ending K σ Status → Phase.Ending K σ Status → Prop :=
  Phase.Lockstep (fun _ => True) fun _ l => k ≤ l.2.moment.solves

open Phase in
theorem drain_abreast {cfg : Config K} {free clock : Clock} {k : ℕ}
    (h : Expires cfg.timeLimit free clock k) (o : Oracle K σ) (weights : Weights K) (lo hi : K)
    (fuel : ℕ) (p : Progress K) (w : World K σ) :
    Abreast k (hold o free (drain cfg weights lo hi fuel) p w)
      (hold o clock (drain cfg weights lo hi fuel) p w) := by
  induction fuel generalizing p w with
  | zero => exact Or.inl ⟨rfl, trivial⟩
  | succ fuel ih =>
      rw [drain, hold_solve_bind, hold_solve_bind]
      split
      · split
        · exact Or.inl ⟨rfl, trivial⟩
        · exact Or.inl ⟨rfl, trivial⟩
        · rw [hold_frontier_bind, hold_frontier_bind]
          dsimp only
          split
          · exact Or.inl ⟨rfl, trivial⟩
          · rw [hold_modifyFrontier_bind, hold_modifyFrontier_bind, hold_tell_bind, hold_tell_bind,
              hold_isOver_bind, hold_isOver_bind, decide_eq_false (h.never _)]
            by_cases hover : k ≤ w.moment.solves + 1
            · rw [decide_eq_true ((h.over_iff _ (Nat.succ_pos _)).2 hover)]
              exact Or.inr hover
            · rw [decide_eq_false (mt (h.over_iff _ (Nat.succ_pos _)).1 hover)]
              exact ih _ _
      · exact Or.inl ⟨rfl, trivial⟩

open Phase in
theorem search_abreast {cfg : Config K} {free clock : Clock} {k : ℕ}
    (h : Expires cfg.timeLimit free clock k) (o : Oracle K σ) (fuel : ℕ)
    (pairs : List (Solution K × Solution K)) (status : Status) (p : Progress K) (w : World K σ) :
    Abreast k (hold o free (search cfg fuel pairs status) p w)
      (hold o clock (search cfg fuel pairs status) p w) := by
  induction pairs generalizing status p w with
  | nil => exact Or.inl ⟨rfl, trivial⟩
  | cons pair pairs ih =>
      obtain ⟨left, right⟩ := pair
      rw [hold_search_cons, hold_search_cons, ← hold_bind, ← hold_bind]
      refine (drain_abreast h o (left.chord right) left.z1 right.z1 fuel p
        (prepare o left right w)).bind (fun _ _ _ _ => trivial) ?_ ?_
      · intro here p1 w1 _ _
        exact ih (status.and here) p1 w1
      · intro u l hlate
        exact hlate.trans (solves_le_resume o clock _ l)

open Phase in
theorem hold_phase (o : Oracle K σ) (c : Clock) (cfg : Config K) (dimension fuel : ℕ)
    (p : Progress K) (w : World K σ) :
    hold o c (phase cfg dimension fuel) p w =
      if maxLength < dimension then ((.error .tooManyVariables, p), w)
      else conclude o
        (hold o c (search cfg fuel (neighbours p.frontier.supported) .completed) p w) := by
  rw [phase]
  split
  · rfl
  · rw [hold_frontier_bind]
    dsimp only
    rw [hold_bind]
    rcases hold o c (search cfg fuel (neighbours p.frontier.supported) .completed) p w with
      ⟨⟨cut | status, p'⟩, w'⟩
    · rfl
    · rfl

open Phase in
theorem phase_abreast {cfg : Config K} {free clock : Clock} {k : ℕ}
    (h : Expires cfg.timeLimit free clock k) (o : Oracle K σ) (dimension fuel : ℕ)
    (p : Progress K) (w : World K σ) :
    Abreast k (hold o free (phase cfg dimension fuel) p w)
      (hold o clock (phase cfg dimension fuel) p w) := by
  rw [hold_phase, hold_phase]
  split
  · exact Or.inl ⟨rfl, trivial⟩
  · rcases search_abreast h o fuel (neighbours p.frontier.supported) .completed p w with
      ⟨heq, -⟩ | hlate
    · rw [heq]
      exact Or.inl ⟨rfl, trivial⟩
    · exact Or.inr (hlate.trans_eq (conclude_solves o _).symm)

end Ranking

/-- Where a count goes up to `k` first and by one for each step from then on, the steps
after `k` make up the rest. -/
theorem eq_add_length_filter {a : ℕ → ℕ} {k n : ℕ} (hzero : a 0 ≤ k)
    (hwithin : ∀ i, a i < k → a (i + 1) ≤ k)
    (honce : ∀ i < n, k ≤ a i → a (i + 1) = a i + 1) (hn : k ≤ a n) :
    a n = k + ((List.range n).filter fun i => k ≤ a i).length := by
  -- Before `k` is reached no step counts, so the count of steps is still zero.
  suffices h : ∀ m ≤ n, a m = k + ((List.range m).filter fun i => k ≤ a i).length ∨
      (a m < k ∧ ((List.range m).filter fun i => k ≤ a i).length = 0) by
    exact (h n le_rfl).resolve_right fun hlt => absurd hlt.1 hn.not_gt
  intro m hm
  induction m with
  | zero =>
      rcases hzero.eq_or_lt with heq | hlt
      · exact Or.inl heq
      · exact Or.inr ⟨hlt, rfl⟩
  | succ m ih =>
      rw [List.range_succ, List.filter_append, List.length_append]
      rcases ih (Nat.le_of_succ_le hm) with heq | ⟨hlt, hnone⟩
      · have hle : k ≤ a m := heq ▸ Nat.le_add_right _ _
        have hstep := honce m hm hle
        simp [hle]
        omega
      · have hle := hwithin m hlt
        simp [hnone, hlt]
        omega

namespace Run

variable {K σ : Type} [Scalar K]

/-- The first phase of a run and the ranking of the first `i` gaps. -/
def afterGaps (cfg : Config K) (o : Oracle K σ) (c : Clock) (fuel : ℕ) (s : σ) (i : ℕ) :
    Phase.Ending K σ Status :=
  match firstPhase cfg o c s with
  | ((.error cut, p), w) => ((.error cut, p), w)
  | ((.ok _, p), w) =>
    Phase.hold o c
      (Ranking.search cfg fuel ((neighbours p.frontier.supported).take i) .completed) p
      (w.time c).2

theorem afterGaps_zero_solves (cfg : Config K) (o : Oracle K σ) (c : Clock) (fuel : ℕ) (s : σ) :
    (afterGaps cfg o c fuel s 0).2.moment.solves = (firstPhase cfg o c s).2.moment.solves := by
  rw [afterGaps]
  rcases firstPhase cfg o c s with ⟨⟨cut | first, p⟩, w⟩
  · rfl
  · rfl

theorem afterGaps_succ (cfg : Config K) (o : Oracle K σ) (c : Clock) (fuel : ℕ) (s : σ) (i : ℕ) :
    afterGaps cfg o c fuel s (i + 1) =
      Phase.resume o c (Ranking.search cfg fuel
        (neighbours (firstPhase cfg o c s).1.2.frontier.supported)[i]?.toList)
        (afterGaps cfg o c fuel s i) := by
  rw [afterGaps, afterGaps]
  rcases firstPhase cfg o c s with ⟨⟨cut | first, p⟩, w⟩
  · rfl
  · dsimp only
    rw [List.take_add_one, Ranking.hold_search_append]

/-- The next gap, unless the run has failed or there is none. -/
theorem afterGaps_cases {cfg : Config K} {clock : Clock} {k : ℕ}
    (hclock : ∀ t, cfg.timeLimit ≤ clock t ↔ k ≤ t.solves) (o : Oracle K σ) (fuel : ℕ) (s : σ)
    (i : ℕ) :
    Ranking.Paced k (afterGaps cfg o clock fuel s i).2 (afterGaps cfg o clock fuel s (i + 1)) ∨
      (afterGaps cfg o clock fuel s (i + 1) = afterGaps cfg o clock fuel s i ∧
        ((∃ cut, (afterGaps cfg o clock fuel s i).1.1 = .error cut) ∨
          (neighbours (firstPhase cfg o clock s).1.2.frontier.supported).length ≤ i)) := by
  rw [afterGaps_succ]
  rcases afterGaps cfg o clock fuel s i with ⟨⟨cut | status, p⟩, w⟩
  · exact Or.inr ⟨rfl, Or.inl ⟨cut, rfl⟩⟩
  · cases hpair : (neighbours (firstPhase cfg o clock s).1.2.frontier.supported)[i]? with
    | none => exact Or.inr ⟨rfl, Or.inr (List.getElem?_eq_none_iff.1 hpair)⟩
    | some pair => exact Or.inl (Ranking.search_singleton_paced hclock o fuel pair status p w)

/-- A run that has failed in a gap has failed. -/
theorem ok_of_afterGaps_ok {cfg : Config K} {o : Oracle K σ} {c : Clock} {fuel : ℕ} {s : σ}
    {i j : ℕ} (hij : i ≤ j) {status : Status}
    (h : (afterGaps cfg o c fuel s j).1.1 = .ok status) :
    ∃ before, (afterGaps cfg o c fuel s i).1.1 = .ok before := by
  induction j, hij using Nat.le_induction generalizing status with
  | base => exact ⟨status, h⟩
  | succ j hij ih =>
      rw [afterGaps_succ] at h
      rcases hj : afterGaps cfg o c fuel s j with ⟨⟨cut | before, p⟩, w⟩
      · rw [hj] at h
        cases h
      · exact ih (by rw [hj])

theorem secondPhase_ranking {cfg : Config K} (hstrategy : cfg.strategy = .ranking)
    (dimension fuel : ℕ) : secondPhase cfg dimension fuel = Ranking.phase cfg dimension fuel := by
  rw [secondPhase, hstrategy]

theorem rest_reaches {cfg : Config K} (hstrategy : cfg.strategy = .ranking) {free clock : Clock}
    {k : ℕ} (h : Expires cfg.timeLimit free clock k) (o : Oracle K σ) (dimension fuel : ℕ)
    (e : Except Cut Status × Progress K) (w : World K σ)
    (hk : k ≤ ((rest cfg dimension fuel e).exec o free w).2.moment.solves) :
    k ≤ ((rest cfg dimension fuel e).exec o clock w).2.moment.solves := by
  rcases e with ⟨cut | first, p⟩
  · exact hk
  · have hphase := Ranking.phase_abreast h o dimension fuel p (w.time free).2
    have htime : (w.time clock).2 = (w.time free).2 := rfl
    simp only [exec_rest, secondPhase_ranking hstrategy, htime] at hk ⊢
    generalize Phase.hold o free (Ranking.phase cfg dimension fuel) p (w.time free).2 = u at *
    generalize Phase.hold o clock (Ranking.phase cfg dimension fuel) p (w.time free).2 = l at *
    rcases hphase with ⟨rfl, -⟩ | hlate
    · rcases u with ⟨⟨cut | second, p'⟩, w'⟩
      · exact hk
      · exact hk
    · rcases l with ⟨⟨cut | second, p'⟩, w'⟩
      · exact hlate
      · exact hlate

/-- Time does not matter for the first `k` solves. -/
theorem session_reaches {cfg : Config K} (hstrategy : cfg.strategy = .ranking)
    {free clock : Clock} {k : ℕ} (hpos : 0 < k) (h : Expires cfg.timeLimit free clock k)
    (o : Oracle K σ) (fuel : ℕ) (s : σ)
    (hk : k ≤ ((session cfg o.dimension fuel).exec o free (.start s)).2.moment.solves) :
    k ≤ ((session cfg o.dimension fuel).exec o clock (.start s)).2.moment.solves := by
  by_cases hdim : o.dimension = 0
  · rw [session, if_pos hdim] at hk ⊢
    exact hk
  · rw [exec_session cfg o hdim] at hk ⊢
    have hfirst := Supported.phase_lockstep h o
      { frontier := .empty cfg.tolerances.dominance } (w := .start s) hpos
    rcases hfirst with ⟨heq, -⟩ | hfirst
    · have hfree : firstPhase cfg o free s = firstPhase cfg o clock s := heq
      rw [hfree] at hk
      exact rest_reaches hstrategy h o o.dimension fuel _ _ hk
    · exact hfirst.behind.solves_eq.ge.trans (Session.solves_le_exec o clock _ _)

/-- How a run by ranking that concludes has come to its end. -/
theorem session_ok {cfg : Config K} (hstrategy : cfg.strategy = .ranking) (o : Oracle K σ)
    (clock : Clock) (fuel : ℕ) (s : σ) {c : Conclusion K}
    (hok : ((session cfg o.dimension fuel).exec o clock (.start s)).1 = .ok c) :
    ∃ first p w second p' w', firstPhase cfg o clock s = ((.ok first, p), w) ∧
      Phase.hold o clock (Ranking.search cfg fuel (neighbours p.frontier.supported) .completed) p
        (w.time clock).2 = ((.ok second, p'), w') ∧
      c.status = first.and second ∧ c.frontier = p'.frontier ∧
      w'.Adds ((session cfg o.dimension fuel).exec o clock (.start s)).2
        [.told (.clear .first), .told (.clear .second)] := by
  by_cases hdim : o.dimension = 0
  · rw [session, if_pos hdim] at hok
    cases hok
  · rw [exec_session cfg o hdim] at hok ⊢
    generalize firstPhase cfg o clock s = e at hok
    rcases e with ⟨⟨cut | first, p⟩, w⟩
    · cases hok
    · rw [exec_rest, secondPhase_ranking hstrategy, Ranking.hold_phase] at hok ⊢
      by_cases hlong : maxLength < o.dimension
      · rw [if_pos hlong] at hok
        cases hok
      · rw [if_neg hlong] at hok ⊢
        rcases hsearch : Phase.hold o clock (Ranking.search cfg fuel
          (neighbours p.frontier.supported) .completed) p (w.time clock).2 with
          ⟨⟨cut | second, p'⟩, w'⟩
        · rw [hsearch] at hok
          cases hok
        · rw [hsearch] at hok
          cases hok
          exact ⟨first, p, w, second, p', w', rfl, hsearch, rfl, rfl,
            ((World.Adds.tell w' o _).trans (.tell _ o _)).trans (.time _ clock)⟩

/-- All gaps are ranked, if an assignment can be held. -/
theorem session_solves {cfg : Config K} (hstrategy : cfg.strategy = .ranking) (o : Oracle K σ)
    (hdim : o.dimension ≠ 0) (hlength : o.dimension ≤ maxLength) (clock : Clock) (fuel : ℕ) (s : σ) :
    ((session cfg o.dimension fuel).exec o clock (.start s)).2.moment.solves =
      (afterGaps cfg o clock fuel s
        (neighbours (firstPhase cfg o clock s).1.2.frontier.supported).length).2.moment.solves := by
  rw [exec_session cfg o hdim, afterGaps]
  rcases firstPhase cfg o clock s with ⟨⟨cut | first, p⟩, w⟩
  · rfl
  · dsimp only
    rw [List.take_length, exec_rest, secondPhase_ranking hstrategy, Ranking.hold_phase,
      if_neg (not_lt.2 hlength)]
    rcases Phase.hold o clock (Ranking.search cfg fuel (neighbours p.frontier.supported) .completed)
      p (w.time clock).2 with ⟨⟨cut | second, p'⟩, w'⟩
    · rfl
    · rfl

theorem afterGaps_of_session_ok {cfg : Config K} (hstrategy : cfg.strategy = .ranking)
    (o : Oracle K σ) (clock : Clock) (fuel : ℕ) (s : σ) {c : Conclusion K}
    (hok : ((session cfg o.dimension fuel).exec o clock (.start s)).1 = .ok c) :
    let gaps := (neighbours (firstPhase cfg o clock s).1.2.frontier.supported).length
    (∃ second, (afterGaps cfg o clock fuel s gaps).1.1 = .ok second) ∧
      ((session cfg o.dimension fuel).exec o clock (.start s)).2.moment.solves =
        (afterGaps cfg o clock fuel s gaps).2.moment.solves := by
  obtain ⟨first, p, w, second, p', w', hfirst, hsearch, -, -, hadds⟩ :=
    session_ok hstrategy o clock fuel s hok
  have hgaps : afterGaps cfg o clock fuel s (neighbours p.frontier.supported).length =
      ((.ok second, p'), w') := by
    rw [afterGaps, hfirst]
    dsimp only
    rw [List.take_length, hsearch]
  intro gaps
  have hcount : gaps = (neighbours p.frontier.supported).length := by
    simp only [gaps, hfirst]
  rw [hcount, hgaps]
  exact ⟨⟨second, rfl⟩, hadds.solves_eq⟩

/-- The conclusion is incomplete just if the first phase or the ranking was. -/
theorem session_partly_iff {cfg : Config K} (hstrategy : cfg.strategy = .ranking) {clock : Clock}
    {k : ℕ} (hclock : ∀ t, cfg.timeLimit ≤ clock t ↔ k ≤ t.solves) (o : Oracle K σ) (fuel : ℕ)
    (s : σ) {c : Conclusion K}
    (hok : ((session cfg o.dimension fuel).exec o clock (.start s)).1 = .ok c) :
    c.status = .partly ↔ (firstPhase cfg o clock s).1.1 = .ok .partly ∨
      Marked k (firstPhase cfg o clock s).2.moment.solves
        (((session cfg o.dimension fuel).exec o clock (.start s)).2.record.toList.drop
          (firstPhase cfg o clock s).2.record.size) := by
  obtain ⟨first, p, w, second, p', w', hfirst, hsearch, hstatus, -, hadds⟩ :=
    session_ok hstrategy o clock fuel s hok
  obtain ⟨tail, htail, hmarked⟩ := Ranking.search_marked hclock o fuel
    (neighbours p.frontier.supported) .completed p (w.time clock).2
  rw [hsearch] at htail hmarked
  have hrecord := ((World.Adds.time w clock).trans (htail.trans hadds)).record_eq
  have hsecond := hmarked second rfl
  rw [hfirst, hrecord, hstatus, Status.and_eq_partly_iff, hsecond, ← Array.length_toList,
    List.drop_left, List.nil_append, Marked.append_iff]
  simp

/-- The record of the second phase shows how the frontier of the first one came to be that of the
conclusion: a point is recorded just where an exclusion is told. -/
theorem session_updates {cfg : Config K} (hstrategy : cfg.strategy = .ranking) (o : Oracle K σ)
    (clock : Clock) (fuel : ℕ) (s : σ) {c : Conclusion K}
    (hok : ((session cfg o.dimension fuel).exec o clock (.start s)).1 = .ok c) :
    Ranking.Updates cfg (firstPhase cfg o clock s).1.2.frontier
      (((session cfg o.dimension fuel).exec o clock (.start s)).2.record.toList.drop
        (firstPhase cfg o clock s).2.record.size) c.frontier := by
  obtain ⟨first, p, w, second, p', w', hfirst, hsearch, -, hfrontier, hadds⟩ :=
    session_ok hstrategy o clock fuel s hok
  obtain ⟨tail, htail, hupdates⟩ := Ranking.search_updates cfg o clock fuel
    (neighbours p.frontier.supported) .completed p (w.time clock).2
  rw [hsearch] at htail hupdates
  have hrecord := ((World.Adds.time w clock).trans (htail.trans hadds)).record_eq
  rw [hfirst, hrecord, hfrontier, ← Array.length_toList, List.drop_left, List.nil_append]
  exact hupdates.append (.told nofun (.told nofun (.nil _)))

end Run

namespace Method

variable {K σ : Type} [Scalar K]

/-- Let the time of a run by ranking be over from its `k`th solve on. The first phase
makes no solve after the `k`th one, nor does the gap in which the `k`th solve is, and
each gap that comes later takes at most one. A run that concludes makes exactly one
solve for each of these. It is incomplete if and only if its first phase was, an answer
in the second phase gave up, or the second phase recorded a point by the `k`th or a
later solve. -/
theorem run_ranking_timeout (m : Method K) (hstrategy : m.config.strategy = .ranking)
    (fmt : ReportFormat K) (o : Oracle K σ) (fuel : ℕ) (s : σ) (files : Files)
    {free clock : Clock} {k : ℕ} (hk : 1 ≤ k) (hfree : ∀ t, ¬m.config.timeLimit ≤ free t)
    (hclock : ∀ t, m.config.timeLimit ≤ clock t ↔ k ≤ t.solves)
    (hlong : k ≤ (m.run fmt o free fuel s files).world.moment.solves) :
    let limited := m.run fmt o clock fuel s files
    let first := Run.firstPhase m.config o clock s
    let gaps := (neighbours first.1.2.frontier.supported).length
    let solves := fun i => (Run.afterGaps m.config o clock fuel s i).2.moment.solves
    let ranked := limited.world.record.toList.drop first.2.record.size
    first.2.moment.solves ≤ k ∧
    (∀ i, solves i < k → solves (i + 1) ≤ k) ∧
    (∀ i, k ≤ solves i → solves (i + 1) ≤ solves i + 1) ∧
    (o.dimension ≤ maxLength → limited.world.moment.solves = solves gaps) ∧
    ∀ c, limited.result = .ok c →
      (∀ i < gaps, k ≤ solves i → solves (i + 1) = solves i + 1) ∧
      limited.world.moment.solves =
        k + ((List.range gaps).filter fun i => k ≤ solves i).length ∧
      (c.status = .partly ↔ first.1.1 = .ok .partly ∨
        (∃ nodes, Exchange.solved (.timedOut nodes) ∈ ranked) ∨
        ∃ n ∈ recordings first.2.moment.solves ranked, k ≤ n) := by
  intro limited first gaps solves ranked
  have hexpires : Expires m.config.timeLimit free clock k := ⟨hfree, fun t _ => hclock t⟩
  rw [run_world] at hlong
  have hreaches := Run.session_reaches hstrategy hk hexpires o fuel s hlong
  have hdim : o.dimension ≠ 0 := by
    intro hdim
    rw [Run.session, if_pos hdim] at hlong
    exact absurd hlong (Nat.not_le.2 hk)
  have hcases := fun i => Run.afterGaps_cases hclock o fuel s i
  have hfirst : first.2.moment.solves ≤ k := by
    rcases Supported.phase_lockstep (w := .start s) hexpires o
      { frontier := .empty m.config.tolerances.dominance } hk with ⟨-, hin⟩ | houtrun
    · exact hin.2
    · exact houtrun.behind.solves_eq.le
  have hwithin : ∀ i, solves i < k → solves (i + 1) ≤ k := by
    intro i hlt
    rcases hcases i with hpaced | ⟨heq, -⟩
    · exact hpaced.within hlt
    · simp only [solves, heq]
      exact hlt.le
  refine ⟨hfirst, hwithin, fun i hle => ?_, fun hlength => ?_, fun c hok => ?_⟩
  · rcases hcases i with hpaced | ⟨heq, -⟩
    · exact hpaced.once hle
    · simp only [solves, heq]
      exact Nat.le_succ _
  · simp only [limited, run_world]
    exact Run.session_solves hstrategy o hdim hlength clock fuel s
  · simp only [limited, run_result] at hok
    obtain ⟨⟨second, hsecond⟩, hsolves⟩ :=
      Run.afterGaps_of_session_ok hstrategy o clock fuel s hok
    have honce : ∀ i < gaps, k ≤ solves i → solves (i + 1) = solves i + 1 := by
      intro i hi hle
      obtain ⟨before, hbefore⟩ := Run.ok_of_afterGaps_ok hi.le hsecond
      obtain ⟨after, hafter⟩ := Run.ok_of_afterGaps_ok hi hsecond
      rcases hcases i with hpaced | ⟨-, ⟨cut, hcut⟩ | hnone⟩
      · exact (hpaced.once hle).antisymm (hpaced.solved after hafter)
      · exact absurd (hbefore.symm.trans hcut) (by simp)
      · exact absurd hi hnone.not_gt
    refine ⟨honce, ?_, ?_⟩
    · have hzero : solves 0 ≤ k := (Run.afterGaps_zero_solves _ _ _ _ _).trans_le hfirst
      simp only [limited, run_world]
      rw [hsolves] at hreaches ⊢
      exact eq_add_length_filter hzero hwithin honce hreaches
    · simp only [ranked, limited, run_world]
      exact Run.session_partly_iff hstrategy hclock o fuel s hok

/-- Three items, with time for the two anchors and the one chord between them. The gap
takes one more solve, which records the third item. -/
theorem run_ranking_timeout_pickOne :
    let limited := ({ config := .plain .ranking } : Method ℚ).run .bare
      (Enumerator.oracle pickOne) (.jump (Config.plain .ranking).timeLimit 5) 9
      (.ofProgram pickOne none) .empty
    limited.world.moment.solves = 6 ∧ ∃ c, limited.result = .ok c ∧ c.status = .partly := by
  intro limited
  obtain ⟨-, -, -, -, hconcludes⟩ := run_ranking_timeout { config := .plain .ranking } rfl .bare
    (Enumerator.oracle pickOne) 9 (.ofProgram pickOne none) .empty (show 1 ≤ 5 by decide)
    (Config.neverOver_plain .ranking) (Clock.le_jump_iff (by decide) 5) (by decide +kernel)
  cases hresult : limited.result with
  | error failure =>
      have hok : limited.result.isOk = true := by decide +kernel
      rw [hresult] at hok
      cases hok
  | ok c =>
      obtain ⟨-, hsolves, hstatus⟩ := hconcludes c hresult
      refine ⟨hsolves.trans (by decide +kernel), c, rfl, hstatus.2 (Or.inl ?_)⟩
      decide +kernel

end Method

end Biobjective
