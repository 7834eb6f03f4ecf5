import Biobjective.Proofs.Conduct

/-!
# Ranges are released

Each phase tells ranges for its own solves. `Releases` says of a record that every range told
in it is released later on, and the records of all three phases that return have this
property: `Supported.releases_phase`, `Splitting.releases_phase`, `Ranking.releases_phase`.
`Supported.scheduled_phase` says which ranges of the first phase are in force at each of its
solves.
-/

namespace Biobjective

/-- The exchanges of a world that come after those of an earlier one. -/
def World.since {K σ : Type} (w' w : World K σ) : List (Exchange K) :=
  w'.record.toList.drop w.record.size

theorem World.Adds.since_eq {K σ : Type} {w w' : World K σ} {tail : List (Exchange K)}
    (h : w.Adds w' tail) : w'.since w = tail := by
  rw [World.since, h.record_eq, ← Array.length_toList, List.drop_left]

/-- Whatever the directive does, a later one can undo. -/
def Directive.Revocable {K : Type} (d : Directive K) : Prop := ∀ literals, d ≠ .exclude literals

/-- Every range that is told is released later on. -/
def Releases {K : Type} (record : List (Exchange K)) : Prop :=
  ∀ before i range after, record = before ++ .told (.bound i range) :: after →
    .told (.clear i) ∈ after

namespace Releases

variable {K : Type}

theorem of_unbound {record : List (Exchange K)}
    (h : ∀ i range, .told (.bound i range) ∉ record) : Releases record := by
  intro before i range after heq
  refine absurd ?_ (h i range)
  rw [heq]
  exact List.mem_append_right _ List.mem_cons_self

theorem nil : Releases ([] : List (Exchange K)) := of_unbound fun _ _ => List.not_mem_nil

theorem cons_iff {x : Exchange K} {record : List (Exchange K)} :
    Releases (x :: record) ↔
      (∀ i range, x = .told (.bound i range) → .told (.clear i) ∈ record) ∧ Releases record := by
  constructor
  · intro h
    refine ⟨fun i range hx => h [] i range record (by rw [hx]; rfl), ?_⟩
    intro before i range after heq
    exact h (x :: before) i range after (by rw [heq]; rfl)
  · rintro ⟨hx, h⟩ before i range after heq
    cases before with
    | nil =>
        cases heq
        exact hx i range rfl
    | cons y before =>
        cases heq
        exact h before i range after rfl

/-- What comes later may release the ranges told before. -/
theorem append_of_cleared {record record' : List (Exchange K)}
    (h : ∀ i range, .told (.bound i range) ∈ record → .told (.clear i) ∈ record')
    (h' : Releases record') : Releases (record ++ record') := by
  induction record with
  | nil => exact h'
  | cons x record ih =>
      refine cons_iff.2 ⟨fun i range hx => ?_, ih fun i range hmem => ?_⟩
      · exact List.mem_append_right _ (h i range (hx ▸ List.mem_cons_self))
      · exact h i range (List.mem_cons_of_mem x hmem)

theorem append {record record' : List (Exchange K)} (h : Releases record)
    (h' : Releases record') : Releases (record ++ record') := by
  induction record with
  | nil => exact h'
  | cons x record ih =>
      obtain ⟨hx, h⟩ := cons_iff.1 h
      exact cons_iff.2 ⟨fun i range heq => List.mem_append_left _ (hx i range heq), ih h⟩

/-- A record that ends with the release of both ranges. -/
theorem append_clear (record : List (Exchange K)) :
    Releases (record ++ [.told (.clear .first), .told (.clear .second)]) := by
  refine append_of_cleared (fun i range _ => ?_) (of_unbound ?_)
  · cases i with
    | first => simp
    | second => simp
  · simp

end Releases

namespace Terms

variable {K : Type}

def range (t : Terms K) : Objective → Interval K
  | .first => t.first
  | .second => t.second

@[simp] theorem range_follow_weights (t : Terms K) (w : Weights K) (i : Objective) :
    (t.follow (.weights w)).range i = t.range i := by
  cases i <;> rfl

@[simp] theorem range_follow_bound (t : Terms K) (j i : Objective) (r : Interval K) :
    (t.follow (.bound j r)).range i = if j = i then r else t.range i := by
  cases i <;> cases j <;> rfl

@[simp] theorem range_follow_clear (t : Terms K) (j i : Objective) :
    (t.follow (.clear j)).range i = if j = i then .unbounded else t.range i := by
  cases i <;> cases j <;> rfl

@[simp] theorem range_follow_exclude (t : Terms K) (literals : List (Literal K)) (i : Objective) :
    (t.follow (.exclude literals)).range i = t.range i := by
  cases i <;> rfl

/-- No objective is held in a range. -/
def Unranged (t : Terms K) : Prop := ∀ i, t.range i = .unbounded

/-- The one objective has a cap and the other is not held in a range. -/
def CapsOnly (i : Objective) (t : Terms K) : Prop :=
  (∃ cap, t.range i = ⟨none, some cap⟩) ∧ ∀ j ≠ i, t.range j = .unbounded

end Terms

/-- Where the ranges told in a record are released, none of them is left in force. -/
theorem Releases.range_after {K : Type} {record : List (Exchange K)} (h : Releases record)
    (t : Terms K) (i : Objective)
    (ht : t.range i = .unbounded ∨ .told (.clear i) ∈ record) :
    (t.after (record.map Exchange.call)).range i = .unbounded := by
  -- Either the objective is free now or its release is still to come, and telling a range
  -- leads to the second case.
  induction record generalizing t with
  | nil => exact ht.resolve_right List.not_mem_nil
  | cons x record ih =>
      obtain ⟨hx, hrecord⟩ := cons_iff.1 h
      cases x with
      | solved a => exact ih hrecord t (ht.imp_right fun hmem => by simpa using hmem)
      | told d =>
          apply ih hrecord (t.follow d)
          cases d with
          | weights w => simpa using ht
          | exclude literals => simpa using ht
          | bound j r =>
              by_cases hj : j = i
              · exact Or.inr (hx i r (by rw [hj]))
              · simpa [hj] using ht
          | clear j =>
              by_cases hj : j = i
              · exact Or.inl (by simp [hj])
              · have hne : ¬i = j := fun heq => hj heq.symm
                simpa [hj, hne] using ht

theorem Releases.unranged_after {K : Type} {record : List (Exchange K)} (h : Releases record)
    {t : Terms K} (ht : t.Unranged) : (t.after (record.map Exchange.call)).Unranged :=
  fun i => h.range_after t i (Or.inl (ht i))

namespace Supported

variable {K σ : Type} [Scalar K]

/-- The terms of the solves of the first phase, counted from zero. -/
def Scheduled : ℕ → Terms K → Prop
  | 0, t => t.weights = Anchor.upperLeft.levelWeights ∧ t.Unranged
  | 1, t => t.weights = Anchor.upperLeft.tieWeights ∧ t.CapsOnly .first
  | 2, t => t.weights = Anchor.lowerRight.levelWeights ∧ t.Unranged
  | 3, t => t.weights = Anchor.lowerRight.tieWeights ∧ t.CapsOnly .second
  | _ + 4, t => t.Unranged

/-- The solves are those of the first phase from the `n`th one on. -/
def Orderly (n : ℕ) (questions : List (Terms K × Answer K)) : Prop :=
  ∀ i q, questions[i]? = some q → Scheduled (n + i) q.1

theorem Orderly.nil (n : ℕ) : Orderly n ([] : List (Terms K × Answer K)) := nofun

theorem Orderly.cons {n : ℕ} {q : Terms K × Answer K} {questions : List (Terms K × Answer K)}
    (hq : Scheduled n q.1) (h : Orderly (n + 1) questions) : Orderly n (q :: questions) := by
  intro i r hr
  cases i with
  | zero =>
      cases hr
      exact hq
  | succ i =>
      rw [Nat.add_comm i 1, ← Nat.add_assoc]
      exact h i r hr

theorem Orderly.append {n : ℕ} {questions questions' : List (Terms K × Answer K)}
    (h : Orderly n questions) (h' : Orderly (n + questions.length) questions') :
    Orderly n (questions ++ questions') := by
  intro i q hq
  by_cases hi : i < questions.length
  · rw [List.getElem?_append_left hi] at hq
    exact h i q hq
  · rw [List.getElem?_append_right (Nat.not_lt.1 hi)] at hq
    have hscheduled := h' _ q hq
    rw [Nat.add_assoc, Nat.add_sub_cancel' (Nat.not_lt.1 hi)] at hscheduled
    exact hscheduled

/-- What a part of the first phase adds to the record if `n` solves come before it. -/
structure Part {α : Type} (n : ℕ) (result : Except Cut α) (tail : List (Exchange K)) : Prop where
  releases : result ≠ .error .overflow → Releases tail
  orderly : ∀ t : Terms K, t.Unranged → Orderly n (asked t tail)

namespace Part

variable {α β : Type} {n : ℕ} {tail tail' : List (Exchange K)}

theorem nil (result : Except Cut α) : Part n result ([] : List (Exchange K)) :=
  ⟨fun _ => .nil, fun _ _ => .nil n⟩

theorem recast {result : Except Cut α} {result' : Except Cut β} (h : Part n result tail)
    (hresult : result = .error .overflow → result' = .error .overflow) : Part n result' tail :=
  ⟨fun hne => h.releases (mt hresult hne), h.orderly⟩

theorem append {a : α} {result : Except Cut β} (h : Part n (.ok a) tail)
    (h' : Part (n + solveCount tail) result tail') : Part n result (tail ++ tail') := by
  have hreleases := h.releases nofun
  refine ⟨fun hne => hreleases.append (h'.releases hne), fun t ht => ?_⟩
  rw [asked_append]
  apply (h.orderly t ht).append
  rw [length_asked]
  exact h'.orderly _ (hreleases.unranged_after ht)

/-- After the anchors, weights are all that is told. -/
theorem of_weights {result : Except Cut α}
    (h : ∀ d, .told d ∈ tail → ∃ w, d = .weights w) : Part (n + 4) result tail := by
  refine ⟨fun _ => .of_unbound fun i range hmem => ?_, fun t ht => ?_⟩
  · obtain ⟨w, hw⟩ := h _ hmem
    cases hw
  · induction tail generalizing t n with
    | nil => exact .nil _
    | cons x tail ih =>
        have htail : ∀ d, .told d ∈ tail → ∃ w, d = .weights w :=
          fun d hd => h d (List.mem_cons_of_mem x hd)
        cases x with
        | solved a => exact .cons ht (ih htail t ht)
        | told d =>
            obtain ⟨w, rfl⟩ := h d List.mem_cons_self
            apply ih htail
            intro i
            rw [Terms.range_follow_weights]
            exact ht i

end Part

end Supported

/-- The number of solves that come before an anchor. -/
def Anchor.rank : Anchor → ℕ
  | .upperLeft => 0
  | .lowerRight => 2

namespace Anchor

variable {K σ : Type} [Scalar K]

theorem scheduled_level (a : Anchor) {t : Terms K} (ht : t.Unranged) :
    Supported.Scheduled a.rank (t.follow (.weights a.levelWeights)) := by
  have hfollow : (t.follow (.weights a.levelWeights)).Unranged := by
    intro i
    rw [Terms.range_follow_weights]
    exact ht i
  cases a with
  | upperLeft => exact ⟨rfl, hfollow⟩
  | lowerRight => exact ⟨rfl, hfollow⟩

theorem scheduled_tie (a : Anchor) {t : Terms K} (ht : t.Unranged) (cap : K) :
    Supported.Scheduled (a.rank + 1)
      (((t.follow (.weights a.levelWeights)).follow (.bound a.primary ⟨none, some cap⟩)).follow
        (.weights a.tieWeights)) := by
  have hfollow : (((t.follow (.weights a.levelWeights)).follow
      (.bound a.primary ⟨none, some cap⟩)).follow (.weights a.tieWeights)).CapsOnly a.primary := by
    refine ⟨⟨cap, by simp⟩, fun j hj => ?_⟩
    have hne : ¬a.primary = j := fun heq => hj heq.symm
    simp [hne, ht j]
  cases a with
  | upperLeft => exact ⟨rfl, hfollow⟩
  | lowerRight => exact ⟨rfl, hfollow⟩

theorem Dialogue.part {cfg : Config K} {a : Anchor} {tail : List (Exchange K)}
    {result : Except Cut (Solution K)} (h : Dialogue cfg a tail result) :
    Supported.Part a.rank result tail := by
  cases h with
  | level answer cut =>
      refine ⟨fun _ => .of_unbound (by simp), fun t ht => ?_⟩
      exact .cons (a.scheduled_level ht) (.nil _)
  | broken level answer =>
      refine ⟨fun hne => absurd rfl hne, fun t ht => ?_⟩
      exact .cons (a.scheduled_level ht) (.cons (a.scheduled_tie ht _) (.nil _))
  | whole level answer result =>
      refine ⟨fun _ => ?_, fun t ht => ?_⟩
      · simp [Releases.cons_iff, Releases.nil]
      · exact .cons (a.scheduled_level ht) (.cons (a.scheduled_tie ht _) (.nil _))

theorem Dialogue.solveCount_of_ok {cfg : Config K} {a : Anchor} {tail : List (Exchange K)}
    {s : Solution K} (h : Dialogue cfg a tail (.ok s)) : solveCount tail = 2 := by
  cases h with
  | whole level answer result => rfl

end Anchor

namespace Supported

open Phase

variable {K σ α : Type} [Scalar K]

/-- What an ending has added to the record is a part of the first phase. -/
def Plays (n : ℕ) (w : World K σ) (e : Ending K σ α) : Prop :=
  ∃ tail, w.Adds e.2 tail ∧ Part n e.1.1 tail

theorem plays_find_bind (o : Oracle K σ) (c : Clock) (cfg : Config K) (a : Anchor)
    (p : Progress K) (w : World K σ) {f : Solution K → Phase K α}
    (hf : ∀ s p1 w1, Plays (a.rank + 2) w1 (hold o c (f s) p1 w1)) :
    Plays a.rank w (hold o c (a.find cfg >>= f) p w) := by
  obtain ⟨tail, hadds, hdialogue⟩ := a.find_dialogue o c cfg p w
  rw [hold_bind]
  generalize hold o c (a.find cfg) p w = e at hadds hdialogue
  rcases e with ⟨⟨cut | s, p1⟩, w1⟩
  · exact ⟨tail, hadds, hdialogue.part.recast fun heq => congrArg _ (Except.error.inj heq)⟩
  · obtain ⟨tail', hadds', hpart'⟩ := hf s p1 w1
    rw [← hdialogue.solveCount_of_ok] at hpart'
    exact ⟨tail ++ tail', hadds.trans hadds', hdialogue.part.append hpart'⟩

theorem plays_checkTime_bind (o : Oracle K σ) (c : Clock) (limit : Duration) {n : ℕ}
    {f : Unit → Phase K α} {p : Progress K} {w : World K σ}
    (hf : ∀ w1, Plays n w1 (hold o c (f ()) p w1)) :
    Plays n w (hold o c (checkTime limit >>= f) p w) := by
  rw [hold_checkTime_bind]
  split
  · exact ⟨[], .time w c, .nil _⟩
  · obtain ⟨tail, hadds, hpart⟩ := hf (w.time c).2
    exact ⟨tail, (World.Adds.time w c).trans hadds, hpart⟩

theorem plays_refine (o : Oracle K σ) (c : Clock) (cfg : Config K) (chords left : ℕ)
    (p : Progress K) (w : World K σ) : Plays 4 w (hold o c (refine cfg chords left) p w) := by
  let r : Rules K := { told := fun d => ∃ w, d = .weights w }
  have hr : r.AllowsChords cfg := { weights := fun _ _ _ _ _ _ => ⟨_, rfl⟩ }
  obtain ⟨-, -, -, tail, htail⟩ :=
    abides_refine (r := r) o.vouches_trivial hr chords left c p w trivial trivial
  exact ⟨tail, htail.adds, .of_weights htail.told⟩

theorem plays_search (o : Oracle K σ) (c : Clock) (cfg : Config K) (p : Progress K)
    (w : World K σ) : Plays 0 w (hold o c (search cfg) p w) := by
  rw [search]
  apply plays_find_bind o c cfg .upperLeft
  intro upperLeft p1 w1
  rw [hold_modifyFrontier_bind]
  apply plays_checkTime_bind
  intro w2
  apply plays_find_bind o c cfg .lowerRight
  intro lowerRight p3 w3
  split
  · exact ⟨[], .refl w3, .nil _⟩
  · rw [hold_modifyFrontier_bind]
    apply plays_checkTime_bind
    intro w4
    exact plays_refine o c cfg _ _ _ w4

theorem plays_phase (o : Oracle K σ) (c : Clock) (cfg : Config K) (p : Progress K)
    (w : World K σ) : Plays 0 w (hold o c (phase cfg) p w) := by
  obtain ⟨tail, hadds, hpart⟩ := plays_search o c cfg p w
  rw [hold_phase]
  generalize hold o c (search cfg) p w = e at hadds hpart
  refine ⟨tail, by rw [conclude_world]; exact hadds, hpart.recast fun heq => ?_⟩
  rcases e with ⟨⟨cut | _, p1⟩, w1⟩
  · cases heq
    rfl
  · cases heq

theorem releases_phase (o : Oracle K σ) (c : Clock) (cfg : Config K) (p : Progress K)
    (w : World K σ) (hreturn : (hold o c (phase cfg) p w).1.1 ≠ .error .overflow) :
    Releases ((hold o c (phase cfg) p w).2.since w) := by
  obtain ⟨tail, hadds, hpart⟩ := plays_phase o c cfg p w
  rw [hadds.since_eq]
  exact hpart.releases hreturn

theorem scheduled_phase (o : Oracle K σ) (c : Clock) (cfg : Config K) (p : Progress K)
    (w : World K σ) {t : Terms K} (ht : t.Unranged) {n : ℕ} {q : Terms K × Answer K}
    (hq : (asked t ((hold o c (phase cfg) p w).2.since w))[n]? = some q) : Scheduled n q.1 := by
  obtain ⟨tail, hadds, hpart⟩ := plays_phase o c cfg p w
  rw [hadds.since_eq] at hq
  have hscheduled := hpart.orderly t ht n q hq
  rw [Nat.zero_add] at hscheduled
  exact hscheduled

end Supported

open Phase

theorem Phase.adds_since {K σ α : Type} (o : Oracle K σ) (c : Clock) (x : Phase K α)
    (p : Progress K) (w : World K σ) :
    w.Adds (hold o c x p w).2 ((hold o c x p w).2.since w) := by
  obtain ⟨tail, hrecord, hsolves, -⟩ := Session.exec_record o c (x p) w
  have hadds : w.Adds (hold o c x p w).2 tail := ⟨hrecord, hsolves⟩
  rw [hadds.since_eq]
  exact hadds

/-- A phase that ends with the release of both ranges releases all that it told. -/
theorem World.Adds.releases_clear {K σ : Type} {w w1 : World K σ} {tail : List (Exchange K)}
    (h : w.Adds w1 tail) (o : Oracle K σ) :
    Releases (((w1.tell o (.clear .first)).tell o (.clear .second)).since w) := by
  rw [((h.trans (.tell w1 o _)).trans (.tell _ o _)).since_eq, List.append_assoc]
  exact .append_clear tail

section SecondPhase

variable {K σ : Type} [Scalar K]

theorem Splitting.releases_phase (o : Oracle K σ) (c : Clock) (cfg : Config K) (fuel : ℕ)
    (p : Progress K) (w : World K σ) {status : Status}
    (hreturn : (hold o c (phase cfg fuel) p w).1.1 = .ok status) :
    Releases ((hold o c (phase cfg fuel) p w).2.since w) := by
  have hadds := adds_since o c (search cfg fuel (neighbours p.frontier.supported)) p w
  rw [hold_phase] at hreturn ⊢
  generalize hold o c (search cfg fuel (neighbours p.frontier.supported)) p w = e
    at hadds hreturn
  rcases e with ⟨⟨cut | _, p1⟩, w1⟩
  · cases cut with
    | overflow => cases hreturn
    | outOfFuel => cases hreturn
    | timeout => exact hadds.releases_clear o
    | infeasible stage => exact hadds.releases_clear o
    | tooManyVariables => exact hadds.releases_clear o
  · exact hadds.releases_clear o

theorem Ranking.releases_phase (o : Oracle K σ) (c : Clock) (cfg : Config K)
    (dimension fuel : ℕ) (p : Progress K) (w : World K σ) {status : Status}
    (hreturn : (hold o c (phase cfg dimension fuel) p w).1.1 = .ok status) :
    Releases ((hold o c (phase cfg dimension fuel) p w).2.since w) := by
  have hadds := adds_since o c (search cfg fuel (neighbours p.frontier.supported) .completed) p w
  rw [hold_phase] at hreturn ⊢
  split at hreturn
  · cases hreturn
  · rename_i hlong
    rw [if_neg hlong]
    generalize hold o c (search cfg fuel (neighbours p.frontier.supported) .completed) p w = e
      at hadds hreturn
    rcases e with ⟨⟨cut | status', p1⟩, w1⟩
    · cases hreturn
    · exact hadds.releases_clear o

end SecondPhase

section Revocable

variable {K σ : Type} [Scalar K]

/-- Nothing is told for good. -/
def revocableRules (K : Type) : Rules K where
  told := Directive.Revocable

theorem allowsFirst_revocableRules (cfg : Config K) : (revocableRules K).AllowsFirst cfg where
  weights := fun _ _ _ _ _ _ => nofun
  anchor := fun _ => nofun
  cap := fun _ _ _ => nofun
  clear := fun _ => nofun

theorem allowsSplitting_revocableRules (cfg : Config K) :
    (revocableRules K).AllowsSplitting cfg where
  weights := fun _ _ => nofun
  clear := fun _ => nofun
  range := fun _ _ _ => nofun

theorem Supported.revocable_phase (o : Oracle K σ) (c : Clock) (cfg : Config K) (p : Progress K)
    (w : World K σ) {d : Directive K}
    (hd : .told d ∈ (hold o c (phase cfg) p w).2.since w) : d.Revocable := by
  obtain ⟨-, -, -, tail, htail⟩ :=
    abides_phase o.vouches_trivial (allowsFirst_revocableRules cfg) c p w trivial trivial
  rw [htail.adds.since_eq] at hd
  exact htail.told d hd

theorem Splitting.revocable_phase (o : Oracle K σ) (c : Clock) (cfg : Config K) (fuel : ℕ)
    (p : Progress K) (w : World K σ) {d : Directive K}
    (hd : .told d ∈ (hold o c (phase cfg fuel) p w).2.since w) : d.Revocable := by
  obtain ⟨-, -, -, tail, htail⟩ :=
    abides_phase o.vouches_trivial (allowsSplitting_revocableRules cfg) fuel c p w trivial trivial
  rw [htail.adds.since_eq] at hd
  exact htail.told d hd

end Revocable

end Biobjective
