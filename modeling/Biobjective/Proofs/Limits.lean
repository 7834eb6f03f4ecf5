import Biobjective.Command
import Mathlib.Algebra.Order.BigOperators.Group.List
import Mathlib.Algebra.Order.Field.Power
import Mathlib.Data.Rat.Defs
import Mathlib.Tactic.Linarith
import Mathlib.Tactic.NormNum

/-!
# Numbers that cannot be held

The places at which a number of the input can be too large to be held, each with the exact
condition: the sum of weights that are not negative, the numbers of a random knapsack, the
columns of a knapsack without a capacity, and the seconds of a time limit.
-/

namespace Biobjective

namespace Knapsack

theorem foldlM_sum64 {total : ℤ} (h0 : 0 ≤ total) (h1 : total < 2 ^ 63) {xs : List ℤ}
    (hxs : ∀ x ∈ xs, 0 ≤ x) :
    xs.foldlM (fun total x =>
        let next := total + x
        if -(Int.pow 2 63) ≤ next ∧ next < Int.pow 2 63 then Except.ok next
        else .error Crash.addOverflow) total =
      if total + xs.sum < 2 ^ 63 then .ok (total + xs.sum) else .error .addOverflow := by
  induction xs generalizing total with
  | nil =>
      rw [List.sum_nil, add_zero, if_pos h1]
      rfl
  | cons x xs ih =>
      obtain ⟨hx, hxs⟩ := List.forall_mem_cons.1 hxs
      have hsum : 0 ≤ xs.sum := List.sum_nonneg hxs
      have hpow : Int.pow 2 63 = 2 ^ 63 := rfl
      rw [List.foldlM_cons, List.sum_cons, ← add_assoc]
      by_cases hlt : total + x < 2 ^ 63
      · have hnext : -(Int.pow 2 63) ≤ total + x ∧ total + x < Int.pow 2 63 := by
          rw [hpow]
          omega
        dsimp only
        rw [if_pos hnext]
        exact ih (by omega) hlt hxs
      · have hnext : ¬(-(Int.pow 2 63) ≤ total + x ∧ total + x < Int.pow 2 63) := by
          rw [hpow]
          omega
        have hsum' : ¬total + x + xs.sum < 2 ^ 63 := by omega
        rw [if_neg hsum']
        dsimp only
        rw [if_neg hnext]
        rfl

theorem halfWeight_eq_error_iff {weights : List ℤ} (h : ∀ x ∈ weights, 0 ≤ x) {cause : Crash} :
    halfWeight weights = .error cause ↔ cause = .addOverflow ∧ 2 ^ 63 ≤ weights.sum := by
  have hsum := foldlM_sum64 le_rfl (by norm_num) h
  rw [zero_add] at hsum
  rw [halfWeight, sum64, hsum]
  by_cases hlt : weights.sum < 2 ^ 63
  · rw [if_pos hlt]
    exact iff_of_false nofun fun h => absurd h.2 (not_le.2 hlt)
  · rw [if_neg hlt]
    exact ⟨fun h => ⟨(Except.error.inj h).symm, not_lt.1 hlt⟩, fun h => h.1 ▸ rfl⟩

theorem complete_map_some (column : String) (values : List ℤ) :
    complete column (values.map some) = .ok values := by
  have hfull : (values.map some).findIdx? (·.isNone) = none := by
    rw [List.findIdx?_eq_none_iff]
    simp
  rw [complete, hfull]
  simp [List.filterMap_map]

/-- A column is complete, or a cell is reported to be missing. -/
theorem complete_cases (column : String) (cells : List (Option ℤ)) :
    (∃ values : List ℤ, cells = values.map some) ∨
      ∃ row, complete column cells = .error (.missing column row) := by
  cases hmissing : cells.findIdx? (·.isNone) with
  | some row => exact Or.inr ⟨row, by rw [complete, hmissing]⟩
  | none =>
      have hfull := List.findIdx?_eq_none_iff.1 hmissing
      refine Or.inl ⟨cells.map (·.getD 0), ?_⟩
      rw [List.map_map, List.map_congr_left, List.map_id]
      intro cell hcell
      obtain ⟨value, rfl⟩ := Option.isSome_iff_exists.1 (Option.isNone_eq_false_iff.1 (hfull cell hcell))
      rfl

/-- The columns in which no cell is missing. -/
def columnsOf (weights profits1 profits2 : List ℤ) : ItemColumns :=
  ⟨weights.map some, profits1.map some, profits2.map some⟩

theorem ofColumns_columnsOf (weights profits1 profits2 : List ℤ) (capacity? : Option ℤ) :
    ofColumns (columnsOf weights profits1 profits2) capacity? =
      if weights.any (· < 0) then .error .negativeWeight
      else
        match capacityOf weights capacity? with
        | .error cause => .error (.crash cause)
        | .ok capacity => (build weights profits1 profits2 capacity).mapError .invalid := by
  simp only [ofColumns, columnsOf, complete_map_some, bind, Except.bind]
  by_cases hany : weights.any (fun x => decide (x < 0)) = true
  · rw [if_pos hany, if_pos hany]
    rfl
  · rw [if_neg hany, if_neg hany]
    cases capacityOf weights capacity? with
    | error cause => rfl
    | ok capacity => rfl

/-- Columns in which a cell is missing are refused. -/
theorem columnsOf_or_refused (columns : ItemColumns) (capacity? : Option ℤ) :
    (∃ weights profits1 profits2, columns = columnsOf weights profits1 profits2) ∨
      ∃ column row, ofColumns columns capacity? = .error (.missing column row) := by
  obtain ⟨weights, profits1, profits2⟩ := columns
  rw [ofColumns]
  rcases complete_cases "weight" weights with ⟨weights, rfl⟩ | ⟨row, hrow⟩
  · rcases complete_cases "profit1" profits1 with ⟨profits1, rfl⟩ | ⟨row, hrow⟩
    · rcases complete_cases "profit2" profits2 with ⟨profits2, rfl⟩ | ⟨row, hrow⟩
      · exact Or.inl ⟨weights, profits1, profits2, rfl⟩
      · simp only [complete_map_some, hrow]
        exact Or.inr ⟨_, row, rfl⟩
    · simp only [complete_map_some, hrow]
      exact Or.inr ⟨_, row, rfl⟩
  · simp only [hrow]
    exact Or.inr ⟨_, row, rfl⟩

/-- The columns have all the numbers of their items, and the weights together are too
heavy. -/
def HeavyColumns (columns : ItemColumns) : Prop :=
  ∃ weights profits1 profits2, columns = columnsOf weights profits1 profits2 ∧
    (∀ x ∈ weights, 0 ≤ x) ∧ 2 ^ 63 ≤ weights.sum

theorem capacityOf_eq_error_iff {weights : List ℤ} (h : ∀ x ∈ weights, 0 ≤ x)
    {capacity? : Option ℤ} {cause : Crash} :
    capacityOf weights capacity? = .error cause ↔
      capacity? = none ∧ cause = .addOverflow ∧ 2 ^ 63 ≤ weights.sum := by
  cases capacity? with
  | some capacity => simp [capacityOf]
  | none => simp [capacityOf, halfWeight_eq_error_iff h]

theorem ofColumns_crash_iff {columns : ItemColumns} {capacity? : Option ℤ} {cause : Crash} :
    ofColumns columns capacity? = .error (.crash cause) ↔
      capacity? = none ∧ cause = .addOverflow ∧ HeavyColumns columns := by
  constructor
  · intro h
    rcases columnsOf_or_refused columns capacity? with ⟨weights, profits1, profits2, rfl⟩ |
      ⟨column, row, hmissing⟩
    · rw [ofColumns_columnsOf] at h
      by_cases hany : weights.any (fun x => decide (x < 0)) = true
      · rw [if_pos hany] at h
        cases h
      · have hnonneg : ∀ x ∈ weights, 0 ≤ x := by simpa using hany
        rw [if_neg hany] at h
        cases hcapacity : capacityOf weights capacity? with
        | error cause' =>
            rw [hcapacity] at h
            cases h
            obtain ⟨hnone, hcause, hsum⟩ := (capacityOf_eq_error_iff hnonneg).1 hcapacity
            exact ⟨hnone, hcause, weights, profits1, profits2, rfl, hnonneg, hsum⟩
        | ok capacity =>
            -- A capacity that is there makes a knapsack or is refused.
            rw [hcapacity] at h
            cases hbuild : build weights profits1 profits2 capacity with
            | ok k => simp [hbuild, Except.mapError] at h
            | error cause' => simp [hbuild, Except.mapError] at h
    · rw [hmissing] at h
      cases h
  · rintro ⟨hnone, hcause, weights, profits1, profits2, rfl, hnonneg, hsum⟩
    have hany : ¬weights.any (fun x => decide (x < 0)) = true := by simpa using hnonneg
    rw [ofColumns_columnsOf, if_neg hany,
      (capacityOf_eq_error_iff hnonneg).2 ⟨hnone, hcause, hsum⟩]

end Knapsack

/-- The generator keeps to ranges of 64 bits. -/
def Generator.KeepsRange (g : Generator) : Prop :=
  ∀ lo hi s, -2 ^ 63 ≤ lo → lo ≤ hi → hi < 2 ^ 63 →
    lo ≤ (g.between lo hi s).1 ∧ (g.between lo hi s).1 ≤ hi

namespace RandomStream

theorem below_lt {candidates : ℕ} (h : 0 < candidates) (fuel : ℕ) (s : RandomStream) :
    (below candidates fuel s).1 < candidates := by
  have hword : ∀ x : UInt64, x.toNat * candidates / wordCount < candidates := by
    intro x
    refine Nat.div_lt_of_lt_mul ?_
    exact Nat.mul_lt_mul_of_pos_right x.toNat_lt h
  induction fuel generalizing s with
  | zero => exact hword _
  | succ fuel ih =>
      rw [below]
      split
      simp only
      split
      · exact hword _
      · exact ih _

/-- A signed word has 64 bits. -/
theorem signedWord_bounds (x : UInt64) : -2 ^ 63 ≤ signedWord x ∧ signedWord x < 2 ^ 63 := by
  have hlo := Int.le_bmod (x := x.toNat) (m := wordCount) (by decide)
  have hhi := Int.bmod_lt (x := x.toNat) (m := wordCount) (by decide)
  have hwords : (wordCount : ℤ) = 2 ^ 64 := rfl
  rw [hwords] at hlo hhi
  rw [signedWord]
  constructor
  · omega
  · omega

theorem between_bounds {lo hi : ℤ} (hlo : -2 ^ 63 ≤ lo) (h : lo ≤ hi) (hhi : hi < 2 ^ 63)
    (s : RandomStream) : lo ≤ (s.between lo hi).1 ∧ (s.between lo hi).1 ≤ hi := by
  have hwords : (wordCount : ℤ) = 2 ^ 64 := rfl
  rw [between]
  dsimp only
  split
  next hall =>
    -- Only the whole range of 64 bits has as many candidates as there are words.
    obtain ⟨hle, hlt⟩ := signedWord_bounds s.next.1
    constructor
    · omega
    · omega
  next =>
    have hlt := below_lt (by omega : 0 < (hi - lo + 1).toNat) drawLimit s
    constructor
    · omega
    · omega

end RandomStream

theorem Generator.keepsRange_standard : standard.KeepsRange :=
  fun _ _ s hlo h hhi => RandomStream.between_bounds hlo h hhi s

namespace KnapsackPlan

variable {g : Generator} {plan : KnapsackPlan}

/-- The ranges of a plan have numbers of 64 bits in them, and no weight is negative. -/
structure Ranged (plan : KnapsackPlan) : Prop where
  weight_nonneg : 0 ≤ plan.weight.1
  weight_le : plan.weight.1 ≤ plan.weight.2
  weight_lt : plan.weight.2 < 2 ^ 63
  profit_ge : -2 ^ 63 ≤ plan.profit.1
  profit_le : plan.profit.1 ≤ plan.profit.2

theorem ranged_standard (items : ℕ) : Ranged { items } := by
  constructor
  all_goals norm_num

theorem item_eq_ok (h : plan.Ranged) (hg : g.KeepsRange) (s : g.State) :
    ∃ item s', plan.item g s = .ok (item, s') ∧ 0 ≤ item.weight := by
  have hnonneg : 0 ≤ (g.between plan.weight.1 plan.weight.2 s).1 :=
    h.weight_nonneg.trans
      (hg _ _ s (h.weight_nonneg.trans' (by decide)) h.weight_le h.weight_lt).1
  have hdraw : ∀ {lo hi : ℤ}, lo ≤ hi → ∀ s : g.State, g.draw lo hi s = .ok (g.between lo hi s) :=
    fun hle _ => if_neg (not_lt.2 hle)
  rw [item, hdraw h.weight_le]
  simp only [hdraw h.profit_le, bind, Except.bind]
  exact ⟨_, _, rfl, hnonneg⟩

theorem draw_eq_ok (h : plan.Ranged) (hg : g.KeepsRange) (items : ℕ) {drawn : List Item}
    (hdrawn : ∀ item ∈ drawn, 0 ≤ item.weight) (s : g.State) :
    ∃ all, plan.draw g items drawn s = .ok all ∧ ∀ item ∈ all, 0 ≤ item.weight := by
  induction items generalizing drawn s with
  | zero => exact ⟨drawn, rfl, hdrawn⟩
  | succ items ih =>
      obtain ⟨item, s', hitem, hnonneg⟩ := item_eq_ok h hg s
      obtain ⟨all, hall, hweights⟩ := ih (List.forall_mem_cons.2 ⟨hnonneg, hdrawn⟩) s'
      refine ⟨all, ?_, hweights⟩
      rw [draw, hitem]
      exact hall

/-- The items that are drawn for a seed are too heavy. -/
def HeavyDraw (g : Generator) (plan : KnapsackPlan) (seed : UInt64) : Prop :=
  ∃ drawn, plan.draw g plan.items [] (g.ofSeed seed) = .ok drawn ∧
    2 ^ 63 ≤ (drawn.map Item.weight).sum

/-- A random knapsack crashes only if it is too long or too heavy; the draws never do. -/
theorem randomBy_crash_iff (h : plan.Ranged) (hg : g.KeepsRange) {seed : UInt64} {cause : Crash} :
    plan.randomBy g seed = .error (.crash cause) ↔
      (cause = .capacityOverflow ∧ maxLength < plan.items) ∨
        (cause = .addOverflow ∧ plan.items ≤ maxLength ∧ plan.HeavyDraw g seed) := by
  rw [randomBy, HeavyDraw]
  by_cases hlong : maxLength < plan.items
  · rw [if_pos hlong]
    simp [hlong, eq_comm]
  · obtain ⟨drawn, hdrawn, hweights⟩ :=
      draw_eq_ok h hg plan.items (List.forall_mem_nil _) (g.ofSeed seed)
    have hnonneg : ∀ x ∈ drawn.reverse.map Item.weight, 0 ≤ x := by simpa using hweights
    have hsum : (drawn.reverse.map Item.weight).sum = (drawn.map Item.weight).sum := by
      rw [List.map_reverse, List.sum_reverse]
    rw [if_neg hlong, hdrawn]
    simp only [hlong, not_lt.1 hlong, Except.ok.injEq, exists_eq_left', and_false, false_or,
      true_and]
    rw [← hsum, ← Knapsack.halfWeight_eq_error_iff hnonneg]
    cases Knapsack.halfWeight (drawn.reverse.map Item.weight) with
    | error crash => simp
    | ok capacity =>
        simp only [reduceCtorEq, iff_false]
        split <;> nofun

theorem randomBy_ne_outOfFuel (g : Generator) (plan : KnapsackPlan) (seed : UInt64) :
    plan.randomBy g seed ≠ .error .outOfFuel := by
  rw [randomBy]
  split
  · nofun
  · split
    · nofun
    · dsimp only
      split
      · nofun
      · split <;> nofun

end KnapsackPlan

theorem Binary64.significand_lt {x : Float} {negative : Bool} {m : ℕ} {q : ℤ}
    (h : ofFloat x = .finite negative m q) : m < 2 ^ 53 := by
  have hfraction : x.toBits.toNat % Nat.pow 2 fractionBits < 2 ^ 52 :=
    Nat.mod_lt _ (by decide)
  have hpow : Nat.pow 2 fractionBits = 2 ^ 52 := rfl
  simp only [ofFloat] at h
  split_ifs at h
  · cases h
    omega
  · cases h
    omega

theorem roundDiv_one (num : ℕ) : roundDiv num 1 = num := by
  simp [roundDiv, Nat.mod_one]

theorem roundDiv_le (num den : ℕ) : roundDiv num den ≤ num / den + 1 := by
  simp only [roundDiv]
  split_ifs
  · exact Nat.le_refl _
  · exact Nat.le_succ _

/-- A double rounds to at least `2^64` seconds of nanoseconds exactly if it is at least
`2^64`. -/
theorem le_roundDiv_scaled_iff {m : ℕ} (hm : m < 2 ^ 53) (q : ℤ) :
    UInt64.size * Duration.nanosPerSecond ≤
        roundDiv (Binary64.scaled m q Duration.nanosPerSecond).1
          (Binary64.scaled m q Duration.nanosPerSecond).2 ↔
      (2 ^ 64 : ℚ) ≤ m * 2 ^ q := by
  have hsize : UInt64.size = 2 ^ 64 := rfl
  rcases le_total 0 q with hq | hq
  · -- The number is whole, and nothing is rounded.
    obtain ⟨n, rfl⟩ := Int.eq_ofNat_of_zero_le hq
    have hden : Nat.pow 2 (-(n : ℤ)).toNat = 1 := by
      rw [Int.toNat_of_nonpos (by omega)]
    have hnum : Nat.pow 2 (n : ℤ).toNat = 2 ^ n := rfl
    simp only [Binary64.scaled, hden, hnum, roundDiv_one]
    rw [Nat.mul_le_mul_right_iff (by decide), hsize, zpow_natCast]
    exact_mod_cast Iff.rfl
  · -- The number is at most its significand, which is small.
    refine iff_of_false (not_le.2 ?_) (not_le.2 ?_)
    · have hnum : Nat.pow 2 q.toNat = 1 := by
        rw [Int.toNat_of_nonpos hq]
      simp only [Binary64.scaled, hnum, mul_one]
      calc _ ≤ m * Duration.nanosPerSecond / _ + 1 := roundDiv_le _ _
        _ ≤ m * Duration.nanosPerSecond + 1 := Nat.succ_le_succ (Nat.div_le_self _ _)
        _ < UInt64.size * Duration.nanosPerSecond := by
          rw [hsize, Duration.nanosPerSecond]
          omega
    · have hle : (2 : ℚ) ^ q ≤ 1 := zpow_le_one_of_nonpos₀ (by norm_num) hq
      have hm' : (m : ℚ) < 2 ^ 53 := by exact_mod_cast hm
      calc (m : ℚ) * 2 ^ q ≤ m * 1 := by gcongr
        _ < 2 ^ 64 := by
          rw [mul_one]
          exact hm'.trans (by norm_num)

namespace Command

/-- The seconds are a number from `2^64` on. -/
def TooLong (seconds : Float) : Prop :=
  ∃ m q, Binary64.ofFloat seconds = .finite false m q ∧ (2 ^ 64 : ℚ) ≤ m * 2 ^ q

theorem timeLimit_crashed_iff {seconds : Float} {cause : Crash} :
    timeLimit seconds = .error (.crashed cause) ↔
      cause = .durationOverflow ∧ TooLong seconds := by
  rw [timeLimit, TooLong]
  cases hread : Binary64.ofFloat seconds with
  | nan => simp
  | infinite negative => simp
  | finite negative m q =>
      have hiff := le_roundDiv_scaled_iff (Binary64.significand_lt hread) q
      simp only [Binary64.finite.injEq]
      cases negative with
      | true =>
          -- Zero may have a sign, and it is short enough.
          refine iff_of_false ?_ (by simp)
          by_cases hm : m = 0
          · subst hm
            have hshort : ¬(2 ^ 64 : ℚ) ≤ (0 : ℕ) * 2 ^ q := by norm_num
            simp [mt hiff.1 hshort]
          · simp [hm]
      | false =>
          by_cases hlong : (2 ^ 64 : ℚ) ≤ m * 2 ^ q
          · simp [hiff.2 hlong, hlong, eq_comm]
          · simp [mt hiff.1 hlong, hlong]

end Command

end Biobjective
