import Biobjective.Oracle.Enumeration
import Biobjective.Proofs.GrayWalk
import Mathlib.Data.List.MinMax

/-!
# What a solve answers

An enumerator keeps the least assignment that it has met and that obeys its
directives, the earlier one of two that are equally good. `surveyOf` says what
it should have gathered after a list of masks, and one step of the scan leads
from the survey of a list to the survey of the list with one more mask. Hence
`answers_answer`: an optimum is an admitted mask of least value, infeasible
means that no mask is admitted, and only an enumerator with a limit gives up.
-/

namespace Biobjective

namespace Enumerator

/-- The mask is feasible and obeys the ranges and the exclusions. -/
def Admits (e : Enumerator ℚ) (mask : ℕ) : Prop :=
  e.program.FeasibleMask mask ∧ e.obeys mask (e.program.maskOutcome mask) = true

def admitted (e : Enumerator ℚ) (masks : List ℕ) : List ℕ :=
  masks.filter fun m => e.program.rowsHold m && e.obeys m (e.program.maskOutcome m)

def valueAt (e : Enumerator ℚ) (mask : ℕ) : ℚ := e.weights.value (e.program.maskOutcome mask)

def incumbentAt (e : Enumerator ℚ) (mask : ℕ) : Incumbent ℚ :=
  ⟨e.valueAt mask, mask, e.program.maskOutcome mask⟩

def optimumAt (e : Enumerator ℚ) (mask : ℕ) : Optimum ℚ :=
  { toPoint := e.program.maskOutcome mask
    value := e.valueAt mask
    decisions := e.program.decisions mask
    nodes := 2 ^ e.program.dimension }

/-- What has been gathered after a list of masks, if no limit was passed. -/
def surveyOf (e : Enumerator ℚ) (masks : List ℕ) : Survey ℚ :=
  { examined := (masks.filter e.program.rowsHold).length
    overLimit := false
    best? := ((e.admitted masks).argmin e.valueAt).map e.incumbentAt }

theorem mem_admitted_iff (e : Enumerator ℚ) {mask : ℕ} :
    mask ∈ e.admitted (grayMasks e.program.dimension) ↔ e.Admits mask := by
  rw [admitted, List.mem_filter, Bool.and_eq_true, Admits, Program.feasibleMask_iff, and_assoc]

theorem surveyOf_append_of_not_rowsHold (e : Enumerator ℚ) (masks : List ℕ) {mask : ℕ}
    (h : e.program.rowsHold mask = false) :
    e.surveyOf (masks ++ [mask]) = e.surveyOf masks := by
  simp [surveyOf, admitted, List.filter_append, h]

/-- Examining one more feasible mask leads from survey to survey. -/
theorem examine_surveyOf (e : Enumerator ℚ) (masks : List ℕ) {mask : ℕ}
    (h : e.program.rowsHold mask = true)
    (hlimit : e.nodeLimit?.any (· < (e.surveyOf masks).examined + 1) = false) :
    e.examine (e.surveyOf masks) mask (e.program.position mask).point =
      .yield (e.surveyOf (masks ++ [mask])) := by
  have hsnap : Program.snapPoint (e.program.position mask).point = e.program.maskOutcome mask := rfl
  have hvalue : e.weights.value (e.program.maskOutcome mask) = e.valueAt mask := rfl
  have hexamined : (e.surveyOf (masks ++ [mask])).examined = (e.surveyOf masks).examined + 1 := by
    simp [surveyOf, List.filter_append, h]
  simp only [examine, hlimit, Bool.false_eq_true, if_false, hsnap, hvalue]
  by_cases hobeys : e.obeys mask (e.program.maskOutcome mask) = true
  · have hadmitted : e.admitted (masks ++ [mask]) = e.admitted masks ++ [mask] := by
      simp [admitted, List.filter_append, h, hobeys]
    have hbest : (e.surveyOf (masks ++ [mask])).best? =
        ((e.admitted masks ++ [mask]).argmin e.valueAt).map e.incumbentAt := by
      rw [surveyOf, hadmitted]
    rw [List.argmin_concat] at hbest
    rw [if_pos hobeys]
    cases hmin : (e.admitted masks).argmin e.valueAt with
    | none =>
        have hnone : (e.surveyOf masks).best? = none := by simp [surveyOf, hmin]
        rw [hmin] at hbest
        rw [hnone, Option.all_none, if_pos rfl, ← hexamined]
        exact congrArg ForInStep.yield (congrArg (Survey.mk _ _) hbest.symm)
    | some m =>
        have hsome : (e.surveyOf masks).best? = some (e.incumbentAt m) := by simp [surveyOf, hmin]
        have hm : (e.incumbentAt m).value = e.valueAt m := rfl
        rw [hmin] at hbest
        rw [hsome, Option.all_some, hm, ← hexamined]
        by_cases hlt : e.valueAt mask < e.valueAt m
        · simp only [hlt, if_true, Option.map_some] at hbest
          simp only [hlt, decide_true, if_true]
          exact congrArg ForInStep.yield (congrArg (Survey.mk _ _) hbest.symm)
        · simp only [hlt, if_false, Option.map_some] at hbest
          simp only [hlt, decide_false, Bool.false_eq_true, if_false]
          exact congrArg ForInStep.yield (congrArg (Survey.mk _ _) hbest.symm)
  · have hadmitted : e.admitted (masks ++ [mask]) = e.admitted masks := by
      simp [admitted, List.filter_append, hobeys]
    have hbest : (e.surveyOf (masks ++ [mask])).best? = (e.surveyOf masks).best? := by
      rw [surveyOf, surveyOf, hadmitted]
    rw [if_neg hobeys, ← hexamined]
    exact congrArg ForInStep.yield (congrArg (Survey.mk _ _) hbest.symm)

/-- A scan under way: either the limit was passed and the scan stopped, or it
holds the survey of all masks met so far. -/
theorem foldl_examine (e : Enumerator ℚ) (masks : List ℕ) (s : Scan ℚ (Survey ℚ))
    (hs : s = masks.foldl (Scan.meetAt e.program e.examine)
      ⟨e.program.origin, 0, ⟨0, false, none⟩, false⟩) :
    s.met ≤ masks.length ∧
      ((s.stopped = true ∧ s.gathered.overLimit = true ∧
          ∃ limit, e.nodeLimit? = some limit ∧ limit < (masks.filter e.program.rowsHold).length) ∨
        (s.stopped = false ∧ s.met = masks.length ∧ s.gathered = e.surveyOf masks ∧
          ∀ limit, e.nodeLimit? = some limit →
            (masks.filter e.program.rowsHold).length ≤ limit)) := by
  induction masks using List.reverseRecOn generalizing s with
  | nil =>
      subst hs
      refine ⟨le_rfl, Or.inr ⟨rfl, rfl, rfl, ?_⟩⟩
      intro limit _
      exact Nat.zero_le limit
  | append_singleton masks mask ih =>
      rw [List.foldl_append, List.foldl_cons, List.foldl_nil] at hs
      obtain ⟨hmet, hcases⟩ := ih _ rfl
      generalize masks.foldl (Scan.meetAt e.program e.examine)
        ⟨e.program.origin, 0, ⟨0, false, none⟩, false⟩ = t at hs hmet hcases
      have hlength : (masks ++ [mask]).length = masks.length + 1 := by simp
      rw [hlength]
      rcases hcases with ⟨hstop, hover, limit, hlimit, hlt⟩ | ⟨hgo, hall, hsurvey, hroom⟩
      · rw [Scan.meetAt_of_stopped _ _ hstop] at hs
        subst hs
        refine ⟨Nat.le_succ_of_le hmet, Or.inl ⟨hstop, hover, limit, hlimit, ?_⟩⟩
        rw [List.filter_append, List.length_append]
        exact Nat.lt_add_right _ hlt
      · by_cases hrows : e.program.rowsHold mask = true
        · have hcount : ((masks ++ [mask]).filter e.program.rowsHold).length =
              (masks.filter e.program.rowsHold).length + 1 := by
            simp [List.filter_append, hrows]
          rw [Scan.meetAt_of_rowsHold _ _ hgo hrows, hsurvey] at hs
          rw [hcount]
          by_cases hpass : e.nodeLimit?.any (· < (e.surveyOf masks).examined + 1) = true
          · obtain ⟨limit, hlimit, hlt⟩ : ∃ limit, e.nodeLimit? = some limit ∧
                limit < (e.surveyOf masks).examined + 1 := by
              simpa [Option.any_eq_true] using hpass
            simp only [examine, hpass, if_true] at hs
            subst hs
            exact ⟨Nat.succ_le_succ hmet, Or.inl ⟨rfl, rfl, limit, hlimit, hlt⟩⟩
          · rw [Bool.not_eq_true] at hpass
            rw [e.examine_surveyOf masks hrows hpass] at hs
            subst hs
            refine ⟨Nat.succ_le_succ hmet, Or.inr ⟨hgo, by rw [hall], rfl, ?_⟩⟩
            intro limit hlimit
            rw [hlimit, Option.any_some, decide_eq_false_iff_not, not_lt] at hpass
            exact hpass
        · rw [Bool.not_eq_true] at hrows
          have hcount : (masks ++ [mask]).filter e.program.rowsHold =
              masks.filter e.program.rowsHold := by
            simp [List.filter_append, hrows]
          rw [Scan.meetAt_of_not_rowsHold _ _ hgo hrows] at hs
          subst hs
          rw [hcount, e.surveyOf_append_of_not_rowsHold masks hrows]
          exact ⟨Nat.succ_le_succ hmet, Or.inr ⟨hgo, by rw [hall], hsurvey, hroom⟩⟩

/-- What an answer says about the masks that an enumerator admits. -/
inductive Answers (e : Enumerator ℚ) : Answer ℚ → Prop where
  | optimal (mask : ℕ) (admits : e.Admits mask)
      (least : ∀ m, e.Admits m → e.valueAt mask ≤ e.valueAt m) :
      Answers e (.optimal (e.optimumAt mask))
  | infeasible (none_admitted : ∀ m, ¬e.Admits m) : Answers e .infeasible
  | timedOut (nodes : ℕ) (nodes_le : nodes ≤ 2 ^ e.program.dimension)
      (limited : e.nodeLimit? ≠ none) : Answers e (.timedOut nodes)

/-- The answer where no limit was passed: the optimum of the first of the least
admitted masks. -/
def leastAnswer (e : Enumerator ℚ) : Answer ℚ :=
  match (e.admitted (grayMasks e.program.dimension)).argmin e.valueAt with
  | none => .infeasible
  | some mask => .optimal (e.optimumAt mask)

/-- An enumerator gives up only when there are more feasible masks than its limit. -/
theorem answer_cases_of_limit (e : Enumerator ℚ) :
    (∃ nodes ≤ 2 ^ e.program.dimension, e.answer = .timedOut nodes ∧
        ∃ limit, e.nodeLimit? = some limit ∧
          limit < ((grayMasks e.program.dimension).filter e.program.rowsHold).length) ∨
      e.answer = e.leastAnswer := by
  obtain ⟨hmet, hcases⟩ := e.foldl_examine (grayMasks e.program.dimension) _ rfl
  rw [length_grayMasks] at hmet hcases
  rw [answer, Program.scan_eq_foldl, leastAnswer]
  generalize (grayMasks e.program.dimension).foldl (Scan.meetAt e.program e.examine)
    ⟨e.program.origin, 0, ⟨0, false, none⟩, false⟩ = s at hmet hcases
  rcases hcases with ⟨-, hover, hlimit⟩ | ⟨-, hall, hsurvey, -⟩
  · simp only [hover, if_true]
    exact Or.inl ⟨_, hmet, rfl, hlimit⟩
  · have hover : s.gathered.overLimit = false := by rw [hsurvey]; rfl
    have hbest : s.gathered.best? = ((e.admitted (grayMasks e.program.dimension)).argmin
        e.valueAt).map e.incumbentAt := by rw [hsurvey]; rfl
    simp only [hover, hall, hbest, Bool.false_eq_true, if_false]
    cases (e.admitted (grayMasks e.program.dimension)).argmin e.valueAt with
    | none => exact Or.inr rfl
    | some mask => exact Or.inr rfl

theorem answer_cases (e : Enumerator ℚ) :
    (∃ nodes ≤ 2 ^ e.program.dimension, e.answer = .timedOut nodes ∧ e.nodeLimit? ≠ none) ∨
      e.answer = e.leastAnswer := by
  rcases e.answer_cases_of_limit with ⟨nodes, hnodes, heq, limit, hlimit, -⟩ | heq
  · exact Or.inl ⟨nodes, hnodes, heq, by simp [hlimit]⟩
  · exact Or.inr heq

theorem answer_of_unlimited {e : Enumerator ℚ} (h : e.nodeLimit? = none) :
    e.answer = e.leastAnswer :=
  e.answer_cases.resolve_left fun ⟨_, _, _, hlimit⟩ => hlimit h

theorem answers_answer (e : Enumerator ℚ) : e.Answers e.answer := by
  rcases e.answer_cases with ⟨nodes, hnodes, heq, hlimit⟩ | heq
  · rw [heq]
    exact .timedOut nodes hnodes hlimit
  · rw [heq, leastAnswer]
    cases hmin : (e.admitted (grayMasks e.program.dimension)).argmin e.valueAt with
    | none =>
        refine .infeasible fun m hm => ?_
        have hnil := List.argmin_eq_none.1 hmin
        have hmem := e.mem_admitted_iff.2 hm
        rw [hnil] at hmem
        cases hmem
    | some mask =>
        refine .optimal mask (e.mem_admitted_iff.1 (List.argmin_mem hmin)) fun m hm => ?_
        exact List.le_of_mem_argmin (e.mem_admitted_iff.2 hm) hmin

end Enumerator

end Biobjective
