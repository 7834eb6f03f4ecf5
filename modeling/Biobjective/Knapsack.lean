import Biobjective.Program

/-!
# Knapsacks

Items with a weight and two profits, and a capacity. Both profits are to be
made large. The binary program of a knapsack makes their negatives small, so
its points are negated profits, and its only row is the capacity.
-/

namespace Biobjective

structure Knapsack where
  weights : List Int
  profits1 : List Int
  profits2 : List Int
  capacity : Int
  weights_ne_nil : weights ≠ []
  profits1_length : profits1.length = weights.length
  profits2_length : profits2.length = weights.length
  capacity_nonneg : 0 ≤ capacity

namespace Knapsack

/-- The knapsack of some items and a capacity, if they fit together. -/
def build (weights profits1 profits2 : List Int) (capacity : Int) :
    Except InstanceFault Knapsack :=
  if h1 : weights = [] then .error .noItems
  else if h2 : profits1.length ≠ weights.length ∨ profits2.length ≠ weights.length then
    .error (.itemCounts weights.length profits1.length profits2.length)
  else if h3 : capacity < 0 then .error (.negativeCapacity capacity)
  else
    .ok
      { weights, profits1, profits2, capacity
        weights_ne_nil := h1
        profits1_length := by omega
        profits2_length := by omega
        capacity_nonneg := by omega }

def items (k : Knapsack) : Nat := k.weights.length

/-- The sum of integers of 64 bits from the left, each partial sum of 64
bits. -/
def sum64 (xs : List Int) : Except Crash Int :=
  xs.foldlM (fun total x =>
    let next := total + x
    if -(Int.pow 2 63) ≤ next ∧ next < Int.pow 2 63 then .ok next else .error .addOverflow) 0

/-- Half the total weight, the fraction being dropped. -/
def halfWeight (weights : List Int) : Except Crash Int :=
  match sum64 weights with
  | .ok total => .ok (total.tdiv 2)
  | .error crash => .error crash

def toProgram {K : Type} [Scalar K] (k : Knapsack) : Except InstanceFault (Program K) :=
  let negated (profits : List Int) : List K := profits.map fun p => -Scalar.ofInt p
  Program.build (negated k.profits1) (negated k.profits2)
    [⟨k.weights.map Scalar.ofInt, .atMost, Scalar.ofInt k.capacity⟩]

end Knapsack

end Biobjective
