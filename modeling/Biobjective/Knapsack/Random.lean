import Biobjective.Knapsack
import Biobjective.Random.Uniform

/-!
# Random knapsacks

A knapsack with weights and profits drawn from two ranges. The same seed gives
the same knapsack. Its capacity is half the total weight.
-/

namespace Biobjective

/-- The number of items of a random knapsack, and the least and the greatest of
its weights and of its profits. -/
structure KnapsackPlan where
  items : Nat := 16
  weight : Int × Int := (10, 50)
  profit : Int × Int := (1, 100)
deriving DecidableEq

structure Item where
  weight : Int
  profit1 : Int
  profit2 : Int

namespace KnapsackPlan

def item (g : Generator) (plan : KnapsackPlan) (s : g.State) :
    Except Crash (Item × g.State) := do
  let (weight, s) ← g.draw plan.weight.1 plan.weight.2 s
  let (profit1, s) ← g.draw plan.profit.1 plan.profit.2 s
  let (profit2, s) ← g.draw plan.profit.1 plan.profit.2 s
  return (⟨weight, profit1, profit2⟩, s)

/-- Draws a number of items, and puts each in front of those drawn before. -/
def draw (g : Generator) (plan : KnapsackPlan) : (items : Nat) → List Item → g.State →
    Except Crash (List Item)
  | 0, drawn, _ => return drawn
  | items + 1, drawn, s => do
    let (item, s) ← plan.item g s
    draw g plan items (item :: drawn) s

/-- The knapsack that a generator makes of a seed. Its numbers have to be held in
lists. -/
def randomBy (g : Generator) (plan : KnapsackPlan) (seed : UInt64) : Except Failure Knapsack :=
  if maxLength < plan.items then .error (.crash .capacityOverflow)
  else
    match plan.draw g plan.items [] (g.ofSeed seed) with
    | .error crash => .error (.crash crash)
    | .ok drawn =>
      let items := drawn.reverse
      let weights := items.map (·.weight)
      match Knapsack.halfWeight weights with
      | .error crash => .error (.crash crash)
      | .ok capacity =>
        match Knapsack.build weights (items.map (·.profit1)) (items.map (·.profit2)) capacity with
        | .ok k => .ok k
        | .error cause => .error (.fault (.invalid cause))

def random (plan : KnapsackPlan) (seed : UInt64) : Except Failure Knapsack :=
  plan.randomBy .standard seed

end KnapsackPlan

end Biobjective
