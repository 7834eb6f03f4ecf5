import Biobjective.Knapsack
import Biobjective.Table

/-!
# Knapsacks from tables

A knapsack given by three columns of a table with a row for each item. Where no
capacity is given it is half the total weight.
-/

namespace Biobjective

/-- The columns of a table of items. A cell may be missing. -/
structure ItemColumns where
  weights : List (Option Int)
  profits1 : List (Option Int)
  profits2 : List (Option Int)

/-- The columns in the texts of some tables, the items of which follow each
other. -/
def ItemColumns.ofTexts? (texts : List String) : Option ItemColumns := do
  let tables ← texts.mapM Table.ofText?
  match ← Table.columnsOfAll? tables ["weight", "profit1", "profit2"] with
  | [weights, profits1, profits2] => some { weights, profits1, profits2 }
  | _ => none

inductive ItemFault where
  | missing (column : String) (row : Nat)
  | negativeWeight
  | invalid (cause : InstanceFault)
  | crash (cause : Crash)
deriving DecidableEq

namespace Knapsack

def complete (column : String) (cells : List (Option Int)) : Except ItemFault (List Int) :=
  match cells.findIdx? (·.isNone) with
  | some row => .error (.missing column row)
  | none => .ok (cells.filterMap id)

/-- The capacity of a knapsack, half the total weight if none is given. -/
def capacityOf (weights : List Int) : Option Int → Except Crash Int
  | some capacity => .ok capacity
  | none => halfWeight weights

def ofColumns (columns : ItemColumns) (capacity? : Option Int) : Except ItemFault Knapsack := do
  let weights ← complete "weight" columns.weights
  let profits1 ← complete "profit1" columns.profits1
  let profits2 ← complete "profit2" columns.profits2
  if weights.any (· < 0) then throw .negativeWeight
  let capacity ← (capacityOf weights capacity?).mapError .crash
  (build weights profits1 profits2 capacity).mapError .invalid

end Knapsack

end Biobjective
