import Biobjective.Oracle

/-!
# The replaying oracle

A `Replay` answers the solves from a list fixed in advance and takes note of
the weights only. When the list has run out every answer is infeasible.
-/

namespace Biobjective

/-- An answer fixed in advance. -/
inductive Recorded (K : Type) where
  | optimal (o : Optimum K)
  /-- An optimum whose value is its weighted sum under the weights in force. -/
  | weighted (point : Point K) (decisions : List K) (nodes : Nat)
  | infeasible
  | timedOut (nodes : Nat)

/-- The answers still to be given. -/
structure Replay (K : Type) where
  weights : Weights K
  script : List (Recorded K)
  solves : Nat := 0

namespace Replay

variable {K : Type} [Scalar K]

def ofScript (script : List (Recorded K)) : Replay K :=
  { weights := ⟨1, 1⟩, script }

def follow (r : Replay K) : Directive K → Replay K
  | .weights w => { r with weights := w }
  | _ => r

def answer (w : Weights K) : Recorded K → Answer K
  | .optimal o => .optimal o
  | .weighted point decisions nodes =>
    .optimal { toPoint := point, value := w.value point, decisions, nodes }
  | .infeasible => .infeasible
  | .timedOut nodes => .timedOut nodes

/-- Answers a solve from the list. -/
def solve (r : Replay K) : Answer K × Replay K :=
  match r.script with
  | [] => (.infeasible, { r with solves := r.solves + 1 })
  | next :: script => (answer r.weights next, { r with script, solves := r.solves + 1 })

/-- The replaying oracle on a number of variables. -/
def oracle (dimension : Nat) : Oracle K (Replay K) := { dimension, follow, solve }

end Replay

end Biobjective
