import Biobjective.Phase

/-!
# The second phase by ranking

In the box between two supported neighbours, less its outer edges, the
assignments are taken in the order of their weighted value under the chord's
weights, each one being excluded as it is met. Once the value has reached the
worst nadir of the gaps between the known points, no gap can hold a further
point. A time limit ends the current box only.
-/

namespace Biobjective

namespace Ranking

variable {K : Type} [Scalar K]

/-- The value has reached the worst nadir. Where there is no gap, every number
has. -/
def reached (value : K) : Option K → Bool
  | none => Scalar.isNumber value
  | some nadir => nadir ≤ value

/-- Ranks the assignments of a box until the nadir of the gaps from `lo` to
`hi` is reached. The fuel bounds the number of solves. -/
def drain (cfg : Config K) (w : Weights K) (lo hi : K) : (fuel : Nat) → Phase K Status
  | 0 => Phase.cut .outOfFuel
  | fuel + 1 => do
    match ← Phase.solve with
    | .infeasible => return .completed
    | .timedOut _ => return .partly
    | .optimal best =>
      let nadir? := (← Phase.frontier).nadirWithin? w lo hi
      if reached best.value nadir? then return .completed
      let decisions := best.decisions.map binary
      let found : Solution K :=
        { toPoint := best.toPoint
          supported := false
          decisions := if cfg.keepDecisions then decisions else [] }
      Phase.modifyFrontier fun f => (f.update found).2
      Phase.tell (.exclude (noGood decisions))
      if ← Phase.isOver cfg.timeLimit then return .partly
      drain cfg w lo hi fuel

def search (cfg : Config K) (fuel : Nat) :
    List (Solution K × Solution K) → Status → Phase K Status
  | [], status => return status
  | (left, right) :: rest, status => do
    Phase.tell (.bound .first (.between left.z1 (right.z1 - 1)))
    Phase.tell (.bound .second (.between right.z2 (left.z2 - 1)))
    let w := left.chord right
    Phase.tell (.weights w)
    let here ← drain cfg w left.z1 right.z1 fuel
    search cfg fuel rest (status.and here)

/-- The second phase by ranking, on an oracle with a number of variables of which
an assignment has to be held. The ranges are released at its end. -/
def phase (cfg : Config K) (dimension fuel : Nat) : Phase K Status := do
  if maxLength < dimension then Phase.cut .tooManyVariables
  let supported := (← Phase.frontier).supported
  let status ← search cfg fuel (neighbours supported) .completed
  Phase.tell (.clear .first)
  Phase.tell (.clear .second)
  return status

end Ranking

end Biobjective
