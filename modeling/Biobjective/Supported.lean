import Biobjective.Phase

/-!
# The first phase: supported points

The search starts with the two anchors, the lexicographic minima of the two
objectives. Then it examines the chords between neighbouring supported points,
from the left: a solve under the weights of a chord either finds a point below
it, which becomes a supported point and splits the chord, or shows that there
is none, and the next chord is examined.

An infeasible answer is fatal here, since without anchors there is no
frontier.
-/

namespace Biobjective

inductive Anchor where
  /-- The least first objective, and of these the least second one. -/
  | upperLeft
  /-- The least second objective, and of these the least first one. -/
  | lowerRight
deriving DecidableEq

namespace Anchor

def stage : Anchor → Stage
  | .upperLeft => .upperLeftAnchor
  | .lowerRight => .lowerRightAnchor

def primary : Anchor → Objective
  | .upperLeft => .first
  | .lowerRight => .second

variable {K : Type} [Scalar K]

/-- The weights that minimise one objective alone. -/
def weightsOf : Objective → Weights K
  | .first => ⟨1, 0⟩
  | .second => ⟨0, 1⟩

def levelWeights (a : Anchor) : Weights K := weightsOf a.primary

def tieWeights : Anchor → Weights K
  | .upperLeft => weightsOf .second
  | .lowerRight => weightsOf .first

/-- Finds an anchor: minimises the first objective, caps it there, minimises
the other one, and releases the cap. -/
def find (cfg : Config K) (a : Anchor) : Phase K (Solution K) := do
  Phase.tell (.weights a.levelWeights)
  let level ← Phase.demand a.stage (← Phase.solve)
  Phase.checkTime cfg.timeLimit
  let cap := a.primary.of level.toPoint + cfg.tolerances.tie
  Phase.tell (.bound a.primary ⟨none, some cap⟩)
  Phase.tell (.weights a.tieWeights)
  let answer ← Phase.solve
  Phase.tell (.clear a.primary)
  let best ← Phase.demand a.stage answer
  return best.toSolution true cfg.keepDecisions

end Anchor

namespace Supported

variable {K : Type} [Scalar K]

/-- Examines the chords from the one that starts at `left` on, at most as many
as are allowed. -/
def refine (cfg : Config K) : (chords left : Nat) → Phase K Unit
  | 0, _ => return ()
  | chords + 1, left => do
    let supported := (← Phase.frontier).supported
    match supported[left]?, supported[left + 1]? with
    | some a, some b =>
      let w := a.chord b
      Phase.tell (.weights w)
      let best ← Phase.demand .chord (← Phase.solve)
      if best.value ≤ w.value a.toPoint - cfg.tolerances.tie then
        Phase.modifyFrontier (·.insertSupported (best.toSolution true cfg.keepDecisions))
        Phase.checkTime cfg.timeLimit
        refine cfg chords left
      else
        Phase.checkTime cfg.timeLimit
        refine cfg chords (left + 1)
    | _, _ => return ()

/-- Finds the anchors and refines the chords between them. If the anchors
agree in the first objective there is one point only. -/
def search (cfg : Config K) : Phase K Unit := do
  let upperLeft ← Anchor.find cfg .upperLeft
  Phase.modifyFrontier (·.insertSupported upperLeft)
  Phase.checkTime cfg.timeLimit
  let lowerRight ← Anchor.find cfg .lowerRight
  if Scalar.magnitude (lowerRight.z1 - upperLeft.z1) ≤ cfg.tolerances.tie then return ()
  Phase.modifyFrontier (·.insertSupported lowerRight)
  Phase.checkTime cfg.timeLimit
  refine cfg (cfg.maxChords - 1) 0

/-- The first phase. Its supported points become the retained solutions, also
when time ran out, but not after a failure. -/
def phase (cfg : Config K) : Phase K Status := fun p =>
  (search cfg p).bind fun
    | (.ok (), p) => .done (.ok .completed, { p with frontier := p.frontier.retainSupported })
    | (.error .timeout, p) =>
      .done (.ok .partly, { p with frontier := p.frontier.retainSupported })
    | (.error cut, p) => .done (.error cut, p)

end Supported

end Biobjective
