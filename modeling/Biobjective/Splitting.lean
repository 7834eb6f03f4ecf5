import Biobjective.Phase
import Biobjective.Region

/-!
# The second phase by splitting

Every non-dominated point that is not supported lies in the box between two
supported neighbours. Under the weights of their chord, a solve in a box
either shows it empty or finds a point; the two boxes that remain around the
point join the queue. A time limit ends the whole phase.
-/

namespace Biobjective

/-- Takes the next element from a queue to which elements are added at the
end. -/
def QueueOrder.pop? {α : Type} : QueueOrder → List α → Option (α × List α)
  | .fifo, [] => none
  | .fifo, a :: queue => some (a, queue)
  | .lifo, queue => queue.getLast?.map fun a => (a, queue.dropLast)

theorem QueueOrder.pop?_eq_none_iff {α : Type} (o : QueueOrder) (queue : List α) :
    o.pop? queue = none ↔ queue = [] := by
  cases o <;> cases queue <;> simp [pop?]

theorem QueueOrder.perm_of_pop? {α : Type} {o : QueueOrder} {queue rest : List α} {a : α}
    (h : o.pop? queue = some (a, rest)) : (a :: rest).Perm queue := by
  cases o with
  | fifo =>
    cases queue with
    | nil => simp [pop?] at h
    | cons b queue => simp_all [pop?]
  | lifo =>
    obtain ⟨b, hb, heq⟩ := Option.map_eq_some_iff.1 h
    obtain ⟨rfl, rfl⟩ := Prod.mk.inj heq
    obtain ⟨init, rfl⟩ := List.getLast?_eq_some_iff.1 hb
    simpa using (List.perm_append_singleton b init).symm

namespace Splitting

variable {K : Type} [Scalar K]

/-- Works off a queue of boxes. The fuel bounds the number of boxes. -/
def drain (cfg : Config K) : (fuel : Nat) → List (Region K) → Phase K Unit
  | 0, queue => if queue.isEmpty then return () else Phase.cut .outOfFuel
  | fuel + 1, queue =>
    match cfg.queueOrder.pop? queue with
    | none => return ()
    | some (region, queue) => do
      Phase.checkTime cfg.timeLimit
      Phase.tell (.bound .first (region.range .first))
      Phase.tell (.bound .second (region.range .second))
      match ← Phase.solve with
      | .optimal best =>
        Phase.modifyFrontier fun f => (f.update (best.toSolution false cfg.keepDecisions)).2
        drain cfg fuel (queue ++ region.split best.toPoint)
      | .infeasible => drain cfg fuel queue
      | .timedOut _ => Phase.cut .timeout

/-- Searches the boxes between neighbours one after the other, each with the
same fuel. -/
def search (cfg : Config K) (fuel : Nat) : List (Solution K × Solution K) → Phase K Unit
  | [] => return ()
  | (left, right) :: rest => do
    Phase.tell (.weights (left.chord right))
    drain cfg fuel [Region.ofCorners left right]
    search cfg fuel rest

/-- The second phase by splitting. The ranges are released at its end. -/
def phase (cfg : Config K) (fuel : Nat) : Phase K Status := fun p =>
  (search cfg fuel (neighbours p.frontier.supported) p).bind fun (ending, p) =>
    match ending with
    | .error .overflow => .done (.error .overflow, p)
    | .error .outOfFuel => .done (.error .outOfFuel, p)
    | .error _ => released .partly p
    | .ok () => released .completed p
where
  released (status : Status) : Phase K Status := do
    Phase.tell (.clear .first)
    Phase.tell (.clear .second)
    return status

end Splitting

end Biobjective
