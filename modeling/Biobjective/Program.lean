import Biobjective.Fault

/-!
# Binary programs

A `Program` asks to make two linear objectives small over the assignments of
zeros and ones that satisfy its rows. Its lengths fit together by construction.

An assignment is a mask, whose bit `i` is the value of variable `i`.
`Program.scan` meets all masks in the order of the reflected Gray code: over
`n + 1` variables it meets the masks of the first `n`, flips variable `n`, and
meets them again. So each step flips one variable, and the objectives and the
left sides of all rows follow by one addition each.

`Program.paretoPoints` is the reference answer: all feasible points, sorted,
with the dominated ones left out.
-/

namespace Biobjective

inductive Sense where
  | atMost
  | atLeast
  | equal
deriving DecidableEq

structure Row (K : Type) where
  coefs : List K
  sense : Sense
  rhs : K
deriving DecidableEq

/-- A left side satisfies the row, up to the feasibility slack. -/
@[specialize] def Row.satisfied {K : Type} [Scalar K] (r : Row K) (lhs : K) : Bool :=
  match r.sense with
  | .atMost => lhs ≤ r.rhs + Scalar.slack
  | .atLeast => r.rhs - Scalar.slack ≤ lhs
  | .equal => Scalar.magnitude (lhs - r.rhs) ≤ Scalar.slack

/-- The largest number of variables that is enumerated. -/
def maxVariables : Nat := 25

structure Program (K : Type) where
  c1 : List K
  c2 : List K
  rows : List (Row K)
  c1_ne_nil : c1 ≠ []
  c1_length_le : c1.length ≤ maxVariables
  c2_length : c2.length = c1.length
  coefs_length : ∀ r ∈ rows, r.coefs.length = c1.length

/-- What one flip of a variable changes. -/
structure Column (K : Type) where
  bit : Nat
  costs : Point K
  coefs : List K

/-- An assignment with its objective values and the left sides of the rows. -/
structure Position (K : Type) where
  mask : Nat
  point : Point K
  lhs : List K

@[specialize] def Position.flip {K : Type} [Scalar K] (p : Position K) (c : Column K) :
    Position K :=
  let sign : K := if p.mask.testBit c.bit then -1 else 1
  { mask := p.mask ^^^ 1 <<< c.bit
    point := ⟨p.point.z1 + sign * c.costs.z1, p.point.z2 + sign * c.costs.z2⟩
    lhs := List.zipWith (fun lhs coef => lhs + sign * coef) p.lhs c.coefs }

@[simp] theorem Position.flip_mask {K : Type} [Scalar K] (p : Position K) (c : Column K) :
    (p.flip c).mask = p.mask ^^^ 1 <<< c.bit := rfl

/-- The left sides satisfy the rows, pair by pair. -/
@[specialize] def rowsSatisfied {K : Type} [Scalar K] : List (Row K) → List K → Bool
  | r :: rows, x :: lhs => r.satisfied x && rowsSatisfied rows lhs
  | _, _ => true

/-- A scan under way. -/
structure Scan (K σ : Type) where
  position : Position K
  met : Nat
  gathered : σ
  stopped : Bool

/-- Meets the assignment at the current position, and shows it to the visitor
if it is feasible. -/
@[specialize] def Scan.meet {K σ : Type} [Scalar K] (rows : List (Row K))
    (visit : σ → Nat → Point K → ForInStep σ) (s : Scan K σ) : Scan K σ :=
  let met := s.met + 1
  if rowsSatisfied rows s.position.lhs then
    match visit s.gathered s.position.mask s.position.point with
    | .yield gathered => { s with met, gathered }
    | .done gathered => { s with met, gathered, stopped := true }
  else { s with met }

/-- Meets all assignments of the variables in `columns`, the last of them
varying fastest, unless the visitor stops the scan. -/
@[specialize] def Scan.sweep {K σ : Type} [Scalar K] (rows : List (Row K))
    (visit : σ → Nat → Point K → ForInStep σ) : List (Column K) → Scan K σ → Scan K σ
  | [], s => s.meet rows visit
  | c :: columns, s =>
    let s := sweep rows visit columns s
    if s.stopped then s
    else sweep rows visit columns { s with position := s.position.flip c }

@[simp] theorem Scan.sweep_nil {K σ : Type} [Scalar K] (rows : List (Row K))
    (visit : σ → Nat → Point K → ForInStep σ) (s : Scan K σ) :
    sweep rows visit [] s = s.meet rows visit := rfl

theorem Scan.sweep_cons {K σ : Type} [Scalar K] (rows : List (Row K))
    (visit : σ → Nat → Point K → ForInStep σ) (c : Column K) (columns : List (Column K))
    (s : Scan K σ) :
    sweep rows visit (c :: columns) s =
      if (sweep rows visit columns s).stopped then sweep rows visit columns s
      else sweep rows visit columns
        { sweep rows visit columns s with
          position := (sweep rows visit columns s).position.flip c } := rfl

namespace Program

variable {K : Type}

def dimension (p : Program K) : Nat := p.c1.length

theorem dimension_ne_zero (p : Program K) : p.dimension ≠ 0 :=
  fun h => p.c1_ne_nil (List.length_eq_zero_iff.1 h)

/-- The program of two objectives and rows, if their lengths fit. -/
def build (c1 c2 : List K) (rows : List (Row K)) : Except InstanceFault (Program K) :=
  if h1 : c1 = [] then .error .noVariables
  else if h2 : maxVariables < c1.length then .error (.tooManyVariables c1.length maxVariables)
  else if h3 : c2.length ≠ c1.length then .error (.objectiveLengths c1.length c2.length)
  else
    match h4 : rows.findIdx? fun r => r.coefs.length != c1.length with
    | some k =>
      .error (.rowLength k ((rows[k]?.map (·.coefs.length)).getD 0) c1.length)
    | none =>
      .ok
        { c1, c2, rows
          c1_ne_nil := h1
          c1_length_le := Nat.le_of_not_lt h2
          c2_length := Decidable.of_not_not h3
          coefs_length := fun r hr => by
            simpa using (List.findIdx?_eq_none_iff.1 h4) r hr }

variable [Scalar K]

def column (p : Program K) (i : Nat) : Column K :=
  { bit := i
    costs := ⟨p.c1.getD i 0, p.c2.getD i 0⟩
    coefs := p.rows.map fun r => r.coefs.getD i 0 }

/-- The columns of all variables, the last variable first. -/
def columns (p : Program K) : List (Column K) :=
  (List.range p.dimension).reverse.map p.column

/-- The assignment of zeros. -/
def origin (p : Program K) : Position K :=
  { mask := 0, point := ⟨0, 0⟩, lhs := p.rows.map fun _ => 0 }

/-- Shows every feasible assignment to the visitor until it stops, and returns
what it gathered with the number of assignments met. -/
@[specialize] def scan {σ : Type} (p : Program K) (visit : σ → Nat → Point K → ForInStep σ)
    (start : σ) : σ × Nat :=
  let s := Scan.sweep p.rows visit p.columns ⟨p.origin, 0, start, false⟩
  (s.gathered, s.met)

/-- The assignment of a mask, as zeros and ones. -/
def decisions (p : Program K) (mask : Nat) : List K :=
  (List.range p.dimension).map fun i => if mask.testBit i then 1 else 0

@[simp] theorem length_columns (p : Program K) : p.columns.length = p.dimension := by
  simp [columns]

@[simp] theorem length_decisions (p : Program K) (mask : Nat) :
    (p.decisions mask).length = p.dimension := by
  simp [decisions]

@[inline] def snapPoint (z : Point K) : Point K := ⟨Scalar.snap z.z1, Scalar.snap z.z2⟩

/-- The points of all feasible assignments, the last met first. -/
@[specialize] def feasiblePoints (p : Program K) : List (Point K) :=
  (p.scan (fun points _ z => .yield (snapPoint z :: points)) []).1

/-- The point `a` comes before `b` by its first coordinate, or by its second
if the first ones agree. -/
@[specialize] def before (a b : Point K) : Bool :=
  a.z1 < b.z1 || (a.z1 ≤ b.z1 && b.z1 ≤ a.z1 && a.z2 < b.z2)

/-- Keeps the points whose second coordinate is smaller than that of the last
point kept. -/
@[specialize] def descend : Option K → List (Point K) → List (Point K)
  | _, [] => []
  | none, z :: rest => z :: descend (some z.z2) rest
  | some last, z :: rest =>
    if z.z2 < last then z :: descend (some z.z2) rest else descend (some last) rest

/-- The non-dominated feasible points, by ascending first coordinate. -/
@[specialize] def paretoPoints (p : Program K) : List (Point K) :=
  descend none ((p.feasiblePoints.reverse).mergeSort fun a b => !before b a)

end Program

end Biobjective
