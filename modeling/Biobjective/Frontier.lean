import Biobjective.Solution

/-!
# Frontiers

A `Frontier` keeps two lists of solutions, both by ascending first objective:
`all`, the solutions retained so far, and `supported`, those known to be
supported. `Frontier.update` inserts a solution into `all` unless a member
covers it, and drops the members that it replaces. `Frontier.insertSupported`
inserts into `supported` and drops nothing.

Between two neighbours of `all` lies a gap, and the corner of the gap farthest
from the origin is its local nadir. `Frontier.worstNadir?` caches the largest
nadir sum, and `Frontier.nadirWithin?` computes the largest weighted nadir of a
triangle, the value at which ranking may stop.
-/

namespace Biobjective

structure Frontier (K : Type) where
  all : List (Solution K) := []
  supported : List (Solution K) := []
  eps : K
  /-- The largest sum of a local nadir's coordinates, absent below two
  members. -/
  worstNadir? : Option K := none

/-- The number of leading elements below a bar, found by bisection: `size` is
the length of the stretch still in question, and each round halves it. -/
def bisectFrom {α : Type} (below : α → Bool) : (fuel size : Nat) → List α → Nat
  | 0, _, _ => 0
  | fuel + 1, size, l =>
    if size ≤ 1 then
      match l with
      | [] => 0
      | a :: _ => if below a then 1 else 0
    else
      let half := size / 2
      match l.drop half with
      | [] => bisectFrom below fuel (size - half) l
      | a :: rest =>
        if below a then half + bisectFrom below fuel (size - half) (a :: rest)
        else bisectFrom below fuel (size - half) l

/-- The number of leading elements for which `below` holds, when these come
first in the list. -/
def bisect {α : Type} (below : α → Bool) (l : List α) : Nat :=
  bisectFrom below (l.length + 1) l.length l

def neighbours {α : Type} : List α → List (α × α)
  | a :: b :: rest => (a, b) :: neighbours (b :: rest)
  | _ => []

@[simp] theorem neighbours_nil {α : Type} : neighbours ([] : List α) = [] := rfl

@[simp] theorem neighbours_singleton {α : Type} (a : α) : neighbours [a] = [] := rfl

@[simp] theorem neighbours_cons_cons {α : Type} (a b : α) (l : List α) :
    neighbours (a :: b :: l) = (a, b) :: neighbours (b :: l) := rfl

/-- There is one pair of neighbours less than there are elements. -/
@[simp] theorem length_neighbours {α : Type} : ∀ l : List α, (neighbours l).length = l.length - 1
  | [] => rfl
  | [_] => rfl
  | a :: b :: l => by simp [length_neighbours (b :: l)]

/-- What becomes of a list of solutions when a new one meets its members in
turn. -/
inductive Placement (K : Type) where
  | covered
  | replaced (all : List (Solution K))
  /-- The new solution neither gives way to a member nor replaces one. -/
  | unmatched

namespace Frontier

variable {K : Type} [Scalar K]

def empty (eps : K) : Frontier K := { eps }

def size (f : Frontier K) : Nat := f.all.length

def points (f : Frontier K) : List (Point K) := f.all.map (·.toPoint)

/-- The largest sum of a local nadir's coordinates over the gaps of a list. -/
def worstNadirOf? (all : List (Solution K)) : Option K :=
  match neighbours all with
  | [] => none
  | (a, b) :: rest =>
    some (rest.foldl (fun worst ab => Scalar.larger worst (ab.2.z1 + ab.1.z2)) (b.z1 + a.z2))

/-- Replaces the retained solutions and brings the cached nadir up to date. -/
def withAll (f : Frontier K) (all : List (Solution K)) : Frontier K :=
  { f with all, worstNadir? := worstNadirOf? all }

@[simp] theorem withAll_all (f : Frontier K) (all : List (Solution K)) :
    (f.withAll all).all = all := rfl

@[simp] theorem withAll_supported (f : Frontier K) (all : List (Solution K)) :
    (f.withAll all).supported = f.supported := rfl

@[simp] theorem withAll_eps (f : Frontier K) (all : List (Solution K)) :
    (f.withAll all).eps = f.eps := rfl

@[simp] theorem withAll_worstNadir? (f : Frontier K) (all : List (Solution K)) :
    (f.withAll all).worstNadir? = worstNadirOf? all := rfl

/-- Inserts `s` into the supported solutions in front of the first one whose
first objective is not smaller. -/
def insertSupported (f : Frontier K) (s : Solution K) : Frontier K :=
  let index := bisect (fun t => t.z1 < s.z1) f.supported
  { f with supported := f.supported.take index ++ s :: f.supported.drop index }

@[simp] theorem insertSupported_all (f : Frontier K) (s : Solution K) :
    (f.insertSupported s).all = f.all := rfl

/-- Nothing is dropped from the supported solutions. -/
theorem perm_insertSupported (f : Frontier K) (s : Solution K) :
    (f.insertSupported s).supported.Perm (s :: f.supported) := by
  refine List.perm_middle.trans (List.Perm.cons s ?_)
  rw [List.take_append_drop]

/-- Retains exactly the supported solutions. -/
def retainSupported (f : Frontier K) : Frontier K := f.withAll f.supported

/-- Lets `s` meet the members in turn. The first member that covers `s` turns
it away. The first member that `s` strictly dominates gives it its place, and
`s` then sweeps the later members that it covers. -/
def place (eps : K) (s : Solution K) : List (Solution K) → Placement K
  | [] => .unmatched
  | e :: rest =>
    if Solution.covers eps e s then .covered
    else if s.strictlyDominates e then
      .replaced (s :: rest.filter fun t => !Solution.covers eps s t)
    else
      match place eps s rest with
      | .replaced all => .replaced (e :: all)
      | other => other

/-- Inserts `s` in front of the first member whose first objective is
larger. -/
def insertOrdered (s : Solution K) : List (Solution K) → List (Solution K)
  | [] => [s]
  | e :: rest => if s.z1 < e.z1 then s :: e :: rest else e :: insertOrdered s rest

theorem perm_insertOrdered (s : Solution K) (all : List (Solution K)) :
    (insertOrdered s all).Perm (s :: all) := by
  induction all with
  | nil => exact .refl _
  | cons e rest ih =>
    rw [insertOrdered]
    split
    · exact .refl _
    · exact (ih.cons e).trans (.swap s e rest)

/-- Inserts a solution unless a member covers it, and tells whether the
retained solutions changed. -/
def update (f : Frontier K) (s : Solution K) : Bool × Frontier K :=
  if f.all.isEmpty then (true, { f with all := [s] })
  else
    match place f.eps s f.all with
    | .covered => (false, f)
    | .replaced all => (true, f.withAll all)
    | .unmatched => (true, f.withAll (insertOrdered s f.all))

@[simp] theorem update_supported (f : Frontier K) (s : Solution K) :
    (f.update s).2.supported = f.supported := by
  rw [update]
  split
  · rfl
  · split <;> rfl

@[simp] theorem update_eps (f : Frontier K) (s : Solution K) : (f.update s).2.eps = f.eps := by
  rw [update]
  split
  · rfl
  · split <;> rfl

/-- The largest weighted nadir over the gaps from `lo` to `hi`: a gap counts
when its left end is not below `lo`, and the gaps end with the first one whose
right end is above `hi`. What is no number does not count. -/
def nadirWithin? (f : Frontier K) (w : Weights K) (lo hi : K) : Option K :=
  let gaps := (neighbours f.all).takeWhile fun ab => !decide (hi < ab.2.z1)
  gaps.foldl (fun worst? ab =>
    if lo ≤ ab.1.z1 then
      let nadir := w.w1 * ab.2.z1 + w.w2 * ab.1.z2
      match worst? with
      | none => if Scalar.isNumber nadir then some nadir else none
      | some worst => some (Scalar.larger worst nadir)
    else worst?) none

end Frontier

end Biobjective
