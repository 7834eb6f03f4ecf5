import Biobjective.Duration
import Biobjective.Oracle

/-!
# Sessions

A `Session` is a dialogue with an oracle and a clock, written down before
either is known: it tells directives, asks for solves, reads the time since the
session began, and ends with a result. What it does next may depend on every
answer so far.

`Session.exec` holds the session with a given oracle and a given clock. The
clock is a function of the `Moment`, that is of the number of solves and of
readings so far, so that any course of time can be prescribed. The `World`
afterwards has the state of the oracle and the whole record of the dialogue.
`Session.interpret` holds the session in any monad.
-/

namespace Biobjective

/-- A dialogue with an oracle and a clock. -/
inductive Session (K α : Type) where
  | done (a : α)
  | tell (d : Directive K) (next : Session K α)
  | solve (next : Answer K → Session K α)
  | clock (next : Duration → Session K α)

namespace Session

variable {K α β : Type}

/-- Goes on with another session once the first one ends. -/
def bind : Session K α → (α → Session K β) → Session K β
  | .done a, f => f a
  | .tell d next, f => .tell d (next.bind f)
  | .solve next, f => .solve fun answer => (next answer).bind f
  | .clock next, f => .clock fun time => (next time).bind f

end Session

/-- A point in the course of a session. -/
structure Moment where
  solves : Nat
  readings : Nat
deriving DecidableEq

/-- The time since a session began, at each moment of it. -/
abbrev Clock := Moment → Duration

def Clock.still : Clock := fun _ => .zero

/-- The clock that stands still for a number of solves and then shows
`limit`. -/
def Clock.jump (limit : Duration) (solves : Nat) : Clock :=
  fun m => if solves ≤ m.solves then limit else .zero

inductive Exchange (K : Type) where
  | told (d : Directive K)
  | solved (a : Answer K)
deriving DecidableEq

/-- An oracle's state and the record of a session with it. -/
structure World (K σ : Type) where
  oracle : σ
  moment : Moment := ⟨0, 0⟩
  record : Array (Exchange K) := #[]

namespace World

variable {K σ : Type}

def start (oracle : σ) : World K σ := { oracle }

def tell (o : Oracle K σ) (d : Directive K) (w : World K σ) : World K σ :=
  { w with oracle := o.follow w.oracle d, record := w.record.push (.told d) }

/-- The answer to a solve and the world after it. -/
def solve (o : Oracle K σ) (w : World K σ) : Answer K × World K σ :=
  let (answer, oracle) := o.solve w.oracle
  (answer,
    { oracle
      moment := { w.moment with solves := w.moment.solves + 1 }
      record := w.record.push (.solved answer) })

def time (c : Clock) (w : World K σ) : Duration × World K σ :=
  (c w.moment, { w with moment := { w.moment with readings := w.moment.readings + 1 } })

end World

namespace Session

variable {K σ α β : Type}

/-- Holds a session with an oracle and a clock. -/
def exec (o : Oracle K σ) (c : Clock) : Session K α → World K σ → α × World K σ
  | .done a, w => (a, w)
  | .tell d next, w => exec o c next (w.tell o d)
  | .solve next, w =>
    let (answer, w) := w.solve o
    exec o c (next answer) w
  | .clock next, w =>
    let (time, w) := w.time c
    exec o c (next time) w

/-- Holds a session in a monad that can follow, solve and tell the time. -/
def interpret {m : Type → Type} [Monad m] (follow : Directive K → m Unit)
    (solve : m (Answer K)) (time : m Duration) : Session K α → m α
  | .done a => pure a
  | .tell d next => do
    follow d
    interpret follow solve time next
  | .solve next => do
    let answer ← solve
    interpret follow solve time (next answer)
  | .clock next => do
    let now ← time
    interpret follow solve time (next now)

@[simp] theorem bind_done (a : α) (f : α → Session K β) : (done a).bind f = f a := rfl

@[simp] theorem bind_tell (d : Directive K) (s : Session K α) (f : α → Session K β) :
    (tell d s).bind f = tell d (s.bind f) := rfl

@[simp] theorem bind_solve (s : Answer K → Session K α) (f : α → Session K β) :
    (solve s).bind f = solve fun answer => (s answer).bind f := rfl

@[simp] theorem bind_clock (s : Duration → Session K α) (f : α → Session K β) :
    (clock s).bind f = clock fun time => (s time).bind f := rfl

theorem bind_assoc {γ : Type} (s : Session K α) (f : α → Session K β) (g : β → Session K γ) :
    (s.bind f).bind g = s.bind fun a => (f a).bind g := by
  induction s with
  | done a => rfl
  | tell d next ih => simp [ih]
  | solve next ih => simp [ih]
  | clock next ih => simp [ih]

/-- A session that goes on with another is held as one after the other. -/
theorem exec_bind (o : Oracle K σ) (c : Clock) (s : Session K α) (f : α → Session K β)
    (w : World K σ) :
    exec o c (s.bind f) w = exec o c (f (exec o c s w).1) (exec o c s w).2 := by
  induction s generalizing w with
  | done a => rfl
  | tell d next ih => exact ih _
  | solve next ih => exact ih _ _
  | clock next ih => exact ih _ _

end Session

end Biobjective
