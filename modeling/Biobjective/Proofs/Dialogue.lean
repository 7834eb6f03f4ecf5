import Biobjective.Session
import Mathlib.Data.List.Basic

/-!
# What is in force, and what was asked

An oracle sees a sequence of calls, each a directive or a solve. `Terms` is what
the directives amount to: the weights and the ranges told last, and all
exclusions. It depends on the calls only, so it can be read off the record of a
session without the oracle; `asked` lists the solves of a record, each with the
terms in force and the answer.

A session only adds to the record. `Session.exec_record` says what it adds and
how the count of solves and the oracle's state follow from that.
-/

namespace Biobjective

/-- What an oracle can be called for. -/
inductive Call (K : Type) where
  | tell (d : Directive K)
  | solve

namespace Oracle

variable {K σ : Type}

def step (o : Oracle K σ) (s : σ) : Call K → σ
  | .tell d => o.follow s d
  | .solve => (o.solve s).2

/-- The state after a sequence of calls. -/
def after (o : Oracle K σ) (s : σ) (calls : List (Call K)) : σ := calls.foldl o.step s

@[simp] theorem after_nil (o : Oracle K σ) (s : σ) : o.after s [] = s := rfl

theorem after_append (o : Oracle K σ) (s : σ) (calls calls' : List (Call K)) :
    o.after s (calls ++ calls') = o.after (o.after s calls) calls' :=
  List.foldl_append

end Oracle

/-- What directives amount to. The exclusion told last comes first. -/
structure Terms (K : Type) where
  weights : Weights K
  first : Interval K
  second : Interval K
  exclusions : List (List (Literal K))

namespace Terms

variable {K : Type}

def follow (t : Terms K) : Directive K → Terms K
  | .weights w => { t with weights := w }
  | .bound .first range => { t with first := range }
  | .bound .second range => { t with second := range }
  | .clear .first => { t with first := .unbounded }
  | .clear .second => { t with second := .unbounded }
  | .exclude literals => { t with exclusions := literals :: t.exclusions }

def step (t : Terms K) : Call K → Terms K
  | .tell d => t.follow d
  | .solve => t

/-- The terms in force after a sequence of calls. -/
def after (t : Terms K) (calls : List (Call K)) : Terms K := calls.foldl step t

@[simp] theorem after_nil (t : Terms K) : t.after [] = t := rfl

theorem after_append (t : Terms K) (calls calls' : List (Call K)) :
    t.after (calls ++ calls') = (t.after calls).after calls' :=
  List.foldl_append

end Terms

namespace Exchange

variable {K : Type}

def call : Exchange K → Call K
  | .told d => .tell d
  | .solved _ => .solve

def isSolved : Exchange K → Bool
  | .told _ => false
  | .solved _ => true

end Exchange

/-- The number of solves in a record. -/
def solveCount {K : Type} (record : List (Exchange K)) : ℕ := record.countP Exchange.isSolved

@[simp] theorem solveCount_nil {K : Type} : solveCount ([] : List (Exchange K)) = 0 := rfl

@[simp] theorem solveCount_told {K : Type} (d : Directive K) (record : List (Exchange K)) :
    solveCount (.told d :: record) = solveCount record :=
  List.countP_cons_of_neg Bool.false_ne_true

@[simp] theorem solveCount_solved {K : Type} (a : Answer K) (record : List (Exchange K)) :
    solveCount (.solved a :: record) = solveCount record + 1 :=
  List.countP_cons_of_pos rfl

@[simp] theorem solveCount_append {K : Type} (record record' : List (Exchange K)) :
    solveCount (record ++ record') = solveCount record + solveCount record' :=
  List.countP_append

/-- The solves of a record, each with the terms in force and the answer. -/
def asked {K : Type} : Terms K → List (Exchange K) → List (Terms K × Answer K)
  | _, [] => []
  | t, .told d :: record => asked (t.follow d) record
  | t, .solved a :: record => (t, a) :: asked t record

@[simp] theorem asked_nil {K : Type} (t : Terms K) : asked t [] = [] := rfl

@[simp] theorem asked_told {K : Type} (t : Terms K) (d : Directive K)
    (record : List (Exchange K)) : asked t (.told d :: record) = asked (t.follow d) record := rfl

@[simp] theorem asked_solved {K : Type} (t : Terms K) (a : Answer K)
    (record : List (Exchange K)) : asked t (.solved a :: record) = (t, a) :: asked t record := rfl

theorem asked_append {K : Type} (t : Terms K) (record record' : List (Exchange K)) :
    asked t (record ++ record') =
      asked t record ++ asked (t.after (record.map Exchange.call)) record' := by
  induction record generalizing t with
  | nil => rfl
  | cons x record ih =>
      cases x with
      | told d => exact ih (t.follow d)
      | solved a => exact congrArg (List.cons (t, a)) (ih t)

@[simp] theorem length_asked {K : Type} (t : Terms K) (record : List (Exchange K)) :
    (asked t record).length = solveCount record := by
  induction record generalizing t with
  | nil => rfl
  | cons x record ih =>
      cases x with
      | told d => simp [ih]
      | solved a => simp [ih]

theorem asked_eq_nil {K : Type} (t : Terms K) {record : List (Exchange K)}
    (h : solveCount record = 0) : asked t record = [] :=
  List.eq_nil_of_length_eq_zero ((length_asked t record).trans h)

namespace World

variable {K σ : Type}

@[simp] theorem tell_record (o : Oracle K σ) (d : Directive K) (w : World K σ) :
    (w.tell o d).record.toList = w.record.toList ++ [.told d] :=
  Array.toList_push

@[simp] theorem tell_solves (o : Oracle K σ) (d : Directive K) (w : World K σ) :
    (w.tell o d).moment.solves = w.moment.solves := rfl

@[simp] theorem solve_record (o : Oracle K σ) (w : World K σ) :
    (w.solve o).2.record.toList = w.record.toList ++ [.solved (w.solve o).1] :=
  Array.toList_push

@[simp] theorem solve_solves (o : Oracle K σ) (w : World K σ) :
    (w.solve o).2.moment.solves = w.moment.solves + 1 := rfl

@[simp] theorem time_record (c : Clock) (w : World K σ) : (w.time c).2.record = w.record := rfl

@[simp] theorem time_solves (c : Clock) (w : World K σ) :
    (w.time c).2.moment.solves = w.moment.solves := rfl

/-- The terms in force in a world whose record began under `t`. -/
def terms (t : Terms K) (w : World K σ) : Terms K :=
  t.after (w.record.toList.map Exchange.call)

@[simp] theorem terms_tell (t : Terms K) (o : Oracle K σ) (d : Directive K) (w : World K σ) :
    (w.tell o d).terms t = (w.terms t).follow d := by
  rw [terms, tell_record, List.map_append, Terms.after_append]
  rfl

@[simp] theorem terms_solve (t : Terms K) (o : Oracle K σ) (w : World K σ) :
    (w.solve o).2.terms t = w.terms t := by
  rw [terms, solve_record, List.map_append, Terms.after_append]
  rfl

@[simp] theorem terms_time (t : Terms K) (c : Clock) (w : World K σ) :
    (w.time c).2.terms t = w.terms t := rfl

/-- The solves in a world whose record began under `t`. -/
def questions (t : Terms K) (w : World K σ) : List (Terms K × Answer K) := asked t w.record.toList

@[simp] theorem questions_tell (t : Terms K) (o : Oracle K σ) (d : Directive K) (w : World K σ) :
    (w.tell o d).questions t = w.questions t := by
  rw [questions, tell_record, asked_append, asked_told, asked_nil, List.append_nil]
  rfl

@[simp] theorem questions_solve (t : Terms K) (o : Oracle K σ) (w : World K σ) :
    (w.solve o).2.questions t = w.questions t ++ [(w.terms t, (w.solve o).1)] := by
  rw [questions, solve_record, asked_append]
  rfl

@[simp] theorem questions_time (t : Terms K) (c : Clock) (w : World K σ) :
    (w.time c).2.questions t = w.questions t := rfl

/-- The oracle is in the state to which the record leads from `s`. -/
def Tracks (o : Oracle K σ) (s : σ) (w : World K σ) : Prop :=
  w.oracle = o.after s (w.record.toList.map Exchange.call)

theorem Tracks.tell {o : Oracle K σ} {s : σ} {w : World K σ} (h : w.Tracks o s)
    (d : Directive K) : (w.tell o d).Tracks o s := by
  rw [Tracks, tell_record, List.map_append, Oracle.after_append, ← h]
  rfl

theorem Tracks.solve {o : Oracle K σ} {s : σ} {w : World K σ} (h : w.Tracks o s) :
    (w.solve o).2.Tracks o s := by
  rw [Tracks, solve_record, List.map_append, Oracle.after_append, ← h]
  rfl

theorem Tracks.time {o : Oracle K σ} {s : σ} {w : World K σ} (h : w.Tracks o s) (c : Clock) :
    (w.time c).2.Tracks o s := h

end World

/-- From the state `s` on, under the terms `t`, each answer depends on the terms in
force only. -/
def Oracle.Replies {K σ : Type} (o : Oracle K σ) (s : σ) (t : Terms K)
    (reply : Terms K → Answer K) : Prop :=
  ∀ calls, (o.solve (o.after s calls)).1 = reply (t.after calls)

theorem Oracle.Replies.answer_eq {K σ : Type} {o : Oracle K σ} {s : σ} {t : Terms K}
    {reply : Terms K → Answer K} (h : o.Replies s t reply) {w : World K σ} (hw : w.Tracks o s) :
    (w.solve o).1 = reply (w.terms t) := by
  change (o.solve w.oracle).1 = _
  rw [hw, h]
  rfl

namespace Session

variable {K σ α : Type}

/-- What a session adds to the record accounts for its solves and for the state
that it leaves the oracle in. -/
theorem exec_record (o : Oracle K σ) (c : Clock) (s : Session K α) (w : World K σ) :
    ∃ tail, (s.exec o c w).2.record.toList = w.record.toList ++ tail ∧
      (s.exec o c w).2.moment.solves = w.moment.solves + solveCount tail ∧
      (s.exec o c w).2.oracle = o.after w.oracle (tail.map Exchange.call) := by
  induction s generalizing w with
  | done a => exact ⟨[], (List.append_nil _).symm, rfl, rfl⟩
  | tell d next ih =>
      obtain ⟨tail, hrecord, hsolves, horacle⟩ := ih (w.tell o d)
      refine ⟨.told d :: tail, ?_, ?_, horacle⟩
      · rw [World.tell_record, List.append_assoc] at hrecord
        exact hrecord
      · rw [solveCount_told]
        exact hsolves
  | solve next ih =>
      obtain ⟨tail, hrecord, hsolves, horacle⟩ := ih (w.solve o).1 (w.solve o).2
      refine ⟨.solved (w.solve o).1 :: tail, ?_, ?_, horacle⟩
      · rw [World.solve_record, List.append_assoc] at hrecord
        exact hrecord
      · rw [World.solve_solves, Nat.add_right_comm, Nat.add_assoc, ← solveCount_solved] at hsolves
        exact hsolves
  | clock next ih => exact ih (c w.moment) (w.time c).2

theorem solves_le_exec (o : Oracle K σ) (c : Clock) (s : Session K α) (w : World K σ) :
    w.moment.solves ≤ (s.exec o c w).2.moment.solves := by
  obtain ⟨tail, -, hsolves, -⟩ := exec_record o c s w
  omega

theorem record_prefix_exec (o : Oracle K σ) (c : Clock) (s : Session K α) (w : World K σ) :
    w.record.toList <+: (s.exec o c w).2.record.toList := by
  obtain ⟨tail, hrecord, -, -⟩ := exec_record o c s w
  exact ⟨tail, hrecord.symm⟩

/-- From a fresh world the count of solves is that of the record. -/
theorem solves_exec_start (o : Oracle K σ) (c : Clock) (s : Session K α) (oracle : σ) :
    (s.exec o c (.start oracle)).2.moment.solves =
      solveCount (s.exec o c (.start oracle)).2.record.toList := by
  obtain ⟨tail, hrecord, hsolves, -⟩ := exec_record o c s (.start oracle)
  have hstart : (World.start oracle : World K σ).record.toList = [] := rfl
  rw [hrecord, hsolves, hstart, List.nil_append]
  exact Nat.zero_add _

end Session

end Biobjective
