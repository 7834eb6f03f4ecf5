import Biobjective.Proofs.HostedRun
import Biobjective.Proofs.Limits

/-!
# How a command ends

A command line ends with one of the documented exit codes unless a number is too large to be
held, the host has no room, or it does not take what is printed. `Command.Overload` lists these
causes by the request and the host, and `Command.outcome_crashed_iff` says that there are no
others and that no command is left unfinished. The tools are any tools that do what
`Tools.Behaves` asks of them.
-/

namespace Biobjective

theorem Exit.code_mem_iff {e : Exit} : e.code ∈ [0, 1, 2] ↔ ∀ cause, e ≠ .crashed cause := by
  cases e with
  | crashed cause => cases cause <;> simp [code]
  | success => simp [code]
  | helped => simp [code]
  | incomplete => simp [code]
  | refused message => simp [code]
  | misused => simp [code]

/-- What is asked of the tools for a command line on a host: words are refused as a misuse or
answered with help, the columns of a table are read or refused, and random numbers keep to their
ranges. -/
structure Tools.Behaves {σ : Type} (tools : Tools (StateM σ)) (words : List String) (s : σ) :
    Prop where
  parse : ∀ exit, tools.parse words = .error exit → exit = .helped ∨ exit = .misused
  scan : ∀ request path, tools.parse words = .ok request → request.source.csv? = some path →
    ∀ cause, (tools.scan path s).1 ≠ .error (.crashed cause)
  generator : tools.generator.KeepsRange

section Standard

theorem Request.ofRead_error {request? : GivenOptions → Option Request} {words? : Option ReadWords}
    {exit : Exit} (h : ofRead request? words? = .error exit) : exit = .helped ∨ exit = .misused := by
  revert h
  rw [ofRead.eq_def]
  split
  · rintro ⟨⟩
    exact Or.inr rfl
  · split
    · rintro ⟨⟩
      exact Or.inr rfl
    · split_ifs
      · rintro ⟨⟩
        exact Or.inl rfl
      · nofun
      · rintro ⟨⟩
        exact Or.inr rfl

theorem Request.ofWords_error {words : List String} {exit : Exit} (h : ofWords words = .error exit) :
    exit = .helped ∨ exit = .misused := by
  have hif : ∀ c : Bool, (if c then Exit.helped else .misused) = exit →
      exit = .helped ∨ exit = .misused := by
    rintro (_ | _) rfl
    · exact Or.inr rfl
    · exact Or.inl rfl
  revert h
  rw [ofWords.eq_def]
  split
  · exact ofRead_error
  · exact ofRead_error
  · exact fun h => hif _ (Except.error.inj h)
  · exact fun h => hif _ (Except.error.inj h)
  · exact fun h => Or.inr (Except.error.inj h).symm

variable {σ : Type} [Host (StateM σ)]

/-- A table on this machine is read or refused. -/
theorem Sources.scan_ne_crashed {path : String} (h : Path.isRemote path = false) (s : σ)
    (cause : Crash) : ((scan path : StateM σ _) s).1 ≠ .error (.crashed cause) := by
  have hbind : ∀ {α : Type} (x : StateM σ α) (f : α → StateM σ (Except ScanFault ItemColumns)),
      (∀ a s, (f a s).1 ≠ .error (.crashed cause)) →
        ∀ s, ((x >>= f) s).1 ≠ .error (.crashed cause) := fun x f hf s => hf _ _
  rw [scan, if_neg (by simp [h])]
  refine hbind _ _ (fun files? s => ?_) s
  cases files? with
  | none => nofun
  | some files =>
      refine hbind _ _ (fun texts? s => ?_) s
      cases texts? with
      | none => nofun
      | some texts =>
          dsimp only
          cases ItemColumns.ofTexts? texts with
          | none => nofun
          | some columns => nofun

/-- The tools of this library do what is asked of them unless a path leads to another machine. -/
theorem Tools.behaves_standard {words : List String} (s : σ)
    (h : ∀ request path, Request.ofWords words = .ok request → request.source.csv? = some path →
      Path.isRemote path = false) : (standard : Tools (StateM σ)).Behaves words s where
  parse _ hparse := Request.ofWords_error hparse
  scan request path hparse hcsv := Sources.scan_ne_crashed (h request path hparse hcsv) s
  generator := Generator.keepsRange_standard

end Standard

namespace Command

variable {σ : Type} [Host (StateM σ)] {tools : Tools (StateM σ)}

section Loading

/-- Why columns that were read make no knapsack on a host. -/
inductive Oversized (columns : ItemColumns) (capacity? : Option ℤ) (s : σ) : Crash → Prop
  | room (h : Full (3 * columns.weights.length) s) : Oversized columns capacity? s .outOfMemory
  | heavy (hroom : ¬Full (3 * columns.weights.length) s) (hcapacity : capacity? = none)
      (h : Knapsack.HeavyColumns columns) : Oversized columns capacity? s .addOverflow

/-- Why a number of items cannot be drawn on a host. -/
inductive Undrawable (g : Generator) (items seed : ℕ) (s : σ) : Crash → Prop
  | long (h : maxLength < items) : Undrawable g items seed s .capacityOverflow
  | room (hitems : items ≤ maxLength) (h : Full (3 * items) s) :
      Undrawable g items seed s .outOfMemory
  | heavy (hitems : items ≤ maxLength) (hroom : ¬Full (3 * items) s)
      (h : KnapsackPlan.HeavyDraw g { items } (UInt64.ofNat seed)) :
      Undrawable g items seed s .addOverflow

/-- Why the knapsack that some options describe cannot be loaded on a host. -/
def Unloadable (tools : Tools (StateM σ)) (s : σ) (o : InstanceOptions) (cause : Crash) : Prop :=
  match o.csv? with
  | some path =>
    ∃ columns s', tools.scan path s = (.ok columns, s') ∧ Oversized columns o.capacity? s' cause
  | none => Undrawable tools.generator o.items o.seed s cause

theorem scanOutcome_eq_crashed_iff {path : String} {fault : ScanFault} {cause : Crash} :
    scanOutcome path fault = .ended (.crashed cause) ↔ fault = .crashed cause := by
  cases fault <;> simp [scanOutcome]

theorem itemOutcome_eq_crashed_iff {path : String} {fault : ItemFault} {cause : Crash} :
    itemOutcome path fault = .ended (.crashed cause) ↔ fault = .crash cause := by
  cases fault <;> simp [itemOutcome]

theorem crashes_ofColumns_iff {path : String} {columns : ItemColumns} {capacity? : Option ℤ} {s : σ}
    {cause : Crash} :
    Crashes (do
        hold (3 * columns.weights.length)
        orEnd (itemOutcome path) (Knapsack.ofColumns columns capacity?)) s cause ↔
      Oversized columns capacity? s cause := by
  rw [crashes_hold_bind, crashes_orEnd]
  simp only [itemOutcome_eq_crashed_iff, exists_eq_right, Knapsack.ofColumns_crash_iff]
  constructor
  · rintro (⟨rfl, hfull⟩ | ⟨hroom, hcapacity, rfl, hheavy⟩)
    · exact .room hfull
    · exact .heavy hroom hcapacity hheavy
  · intro h
    cases h with
    | room hfull => exact Or.inl ⟨rfl, hfull⟩
    | heavy hroom hcapacity hheavy => exact Or.inr ⟨hroom, hcapacity, rfl, hheavy⟩

theorem crashes_drawn_iff {g : Generator} (hg : g.KeepsRange) {items seed : ℕ} {s : σ}
    {cause : Crash} :
    Crashes (drawn outcomeOf g { items } seed) s cause ↔ Undrawable g items seed s cause := by
  have hrandom : ∀ s : σ, Crashes (orEnd outcomeOf
        (KnapsackPlan.randomBy g { items } (UInt64.ofNat seed))) s cause ↔
      (cause = .capacityOverflow ∧ maxLength < items) ∨
        (cause = .addOverflow ∧ items ≤ maxLength ∧
          KnapsackPlan.HeavyDraw g { items } (UInt64.ofNat seed)) := by
    intro s
    rw [crashes_orEnd]
    simp only [outcomeOf_eq_crashed_iff, exists_eq_right]
    exact KnapsackPlan.randomBy_crash_iff (KnapsackPlan.ranged_standard items) hg
  rw [drawn]
  by_cases hitems : items ≤ maxLength
  · rw [if_pos hitems, crashes_hold_bind, hrandom]
    constructor
    · rintro (⟨rfl, hfull⟩ | ⟨hroom, ⟨-, hlong⟩ | ⟨rfl, -, hheavy⟩⟩)
      · exact .room hitems hfull
      · exact absurd hitems (not_le.2 hlong)
      · exact .heavy hitems hroom hheavy
    · intro h
      cases h with
      | long hlong => exact absurd hitems (not_le.2 hlong)
      | room _ hfull => exact Or.inl ⟨rfl, hfull⟩
      | heavy _ hroom hheavy => exact Or.inr ⟨hroom, Or.inr ⟨rfl, hitems, hheavy⟩⟩
  · rw [if_neg hitems]
    refine (hrandom s).trans ⟨?_, fun h => ?_⟩
    · rintro (⟨rfl, hlong⟩ | ⟨-, hle, -⟩)
      · exact .long hlong
      · exact absurd hle hitems
    · cases h with
      | long hlong => exact Or.inl ⟨rfl, hlong⟩
      | room hle => exact absurd hle hitems
      | heavy hle => exact absurd hle hitems

theorem crashes_load_iff (hg : tools.generator.KeepsRange) {o : InstanceOptions} {s : σ}
    (hscan : ∀ path, o.csv? = some path → ∀ cause, (tools.scan path s).1 ≠ .error (.crashed cause))
    {cause : Crash} : Crashes (load tools o) s cause ↔ Unloadable tools s o cause := by
  rw [load, Unloadable]
  cases hcsv : o.csv? with
  | none => exact crashes_drawn_iff hg
  | some path =>
      have hread := hscan path hcsv
      dsimp only
      rw [crashes_ask_bind]
      generalize tools.scan path s = ended at hread
      rcases ended with ⟨fault | columns, s'⟩
      · -- A table that is not read is refused.
        refine iff_of_false (fun h => ?_) (by rintro ⟨columns, s'', ⟨⟩, -⟩)
        have hfault : scanOutcome path fault = .ended (.crashed cause) := Except.error.inj h
        exact hread cause (congrArg Except.error (scanOutcome_eq_crashed_iff.1 hfault))
      · refine crashes_ofColumns_iff.trans ⟨fun h => ⟨columns, s', rfl, h⟩, ?_⟩
        rintro ⟨columns', s'', hends, h⟩
        cases hends
        exact h

theorem settles_load (tools : Tools (StateM σ)) (o : InstanceOptions) :
    Stops (· ≠ .unfinished) (load tools o) := by
  rw [load]
  split
  next path _ =>
    refine (stops_ask _).bind fun result => ?_
    refine (stops_orEnd fun fault _ => ?_).bind fun columns => ?_
    · cases fault <;> nofun
    · refine (settles_hold _).bind fun _ => stops_orEnd fun fault _ => ?_
      cases fault <;> nofun
  next =>
    have hdrawn : Stops (σ := σ) (· ≠ .unfinished) (orEnd outcomeOf
        (KnapsackPlan.randomBy tools.generator { items := o.items } (UInt64.ofNat o.seed))) := by
      refine stops_orEnd fun f hf => outcomeOf_ne_unfinished ?_
      rintro rfl
      exact KnapsackPlan.randomBy_ne_outOfFuel _ _ _ hf
    rw [drawn]
    split
    · exact (settles_hold _).bind fun _ => hdrawn
    · exact hdrawn

/-- Why the program that some options describe cannot be made on a host. -/
inductive Unprepared (tools : Tools (StateM σ)) (s : σ) (o : InstanceOptions) : Crash → Prop
  | source {cause : Crash} (h : Unloadable tools s o cause) : Unprepared tools s o cause
  | room {k : Knapsack} {s' : σ} (hload : perform (load tools o) s = (.ok k, s'))
      (h : Full (3 * k.items) s') : Unprepared tools s o .outOfMemory

theorem crashes_program_iff {fault : Fault → String} {k : Knapsack} {s : σ} {cause : Crash} :
    Crashes (program fault k) s cause ↔ cause = .outOfMemory ∧ Full (3 * k.items) s := by
  rw [program, crashes_hold_bind, crashes_orEnd]
  simp

theorem crashes_prepare_iff (hg : tools.generator.KeepsRange) {o : InstanceOptions} {s : σ}
    (hscan : ∀ path, o.csv? = some path → ∀ cause, (tools.scan path s).1 ≠ .error (.crashed cause))
    {cause : Crash} : Crashes (prepare tools o) s cause ↔ Unprepared tools s o cause := by
  have hprogram : ∀ (k : Knapsack) (s : σ), Crashes (do return (k, ← program Fault.message k)) s cause ↔
      cause = .outOfMemory ∧ Full (3 * k.items) s := by
    intro k s
    rw [crashes_bind, crashes_program_iff]
    exact or_iff_left (by rintro ⟨p, s', -, ⟨⟩⟩)
  rw [prepare, crashes_bind, crashes_load_iff hg hscan]
  simp only [hprogram]
  constructor
  · rintro (h | ⟨k, s', hload, rfl, hfull⟩)
    · exact .source h
    · exact .room hload hfull
  · intro h
    cases h with
    | source h => exact Or.inl h
    | room hload hfull => exact Or.inr ⟨_, _, hload, rfl, hfull⟩

theorem settles_prepare (tools : Tools (StateM σ)) (o : InstanceOptions) :
    Stops (· ≠ .unfinished) (prepare tools o) := by
  refine (settles_load tools o).bind fun k => Stops.bind ?_ fun p => stops_pure _
  exact (settles_hold _).bind fun _ => stops_orEnd fun _ _ => nofun

end Loading

section Publishing

/-- The record of a result is written or refused. -/
theorem stops_writeRecord (result : String) (p : RunParameters) (c : Conclusion Float) :
    Stops Orderly (writeRecord result p c : Step (StateM σ) Unit) := by
  have hwrite : Stops (σ := σ) Orderly (do
      let record := Provenance.record (← ask revision) result p c
      orEnd (fun _ => .ended (.refused s!"writing {Provenance.pathOf result}"))
        (← ask (Host.write (Provenance.pathOf result) (record.render 0)))) := by
    refine (stops_ask _).bind fun revision => (stops_ask _).bind fun written => ?_
    exact stops_orEnd fun _ _ => orderly_refused _
  rw [writeRecord]
  dsimp only
  split
  · refine (stops_ask _).bind fun created => Stops.bind ?_ fun _ => hwrite
    exact stops_orEnd fun _ _ => orderly_refused _
  · exact hwrite

/-- What follows the print of a conclusion. -/
theorem publish_eq (o : SolveOptions) (cfg : Config Float) (k : Knapsack) (c : Conclusion Float) :
    ∃ record : Bool → Step (StateM σ) Unit, (∀ persisted, Stops Orderly (record persisted)) ∧
      publish o cfg k c =
        ask (persist cfg c) >>= fun persisted => printAll (resultLines c) >>= fun _ =>
          record persisted := by
  refine ⟨_, fun persisted => ?_, rfl⟩
  split
  · split
    · exact stops_writeRecord _ _ c
    · exact stops_pure _
  · exact stops_pure _

/-- A conclusion is not published exactly if a line of it is not printed. -/
theorem crashes_publish_iff {o : SolveOptions} {cfg : Config Float} {k : Knapsack}
    {c : Conclusion Float} {s : σ} {cause : Crash} :
    Crashes (publish o cfg k c) s cause ↔
      ∃ fault, cause = .unprinted fault ∧
        Unprinted (resultLines c) ((persist cfg c : StateM σ Bool) s).2 fault := by
  obtain ⟨record, hrecord, heq⟩ := publish_eq (σ := σ) o cfg k c
  rw [heq, crashes_ask_bind, crashes_bind, crashes_printAll_iff]
  refine or_iff_left ?_
  rintro ⟨_, s', -, hcrash⟩
  exact (hrecord _).not_crashes s' cause hcrash

theorem settles_publish (o : SolveOptions) (cfg : Config Float) (k : Knapsack)
    (c : Conclusion Float) : Stops (σ := σ) (· ≠ .unfinished) (publish o cfg k c) := by
  obtain ⟨record, hrecord, heq⟩ := publish_eq (σ := σ) o cfg k c
  rw [heq]
  refine (stops_ask _).bind fun persisted => (settles_printAll _).bind fun _ => ?_
  refine (hrecord persisted).mono fun o ho => ?_
  obtain ⟨exit, rfl, -⟩ := ho
  nofun

theorem crashes_reference_iff {p : Program Float} {s : σ} {cause : Crash} :
    Crashes (reference p) s cause ↔
      cause = .outOfMemory ∧ Full (2 * p.feasiblePoints.length) s := by
  rw [reference, crashes_hold_bind]
  exact or_iff_left fun h => by cases h.2

theorem perform_reference_ok_iff {p : Program Float} {s s' : σ} {points : List (Point Float)} :
    perform (reference p) s = (.ok points, s') ↔
      ¬Full (2 * p.feasiblePoints.length) s ∧ p.paretoPoints = points ∧
        reserved (2 * p.feasiblePoints.length) s = s' := by
  rw [reference, perform_bind, perform_hold, Full]
  cases ((Host.reserve (2 * p.feasiblePoints.length) : StateM σ Bool) s).1 with
  | true => simp [perform_pure]
  | false => simp

theorem crashes_verify_iff {p : Program Float} {c : Conclusion Float} {s : σ} {cause : Crash} :
    Crashes (verify p c) s cause ↔ cause = .outOfMemory ∧ Full (2 * p.feasiblePoints.length) s := by
  rw [verify, crashes_bind, crashes_reference_iff]
  refine or_iff_left ?_
  rintro ⟨expected, s', -, hcrash⟩
  revert hcrash
  split <;> nofun

theorem settles_verify (p : Program Float) (c : Conclusion Float) :
    Stops (σ := σ) (· ≠ .unfinished) (verify p c) := by
  refine ((settles_hold _).bind fun _ => stops_pure _).bind fun expected => ?_
  split
  · exact stops_throw nofun
  · exact stops_pure _

end Publishing

section Requests

/-- Why a frontier is not computed on a host. Each cause comes with the steps before it. -/
inductive Unsolved (tools : Tools (StateM σ)) (s : σ) (o : SolveOptions) : Crash → Prop
  | limit (h : TooLong o.timeLimit) : Unsolved tools s o .durationOverflow
  | source {limit : Duration} {cause : Crash} (hlimit : timeLimit o.timeLimit = .ok limit)
      (h : Unprepared tools s o.source cause) : Unsolved tools s o cause
  | run {limit : Duration} {k : Knapsack} {p : Program Float} {s' : σ} {cause : Crash}
      (hlimit : timeLimit o.timeLimit = .ok limit)
      (hprepare : perform (prepare tools o.source) s = (.ok (k, p), s'))
      (h : Unrun (config o limit) p s' cause) : Unsolved tools s o cause
  | print {limit : Duration} {k : Knapsack} {p : Program Float} {c : Conclusion Float} {s₁ s₂ : σ}
      {fault : FileFault} (hlimit : timeLimit o.timeLimit = .ok limit)
      (hprepare : perform (prepare tools o.source) s = (.ok (k, p), s₁))
      (hrun : perform (Command.run outcomeOf (config o limit) p) s₁ = (.ok c, s₂))
      (h : Unprinted (resultLines c) ((persist (config o limit) c : StateM σ Bool) s₂).2 fault) :
      Unsolved tools s o (.unprinted fault)
  | reference {limit : Duration} {k : Knapsack} {p : Program Float} {c : Conclusion Float}
      {s₁ s₂ s₃ : σ} (hlimit : timeLimit o.timeLimit = .ok limit)
      (hprepare : perform (prepare tools o.source) s = (.ok (k, p), s₁))
      (hrun : perform (Command.run outcomeOf (config o limit) p) s₁ = (.ok c, s₂))
      (hpublish : perform (publish o (config o limit) k c) s₂ = (.ok (), s₃))
      (hverify : o.verify = true) (h : Full (2 * p.feasiblePoints.length) s₃) :
      Unsolved tools s o .outOfMemory

/-- Why a reference answer is not printed on a host. -/
inductive Unlisted (tools : Tools (StateM σ)) (s : σ) (o : InstanceOptions) : Crash → Prop
  | source {cause : Crash} (h : Unprepared tools s o cause) : Unlisted tools s o cause
  | reference {k : Knapsack} {p : Program Float} {s' : σ}
      (hprepare : perform (prepare tools o) s = (.ok (k, p), s'))
      (h : Full (2 * p.feasiblePoints.length) s') : Unlisted tools s o .outOfMemory
  | print {k : Knapsack} {p : Program Float} {s' : σ} {fault : FileFault}
      (hprepare : perform (prepare tools o) s = (.ok (k, p), s'))
      (hroom : ¬Full (2 * p.feasiblePoints.length) s')
      (h : Unprinted (p.paretoPoints.map pointLine)
        (reserved (2 * p.feasiblePoints.length) s') fault) :
      Unlisted tools s o (.unprinted fault)

/-- Why a request is not met on a host. -/
def Overload (tools : Tools (StateM σ)) (s : σ) : Request → Crash → Prop
  | .solve o => Unsolved tools s o
  | .brute o => Unlisted tools s o

/-- The last steps of a command that computes a frontier crash for want of room only. -/
theorem finish_verify_iff {p : Program Float} {c : Conclusion Float} {exit : Exit}
    {cause : Crash} (hexit : exit ≠ .crashed cause) (verifies : Bool) (s : σ) :
    (finish (m := StateM σ) (if verifies then verify p c >>= fun _ => pure exit else pure exit)
        s).1 = .ended (.crashed cause) ↔
      verifies = true ∧ cause = .outOfMemory ∧ Full (2 * p.feasiblePoints.length) s := by
  have hpure : ∀ s, (finish (m := StateM σ) (pure exit) s).1 ≠ .ended (.crashed cause) :=
    fun s h => hexit (Outcome.ended.inj h)
  cases verifies with
  | false => exact iff_of_false (hpure s) nofun
  | true =>
      rw [if_pos rfl, finish_bind_iff, crashes_verify_iff]
      simp [hpure]

theorem finish_solve_iff (hg : tools.generator.KeepsRange) {o : SolveOptions} {s : σ}
    (hscan : ∀ path, o.source.csv? = some path →
      ∀ cause, (tools.scan path s).1 ≠ .error (.crashed cause)) {cause : Crash} :
    (finish (solve tools o) s).1 = .ended (.crashed cause) ↔ Unsolved tools s o cause := by
  have hexit : ∀ c : Conclusion Float,
      (if c.status.isPartial then Exit.incomplete else .success) ≠ .crashed cause := by
    intro c
    split <;> nofun
  have hseconds : Crashes (orEnd (m := StateM σ) .ended (timeLimit o.timeLimit)) s cause ↔
      cause = .durationOverflow ∧ TooLong o.timeLimit := by
    rw [crashes_orEnd]
    simp only [Outcome.ended.injEq, exists_eq_right, timeLimit_crashed_iff]
  rw [solve, finish_bind_iff, hseconds]
  simp only [finish_bind_iff, crashes_run_iff, crashes_publish_iff, finish_verify_iff (hexit _),
    perform_orEnd_ok_iff, Prod.exists]
  constructor
  · rintro (⟨rfl, hlong⟩ | ⟨limit, s', ⟨hlimit, rfl⟩, h⟩)
    · exact .limit hlong
    rcases h with h | ⟨k, p, s₁, hprepare, h⟩
    · exact .source hlimit ((crashes_prepare_iff hg hscan).1 h)
    rcases h with h | ⟨c, s₂, hrun, h⟩
    · exact .run hlimit hprepare h
    rcases h with ⟨fault, rfl, h⟩ | ⟨_, s₃, hpublish, hverify, rfl, h⟩
    · exact .print hlimit hprepare hrun h
    · exact .reference hlimit hprepare hrun hpublish hverify h
  · intro h
    cases h with
    | limit hlong => exact Or.inl ⟨rfl, hlong⟩
    | source hlimit h =>
        exact Or.inr ⟨_, s, ⟨hlimit, rfl⟩, Or.inl ((crashes_prepare_iff hg hscan).2 h)⟩
    | run hlimit hprepare h =>
        exact Or.inr ⟨_, s, ⟨hlimit, rfl⟩, Or.inr ⟨_, _, _, hprepare, Or.inl h⟩⟩
    | print hlimit hprepare hrun h =>
        exact Or.inr ⟨_, s, ⟨hlimit, rfl⟩, Or.inr ⟨_, _, _, hprepare, Or.inr
          ⟨_, _, hrun, Or.inl ⟨_, rfl, h⟩⟩⟩⟩
    | reference hlimit hprepare hrun hpublish hverify h =>
        exact Or.inr ⟨_, s, ⟨hlimit, rfl⟩, Or.inr ⟨_, _, _, hprepare, Or.inr
          ⟨_, _, hrun, Or.inr ⟨_, _, hpublish, hverify, rfl, h⟩⟩⟩⟩

theorem settles_solve (tools : Tools (StateM σ)) (o : SolveOptions) :
    Stops (· ≠ .unfinished) (solve tools o) := by
  refine (stops_orEnd fun _ _ => nofun).bind fun limit => (settles_prepare tools _).bind ?_
  rintro ⟨k, p⟩
  refine (settles_run _ p).bind fun c => (settles_publish o _ k c).bind fun _ => ?_
  cases o.verify with
  | true => exact (settles_verify p c).bind fun _ => stops_pure _
  | false => exact stops_pure _

theorem finish_brute_iff (hg : tools.generator.KeepsRange) {o : InstanceOptions} {s : σ}
    (hscan : ∀ path, o.csv? = some path → ∀ cause, (tools.scan path s).1 ≠ .error (.crashed cause))
    {cause : Crash} :
    (finish (brute tools o) s).1 = .ended (.crashed cause) ↔ Unlisted tools s o cause := by
  rw [brute, finish_bind_iff, crashes_prepare_iff hg hscan]
  simp only [finish_bind_iff, crashes_reference_iff, perform_reference_ok_iff, crashes_printAll_iff,
    finish_pure, Prod.exists]
  constructor
  · rintro (h | ⟨k, p, s', hprepare, h⟩)
    · exact .source h
    rcases h with ⟨rfl, hfull⟩ | ⟨points, s'', ⟨hroom, rfl, rfl⟩, ⟨fault, rfl, h⟩ | ⟨_, _, -, ⟨⟩⟩⟩
    · exact .reference hprepare hfull
    · exact .print hprepare hroom h
  · intro h
    cases h with
    | source h => exact Or.inl h
    | reference hprepare hfull => exact Or.inr ⟨_, _, _, hprepare, Or.inl ⟨rfl, hfull⟩⟩
    | print hprepare hroom h =>
        exact Or.inr ⟨_, _, _, hprepare, Or.inr ⟨_, _, ⟨hroom, rfl, rfl⟩, Or.inl ⟨_, rfl, h⟩⟩⟩

theorem settles_brute (tools : Tools (StateM σ)) (o : InstanceOptions) :
    Stops (· ≠ .unfinished) (brute tools o) := by
  refine (settles_prepare tools o).bind ?_
  rintro ⟨k, p⟩
  refine ((settles_hold _).bind fun _ => stops_pure _).bind fun points => ?_
  exact (settles_printAll _).bind fun _ => stops_pure _

/-- A request that was read comes to an end, by a crash exactly if it is an overload. -/
theorem outcome_of_parse_eq {words : List String} {s : σ} (h : tools.Behaves words s)
    {request : Request} (hparse : tools.parse words = .ok request) :
    (outcome tools words s).1 ≠ .unfinished ∧
      ∀ cause, (outcome tools words s).1 = .ended (.crashed cause) ↔
        Overload tools s request cause := by
  rw [outcome, hparse]
  cases request with
  | solve o =>
      exact ⟨(settles_solve tools o).finish_ne s,
        fun _ => finish_solve_iff h.generator fun path => h.scan _ path hparse⟩
  | brute o =>
      exact ⟨(settles_brute tools o).finish_ne s,
        fun _ => finish_brute_iff h.generator fun path => h.scan _ path hparse⟩

example : (outcome (m := StateM Sandbox) .standard ["brute", "--items", "100000000000000000"] {}).1 =
    .ended (.crashed .outOfMemory) := by decide +kernel

end Requests

end Command

end Biobjective
