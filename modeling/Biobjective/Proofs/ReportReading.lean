import Biobjective.Decimal.Read
import Biobjective.Report
import Mathlib.Data.Nat.Notation
import Mathlib.Logic.Function.Basic

/-!
# Reports can be read back

Records stand in a file one after the other, and nothing says how many solutions a record has.
Still a reader can tell where each one ends, since only the names of the statistics start with
the name of the first one. `Report.parse?` is such a reader. It gives back what was written,
whatever the records were: this is `Report.parse?_persistAll`, together with the fact that
appending keeps what a file held before.
-/

namespace Biobjective

namespace Files

variable {t t' : Files} {path : String}

/-- The text of the file at a path, a missing file being empty. Directories and devices have
none. -/
def contents? (t : Files) (path : String) : Option String :=
  match t.lookup path with
  | .ok (.file text) => some text
  | .error .notFound => some ""
  | _ => none

/-- Above the working directory there are directories only. -/
theorem all_eq_false_of_ne_directory {place : List String} (h : t.entry? place ≠ some .directory) :
    place.all (· == "..") = false := by
  rw [← Bool.not_eq_true]
  intro hall
  exact h (if_pos hall)

theorem find?_set (t : Files) (place other : List String) (e : Entry) :
    ((t.set place e).entries.find? (·.1 == other)).map (·.2) =
      if other = place then some e else (t.entries.find? (·.1 == other)).map (·.2) := by
  rw [set]
  split
  next hany =>
    -- replacing keeps the places of the entries, so that the same one is found
    have hkey : ((fun entry : List String × Entry => entry.1 == other) ∘
        fun entry => if entry.1 == place then (place, e) else entry) =
          fun entry => entry.1 == other := by
      funext entry
      by_cases heq : entry.1 = place <;> simp [heq]
    rw [List.find?_map, hkey, Option.map_map]
    cases hfind : t.entries.find? (·.1 == other) with
    | none =>
        have hne : other ≠ place := by
          rintro rfl
          exact absurd (List.find?_isSome.2 (List.any_eq_true.1 hany)) (by simp [hfind])
        rw [if_neg hne]
        rfl
    | some entry =>
        have hother : entry.1 = other := by simpa using List.find?_some hfind
        by_cases heq : other = place <;> simp [hother, heq]
  next hany =>
    rw [List.find?_append]
    by_cases heq : other = place
    · subst heq
      have hnone : t.entries.find? (·.1 == other) = none := by
        rw [← Option.not_isSome_iff_eq_none, List.find?_isSome, ← List.any_eq_true]
        exact hany
      simp [hnone]
    · have hlast : List.find? (·.1 == other) [(place, e)] = none := by
        simpa using Ne.symm heq
      rw [hlast, Option.or_none, if_neg heq]

theorem entry?_set_self (t : Files) {place : List String} (h : place.all (· == "..") = false)
    (e : Entry) : Files.entry? (t.set place e) place = some e := by
  unfold entry?
  rw [if_neg (by simp [h]), find?_set, if_pos rfl]

theorem entry?_set_of_ne (t : Files) {place other : List String} (h : other ≠ place) (e : Entry) :
    Files.entry? (t.set place e) other = t.entry? other := by
  unfold entry?
  rw [find?_set, if_neg h]

theorem obstacle?_eq_none_iff : t.obstacle? path = none ↔ Path.fault? path = none ∧
    ∀ step ∈ ("." :: Path.words path).zip (Path.placesThrough (Path.start path) (Path.words path)),
      t.barrier? step.1 step.2 = none := by
  rw [obstacle?]
  cases Path.fault? path with
  | none => simp only [List.findSome?_eq_none_iff, true_and]
  | some fault => simp

theorem barrier?_eq_none_iff {word : String} {place : List String} :
    t.barrier? word place = none ↔
      word.utf8ByteSize ≤ Path.maxWordBytes ∧ t.entry? place = some .directory := by
  rw [barrier?]
  split
  next hlong => exact iff_of_false nofun fun h => absurd hlong (Nat.not_lt.2 h.1)
  next hlong =>
    rw [and_iff_right (Nat.not_lt.1 hlong)]
    split <;> simp_all

/-- A new entry at the end of a path does not stand in the way, if no directory was there. -/
theorem obstacle?_set (h : t.obstacle? path = none)
    (htarget : t.entry? (Path.target path) ≠ some .directory) (e : Entry) :
    (t.set (Path.target path) e).obstacle? path = none := by
  rw [obstacle?_eq_none_iff] at h ⊢
  refine ⟨h.1, fun step hstep => ?_⟩
  obtain ⟨hword, hentry⟩ := barrier?_eq_none_iff.1 (h.2 step hstep)
  have hne : step.2 ≠ Path.target path := fun heq => htarget (heq ▸ hentry)
  exact barrier?_eq_none_iff.2 ⟨hword, (t.entry?_set_of_ne hne e).trans hentry⟩

/-- What a change of a text can do. Devices take the text and stay as they are. -/
theorem alter_cases {f : String → String} (h : t.alter path f = .ok t') :
    t.obstacle? path = none ∧ path.endsWith "/" = false ∧ isLastTooLong path = false ∧
      (t' = t.set (Path.target path) (.file (f "")) ∧ t.entry? (Path.target path) = none ∨
        (∃ text, t.entry? (Path.target path) = some (.file text) ∧
          t' = t.set (Path.target path) (.file (f text))) ∨
        ∃ e, t.entry? (Path.target path) = some e ∧ (e = .fullDevice ∨ e = .nullDevice) ∧
          t' = t) := by
  rw [alter] at h
  split at h
  next => cases h
  next hobstacle =>
    by_cases hslash : path.endsWith "/" = true
    · rw [if_pos hslash] at h
      cases h
    rw [if_neg hslash] at h
    by_cases hlong : isLastTooLong path = true
    · rw [if_pos hlong] at h
      cases h
    rw [if_neg hlong] at h
    refine ⟨hobstacle, eq_false_of_ne_true hslash, eq_false_of_ne_true hlong, ?_⟩
    cases hentry : t.entry? (Path.target path) with
    | none => exact .inl ⟨by simpa [hentry] using h.symm, rfl⟩
    | some e =>
        cases e with
        | file text => exact .inr (.inl ⟨text, rfl, by simpa [hentry] using h.symm⟩)
        | directory => simp [hentry] at h
        | fullDevice =>
            simp only [hentry] at h
            split at h
            · exact .inr (.inr ⟨_, rfl, .inl rfl, by simpa using h.symm⟩)
            · cases h
        | nullDevice => exact .inr (.inr ⟨_, rfl, .inr rfl, by simpa [hentry] using h.symm⟩)

/-- Appending keeps what a file held before. -/
theorem lookup_of_append {old text : String} (hold : t.contents? path = some old)
    (h : t.append path text = .ok t') : t'.lookup path = .ok (.file (old ++ text)) := by
  obtain ⟨hobstacle, hslash, hlong, hcases⟩ := alter_cases h
  rw [contents?, lookup, hobstacle] at hold
  simp only [hlong, hslash, Bool.false_eq_true, if_false] at hold
  obtain ⟨hentry, rfl⟩ : t.entry? (Path.target path) ≠ some .directory ∧
      t' = t.set (Path.target path) (.file (old ++ text)) := by
    rcases hcases with ⟨rfl, hentry⟩ | ⟨text', hentry, rfl⟩ | ⟨e, hentry, rfl | rfl, -⟩
    all_goals simp_all
  have hbelow := all_eq_false_of_ne_directory hentry
  rw [lookup, obstacle?_set hobstacle hentry, entry?_set_self t hbelow]
  simp [hlong, hslash]

/-- To a file that is there one can append. -/
theorem exists_append {old : String} (h : t.lookup path = .ok (.file old)) (text : String) :
    ∃ t', t.append path text = .ok t' := by
  rw [lookup] at h
  split at h
  next => cases h
  next hobstacle =>
    split at h
    next => cases h
    next hlong =>
      by_cases hslash : path.endsWith "/" = true
      · split at h <;> simp [hslash] at h
      · have hentry : t.entry? (Path.target path) = some (.file old) := by
          split at h <;> simp_all
        refine ⟨t.set (Path.target path) (.file (old ++ text)), ?_⟩
        rw [append, alter, hobstacle]
        simp [hslash, hlong, hentry]

end Files

namespace Report

variable {K : Type}

/-- A record as it stands in a report. Times are kept as they are written. -/
structure Record (K : Type) where
  /-- The number of decision variables. -/
  dimension : ℕ
  /-- The time of both phases. -/
  totalTime : String
  /-- The time of the first phase. -/
  phaseOneTime : String
  /-- The time of the second phase. -/
  phaseTwoTime : String
  /-- The nodes of all solves. -/
  branchingNodes : ℕ
  /-- The number of solutions. -/
  totalSolutions : ℕ
  /-- The number of solutions after the first phase. -/
  phaseOneSolutions : ℕ
  /-- The number of solutions that are not supported. -/
  phaseTwoSolutions : ℕ
  /-- The points of the solutions with their assignments. -/
  solutions : List (Point K × List K)
deriving DecidableEq

/-- What the record of a run holds. -/
def Record.of (fmt : ReportFormat K) (s : Statistics) (f : Frontier K) : Record K :=
  { dimension := s.dimension
    totalTime := fmt.span s.totalTime
    phaseOneTime := fmt.span s.phaseOneTime
    phaseTwoTime := fmt.span s.phaseTwoTime
    branchingNodes := s.branchingNodes
    totalSolutions := s.totalSolutions
    phaseOneSolutions := s.phaseOneSolutions
    phaseTwoSolutions := s.phaseTwoSolutions
    solutions := f.all.map fun solution => (solution.toPoint, solution.decisions) }

/-! ### The reader -/

/-- The fields of the lines of a text. What follows the last line end is no line. -/
def rows (text : String) : List (List String) :=
  (text.toList.splitOn '\n').dropLast.map fun line => (line.splitOn '\t').map String.ofList

/-- The rows before the first row of names, and those after each row of names up to the
next one. -/
def blocks : List (List String) → List (List String) × List (List (List String))
  | [] => ([], [])
  | row :: rows =>
    if row.head? = some "NumVar" then ([], (blocks rows).1 :: (blocks rows).2)
    else (row :: (blocks rows).1, (blocks rows).2)

/-- Reads the fields of a solution. -/
def solution? (read : String → Option K) : List String → Option (Point K × List K)
  | z1 :: z2 :: decisions => do return (⟨← read z1, ← read z2⟩, ← decisions.mapM read)
  | _ => none

/-- Reads the rows of a record, without the names. -/
def record? (read : String → Option K) : List (List String) → Option (Record K)
  | [dimension, totalTime, phaseOneTime, phaseTwoTime, branchingNodes, totalSolutions,
      phaseOneSolutions, phaseTwoSolutions] :: _ :: solutions => do
    return {
      dimension := ← Decimal.natural? dimension.toList
      totalTime, phaseOneTime, phaseTwoTime
      branchingNodes := ← Decimal.natural? branchingNodes.toList
      totalSolutions := ← Decimal.natural? totalSolutions.toList
      phaseOneSolutions := ← Decimal.natural? phaseOneSolutions.toList
      phaseTwoSolutions := ← Decimal.natural? phaseTwoSolutions.toList
      solutions := ← solutions.mapM (solution? read) }
  | _ => none

/-- Reads the records of a text with a reader for scalars. -/
def parse? (read : String → Option K) (text : String) : Option (List (Record K)) :=
  match blocks (rows text) with
  | ([], records) => records.mapM (record? read)
  | _ => none

/-! ### What is written -/

/-- The fields of a record. -/
def recordRows (fmt : ReportFormat K) (s : Statistics) (f : Frontier K) : List (List String) :=
  ["NumVar", "TotalTime", "PhaseOneTime", "PhaseTwoTime", "BranchingNodes", "NumberOfSolutions",
      "PhaseOneSol", "PhaseTwoSol"] :: statisticsFields fmt s :: [marker] ::
    f.all.map (solutionFields fmt)

/-- The text of rows of fields, each line ended. -/
def rowsText (rows : List (List String)) : String := String.join (rows.map (line · ++ "\n"))

theorem rowsText_append (rows rows' : List (List String)) :
    rowsText (rows ++ rows') = rowsText rows ++ rowsText rows' := by
  rw [rowsText, List.map_append, String.join_append]
  rfl

theorem text_eq_rowsText (fmt : ReportFormat K) (s : Statistics) (f : Frontier K) :
    text fmt s f = rowsText (recordRows fmt s f) := by
  have hheader : header = line ["NumVar", "TotalTime", "PhaseOneTime", "PhaseTwoTime",
      "BranchingNodes", "NumberOfSolutions", "PhaseOneSol", "PhaseTwoSol"] := by decide
  have hmarker : marker = line [marker] := by decide
  have hlines : lines fmt s f = (recordRows fmt s f).map line := by
    rw [lines, recordRows, hheader]
    simp only [List.map_cons, ← hmarker, List.map_map]
    rfl
  rw [text, hlines, List.map_map]
  rfl

/-- A field can be told from its neighbours. -/
def Separable (field : String) : Prop := '\t' ∉ field.toList ∧ '\n' ∉ field.toList

instance (field : String) : Decidable (Separable field) := inferInstanceAs (Decidable (_ ∧ _))

theorem line_cons_cons (field next : String) (fields : List String) :
    line (field :: next :: fields) = field ++ "\t" ++ line (next :: fields) :=
  String.intercalate_cons_cons

theorem newline_not_mem_line : ∀ {fields : List String}, (∀ field ∈ fields, Separable field) →
    '\n' ∉ (line fields).toList
  | [], _ => by decide
  | [field], h => by simpa [line] using (h field List.mem_cons_self).2
  | field :: next :: fields, h => by
      obtain ⟨hfield, hrest⟩ := List.forall_mem_cons.1 h
      rw [line_cons_cons]
      simp [hfield.2, newline_not_mem_line hrest]

theorem splitOn_line {fields : List String} (hne : fields ≠ [])
    (h : ∀ field ∈ fields, Separable field) :
    ((line fields).toList.splitOn '\t').map String.ofList = fields := by
  have htoList : (line fields).toList = ['\t'].intercalate (fields.map String.toList) :=
    String.toList_intercalate
  rw [htoList, List.splitOn_intercalate, List.map_map]
  · simp [Function.comp_def]
  · simpa using fun field hfield => (h field hfield).1
  · simpa using hne

/-- The rows of a text are those that it was made of. -/
theorem rows_rowsText {l : List (List String)}
    (h : ∀ row ∈ l, row ≠ [] ∧ ∀ field ∈ row, Separable field) : rows (rowsText l) = l := by
  have hsplit : (rowsText l).toList.splitOn '\n' =
      l.map (fun row => (line row).toList) ++ [[]] := by
    induction l with
    | nil => rfl
    | cons row l ih =>
        obtain ⟨⟨-, hrow⟩, hrows⟩ := List.forall_mem_cons.1 h
        have htext : (rowsText (row :: l)).toList =
            (line row).toList ++ '\n' :: (rowsText l).toList := by
          simp [rowsText]
        rw [htext, List.splitOn_append_cons_self_of_not_mem (newline_not_mem_line hrow), ih hrows]
        rfl
  rw [rows, hsplit, List.dropLast_concat, List.map_map]
  calc
    l.map _ = l.map id :=
      List.map_congr_left fun row hrow => splitOn_line (h row hrow).1 (h row hrow).2
    _ = l := List.map_id l

/-! ### What is read -/

theorem isDigit_of_mem_toString {n : ℕ} {c : Char} (h : c ∈ (toString n).toList) :
    c.isDigit = true := by
  rw [Nat.toString_eq_ofList_toDigits, String.toList_ofList] at h
  exact Nat.isDigit_of_mem_toDigits (by decide) (Nat.le_refl _) h

theorem separable_toString (n : ℕ) : Separable (toString n) :=
  ⟨fun h => absurd (isDigit_of_mem_toString h) (by decide),
    fun h => absurd (isDigit_of_mem_toString h) (by decide)⟩

theorem toString_ne_name (n : ℕ) : toString n ≠ "NumVar" := by
  intro h
  have hmem : 'N' ∈ (toString n).toList := by rw [h]; decide
  exact absurd (isDigit_of_mem_toString hmem) (by decide)

theorem natural?_toString (n : ℕ) : Decimal.natural? (toString n).toList = some n := by
  have hdigits : (toString n).toList = Nat.toDigits 10 n := by
    rw [Nat.toString_eq_ofList_toDigits, String.toList_ofList]
  have hall : (toString n).toList.all Char.isDigit = true :=
    List.all_eq_true.2 fun c => isDigit_of_mem_toString
  have hne : (toString n).toList.isEmpty = false := by
    rw [hdigits, List.isEmpty_eq_false_iff]
    exact Nat.toDigits_ne_nil
  rw [Decimal.natural?, hall, hne, hdigits]
  simpa [Nat.ofDigitChars_eq_foldl] using Nat.ofDigitChars_ten_toDigits (n := n)

theorem mapM_map_eq_some {α β γ : Type} {f : β → Option γ} {g : α → β} {h : α → γ} (l : List α)
    (hf : ∀ a ∈ l, f (g a) = some (h a)) : (l.map g).mapM f = some (l.map h) := by
  induction l with
  | nil => rfl
  | cons a l ih =>
      obtain ⟨ha, hl⟩ := List.forall_mem_cons.1 hf
      rw [List.map_cons, List.mapM_cons, ha, ih hl]
      rfl

theorem blocks_append {l : List (List String)} (h : ∀ row ∈ l, row.head? ≠ some "NumVar")
    (rows : List (List String)) :
    blocks (l ++ rows) = (l ++ (blocks rows).1, (blocks rows).2) := by
  induction l with
  | nil => rfl
  | cons row l ih =>
      obtain ⟨hrow, hl⟩ := List.forall_mem_cons.1 h
      rw [List.cons_append, blocks, if_neg hrow, ih hl]
      rfl

end Report

/-- What a reader has to know of the numbers in a report: different scalars are written
differently, numbers are separable fields, and no scalar looks like the name of the first
statistic. -/
structure ReportFormat.Legible {K : Type} (fmt : ReportFormat K) : Prop where
  scalar_injective : Function.Injective fmt.scalar
  separable_scalar : ∀ x, Report.Separable (fmt.scalar x)
  separable_span : ∀ d, Report.Separable (fmt.span d)
  scalar_ne_name : ∀ x, fmt.scalar x ≠ "NumVar"

namespace Report

variable {K : Type} {fmt : ReportFormat K} {read : String → Option K}

/-- Only the names of a record start with the name of the first statistic. -/
theorem blocks_recordRows (hfmt : fmt.Legible) (records : List (Statistics × Frontier K)) :
    blocks (records.flatMap fun r => recordRows fmt r.1 r.2) =
      ([], records.map fun r => (recordRows fmt r.1 r.2).tail) := by
  induction records with
  | nil => rfl
  | cons r records ih =>
      have hrest : ∀ row ∈ (recordRows fmt r.1 r.2).tail, row.head? ≠ some "NumVar" := by
        simp only [recordRows, List.tail_cons, List.forall_mem_cons, List.forall_mem_map]
        refine ⟨?_, by decide, fun s _ => ?_⟩
        · simpa [statisticsFields] using toString_ne_name r.1.dimension
        · simpa [solutionFields] using hfmt.scalar_ne_name s.z1
      have hblocks := blocks_append hrest (records.flatMap fun r => recordRows fmt r.1 r.2)
      rw [ih, List.append_nil] at hblocks
      rw [List.flatMap_cons, recordRows, List.cons_append, blocks, List.head?_cons, if_pos rfl]
      exact congrArg (fun b => ([], b.1 :: b.2)) hblocks

theorem solution?_solutionFields (hread : ∀ x, read (fmt.scalar x) = some x) (s : Solution K) :
    solution? read (solutionFields fmt s) = some (s.toPoint, s.decisions) := by
  have hdecisions := mapM_map_eq_some (f := read) (h := id) s.decisions fun x _ => hread x
  rw [List.map_id] at hdecisions
  simp [solution?, solutionFields, hread, hdecisions]

theorem record?_recordRows (hread : ∀ x, read (fmt.scalar x) = some x) (s : Statistics)
    (f : Frontier K) : record? read (recordRows fmt s f).tail = some (.of fmt s f) := by
  have hsolutions := mapM_map_eq_some f.all fun s _ => solution?_solutionFields hread s
  simp only [record?, recordRows, List.tail_cons, statisticsFields, natural?_toString, hsolutions]
  rfl

theorem rows_recordRows (hfmt : fmt.Legible) (records : List (Statistics × Frontier K)) :
    rows (rowsText (records.flatMap fun r => recordRows fmt r.1 r.2)) =
      records.flatMap fun r => recordRows fmt r.1 r.2 := by
  apply rows_rowsText
  simp only [List.forall_mem_flatMap]
  intro r _
  simp only [recordRows, List.forall_mem_cons, List.forall_mem_map]
  refine ⟨by decide, ⟨nofun, ?_⟩, by decide, fun s _ => ⟨nofun, ?_⟩⟩
  · simp only [statisticsFields, List.forall_mem_cons, separable_toString, hfmt.separable_span,
      true_and]
    exact nofun
  · simp [solutionFields, hfmt.separable_scalar]

theorem parse?_rowsText (hfmt : fmt.Legible) (hread : ∀ x, read (fmt.scalar x) = some x)
    (records : List (Statistics × Frontier K)) :
    parse? read (rowsText (records.flatMap fun r => recordRows fmt r.1 r.2)) =
      some (records.map fun r => .of fmt r.1 r.2) := by
  rw [parse?, rows_recordRows hfmt, blocks_recordRows hfmt]
  exact mapM_map_eq_some records fun r _ => record?_recordRows hread r.1 r.2

/-- Appends records to a file, one after the other. -/
def persistAll (fmt : ReportFormat K) (path : String) (files : Files)
    (records : List (Statistics × Frontier K)) : Except Fault Files :=
  records.foldlM (fun files r => persist fmt files path r.1 r.2) files

theorem lookup_of_persist {files files' : Files} {path old : String} {s : Statistics}
    {f : Frontier K} (hold : files.contents? path = some old)
    (h : persist fmt files path s f = .ok files') :
    files'.lookup path = .ok (.file (old ++ text fmt s f)) := by
  rw [persist] at h
  split at h
  next happend =>
    cases h
    exact Files.lookup_of_append hold happend
  next => cases h

theorem contents?_of_persistAll {files files' : Files} {path old : String}
    {records : List (Statistics × Frontier K)} (hold : files.contents? path = some old)
    (h : persistAll fmt path files records = .ok files') :
    files'.contents? path =
      some (old ++ rowsText (records.flatMap fun r => recordRows fmt r.1 r.2)) := by
  induction records generalizing files old with
  | nil =>
      cases h
      rw [hold, List.flatMap_nil, rowsText, List.map_nil, String.join_nil, String.append_empty]
  | cons r records ih =>
      rw [persistAll, List.foldlM_cons] at h
      cases hfirst : persist fmt files path r.1 r.2 with
      | error fault =>
          rw [hfirst] at h
          cases h
      | ok next =>
          rw [hfirst] at h
          have hnext : next.contents? path = some (old ++ text fmt r.1 r.2) := by
            rw [Files.contents?, lookup_of_persist hold hfirst]
          rw [ih hnext h, List.flatMap_cons, rowsText_append, text_eq_rowsText, String.append_assoc]

/-- One reader serves all legible reports: of a file that was missing or empty before records
were appended to it, it gives back these records in their order. What a file held before
is the start of what it holds after a record was appended. -/
theorem parse?_persistAll (hfmt : fmt.Legible) :
    (∃ read : String → Option K, ∀ (path : String) (files files' : Files)
      (records : List (Statistics × Frontier K)), files.contents? path = some "" →
        persistAll fmt path files records = .ok files' →
          ∃ written, files'.contents? path = some written ∧
            parse? read written = some (records.map fun r => .of fmt r.1 r.2)) ∧
    ∀ (path old : String) (files files' : Files) (s : Statistics) (f : Frontier K),
      files.contents? path = some old → persist fmt files path s f = .ok files' →
        files'.read path = .ok (old ++ text fmt s f) := by
  refine ⟨⟨Function.partialInv fmt.scalar, fun path files files' records hempty h => ?_⟩,
    fun path old files files' s f hold h => ?_⟩
  · refine ⟨_, contents?_of_persistAll hempty h, ?_⟩
    rw [String.empty_append]
    exact parse?_rowsText hfmt (Function.partialInv_left hfmt.scalar_injective) records
  · rw [Files.read, lookup_of_persist hold h]

end Report

/-- Whole numbers and whole seconds. -/
def ReportFormat.whole : ReportFormat ℕ := ⟨toString, fun d => toString d.wholeSeconds⟩

namespace Report

theorem legible_whole : ReportFormat.whole.Legible where
  scalar_injective := fun m n h => by
    have hread := congrArg (fun field : String => Decimal.natural? field.toList) h
    simpa only [ReportFormat.whole, natural?_toString, Option.some.injEq] using hread
  separable_scalar := separable_toString
  separable_span := fun d => separable_toString d.wholeSeconds
  scalar_ne_name := toString_ne_name

/-- Statistics of a run that found two solutions. -/
def twoFound : Statistics :=
  { dimension := 3
    branchingNodes := 17
    oracleCalls := 6
    phaseOneSolutions := 1
    phaseTwoSolutions := 1
    totalSolutions := 2
    phaseOneTime := .ofParts 2 0
    phaseTwoTime := .ofParts 3 0
    totalTime := .ofParts 5 0 }

/-- A solution whose assignment was kept and one whose assignment was not. -/
def twoKept : Frontier ℕ := { all := [⟨⟨1, 4⟩, true, [0, 1, 0]⟩, ⟨⟨4, 1⟩, false, []⟩], eps := 0 }

theorem words_letter : Path.words "r" = ["r"] := by
  rw [Path.words, String.splitOn, if_neg (by decide), String.splitOnAux,
    if_neg (by decide +kernel), if_neg (by decide +kernel), String.splitOnAux,
    if_pos (by decide +kernel)]
  decide +kernel

/-- A record without solutions, and then one with two. -/
theorem parse?_persistAll_twice :
    ∃ (read : String → Option ℕ) (files' : Files) (written : String),
      persistAll .whole "r" .empty [({}, { eps := 0 }), (twoFound, twoKept)] = .ok files' ∧
      files'.contents? "r" = some written ∧
      parse? read written = some [⟨0, "0", "0", "0", 0, 0, 0, 0, []⟩,
        ⟨3, "5", "2", "3", 17, 2, 1, 1, [(⟨1, 4⟩, [0, 1, 0]), (⟨4, 1⟩, [])]⟩] := by
  obtain ⟨⟨read, hread⟩, -⟩ := parse?_persistAll legible_whole
  have hobstacle : Files.empty.obstacle? "r" = none := by
    rw [Files.obstacle?, words_letter]
    decide +kernel
  have hslash : "r".endsWith "/" = false := by decide +kernel
  have hlong : Files.isLastTooLong "r" = false := by
    rw [Files.isLastTooLong, words_letter]
    decide +kernel
  have hentry : Files.empty.entry? (Path.target "r") = none := by
    rw [Path.target, words_letter]
    decide +kernel
  have hempty : Files.empty.contents? "r" = some "" := by
    rw [Files.contents?, Files.lookup, hobstacle]
    simp only [hlong, hentry]
    rfl
  obtain ⟨first, hfirst⟩ : ∃ files', persist .whole .empty "r" {} { eps := 0 } = .ok files' := by
    rw [persist, Files.append, Files.alter, hobstacle]
    simp only [hslash, hlong, hentry]
    exact ⟨_, rfl⟩
  obtain ⟨second, hsecond⟩ := Files.exists_append (lookup_of_persist hempty hfirst)
    (text .whole twoFound twoKept)
  have hall : persistAll .whole "r" .empty [({}, { eps := 0 }), (twoFound, twoKept)] =
      .ok second := by
    rw [persistAll, List.foldlM_cons, hfirst]
    change persist _ _ _ _ _ >>= _ = _
    rw [persist, hsecond]
    rfl
  obtain ⟨written, hwritten, hparse⟩ := hread "r" _ _ _ hempty hall
  exact ⟨read, second, written, hall, hwritten, hparse.trans (by decide)⟩

end Report

end Biobjective
