import Biobjective.Method

/-!
# Provenance

A record of where a result file comes from: the revision of the code, the
parameters and a summary of the run. It stands beside the result file and is
written as an indented tree of fields.
-/

namespace Biobjective

inductive FieldTree where
  | null
  | text (s : String)
  | number (numeral : String)
  | list (items : List FieldTree)
  | fields (items : List (String × FieldTree))

namespace FieldTree

def hexDigit (n : Nat) : Char :=
  if n < 10 then Char.ofNat ('0'.toNat + n) else Char.ofNat ('a'.toNat + (n - 10))

/-- Writes a character of a text. Quotes, backslashes and control characters
are escaped. -/
def escaped (c : Char) : List Char :=
  if c = '"' then ['\\', '"']
  else if c = '\\' then ['\\', '\\']
  else if c = '\n' then ['\\', 'n']
  else if c = '\r' then ['\\', 'r']
  else if c = '\t' then ['\\', 't']
  else if c = '\x08' then ['\\', 'b']
  else if c = '\x0c' then ['\\', 'f']
  else if c.toNat < 32 then
    ['\\', 'u', '0', '0', hexDigit (c.toNat / 16), hexDigit (c.toNat % 16)]
  else [c]

def quote (s : String) : String := "\"" ++ String.ofList (s.toList.flatMap escaped) ++ "\""

/-- The start of a line at a depth. -/
def newLine (depth : Nat) : String := "\n" ++ String.ofList (List.replicate (2 * depth) ' ')

mutual
def render (depth : Nat) : FieldTree → String
  | .null => "null"
  | .text s => quote s
  | .number numeral => numeral
  | .list [] => "[]"
  | .list (item :: items) =>
    "[" ++ newLine (depth + 1) ++ render (depth + 1) item ++ renderItems (depth + 1) items ++
      newLine depth ++ "]"
  | .fields [] => "\x7b\x7d"
  | .fields ((name, item) :: items) =>
    "\x7b" ++ newLine (depth + 1) ++ quote name ++ ": " ++ render (depth + 1) item ++
      renderFields (depth + 1) items ++ newLine depth ++ "\x7d"

/-- Writes the further items of a list. -/
def renderItems (depth : Nat) : List FieldTree → String
  | [] => ""
  | item :: items => "," ++ newLine depth ++ render depth item ++ renderItems depth items

/-- Writes the further fields. -/
def renderFields (depth : Nat) : List (String × FieldTree) → String
  | [] => ""
  | (name, item) :: items =>
    "," ++ newLine depth ++ quote name ++ ": " ++ render depth item ++ renderFields depth items
end

end FieldTree

/-- What a provenance record tells about the parameters. -/
structure RunParameters where
  csv? : Option String
  items : Nat
  seed : Nat
  capacity : Int
  strategy : Strategy
  queueOrder : QueueOrder
  timeLimit : Duration

namespace Provenance

/-- Seconds in a record have a point or an exponent; from 17 digits before the
point on, and from five zeros after it on, they have an exponent. Of two nearest
ones the even one is taken. -/
def secondsStyle : Decimal.Style := ⟨.even, true, some (-4, 16)⟩

def seconds (d : Duration) : FieldTree := .number (Decimal.ofFloat secondsStyle d.seconds)

def natural (n : Nat) : FieldTree := .number (toString n)

def version : String := "0.1.0"

/-- The source file that asks for a record. -/
def sourceFile : String := "Biobjective/Command.lean"

/-- The line of the source file that asks for a record. -/
def sourceLine : Nat := 182

def parameters (p : RunParameters) : FieldTree :=
  .fields [
    ("capacity", .number (toString p.capacity)),
    ("csv", match p.csv? with
      | none => .null
      | some path => .text path),
    ("items", natural p.items),
    ("queue_order", .text p.queueOrder.name),
    ("seed", natural p.seed),
    ("time_limit_secs", seconds p.timeLimit),
    ("variant", .text p.strategy.name)]

def summary {K : Type} (c : Conclusion K) : FieldTree :=
  .fields [
    ("branching_nodes", natural c.statistics.branchingNodes),
    ("oracle_calls", natural c.statistics.oracleCalls),
    ("phase_one_solutions", natural c.statistics.phaseOneSolutions),
    ("phase_two_solutions", natural c.statistics.phaseTwoSolutions),
    ("status", .text c.status.name),
    ("total_secs", seconds c.statistics.totalTime),
    ("total_solutions", natural c.statistics.totalSolutions),
    ("variables", natural c.statistics.dimension)]

def record {K : Type} (revision result : String) (p : RunParameters) (c : Conclusion K) :
    FieldTree :=
  .fields [
    ("callsite", .fields [("file", .text sourceFile), ("line", natural sourceLine)]),
    ("code_rev", .text revision),
    ("outputs", .list [.text result]),
    ("params", parameters p),
    ("run", summary c),
    ("twophase_version", .text version)]

/-- The record of a result file stands beside it. -/
def pathOf (result : String) : String :=
  Path.withName result (Path.stem result ++ ".provenance.json")

end Provenance

end Biobjective
