import Biobjective.Decimal.Read
import Biobjective.Host

/-!
# Arguments

What can be asked for on the command line. An option's value follows it as the
next word or after an equals sign; a value that starts with a dash has to
follow an equals sign. No option may be given twice, and nothing else may be
given.

A word that asks for help ends the reading. What was read before it has to make
sense, but nothing that should have followed is missed.
-/

namespace Biobjective

/-- Where the knapsack comes from: a table, perhaps with a capacity, or a number
of items and a seed. -/
structure InstanceOptions where
  csv? : Option String
  capacity? : Option Int
  items : Nat
  seed : Nat
deriving DecidableEq

structure SolveOptions where
  source : InstanceOptions
  ranking : Bool
  depthFirst : Bool
  timeLimit : Float
  progress : Bool
  out? : Option String
  verify : Bool
deriving DecidableEq

inductive Request where
  | solve (o : SolveOptions)
  | brute (o : InstanceOptions)
deriving DecidableEq

/-- The knapsack of a request. -/
def Request.source : Request → InstanceOptions
  | .solve o => o.source
  | .brute o => o

/-- The options that were given, each with its value if it takes one. -/
abbrev GivenOptions := List (String × Option String)

/-- The options that were given, and whether help was asked for after them. -/
structure ReadWords where
  given : GivenOptions
  help : Bool

namespace GivenOptions

/-- Splits a word at its first equals sign. -/
def splitWord (word : String) : String × Option String :=
  let cs := word.toList
  let name := String.ofList (cs.takeWhile (· ≠ '='))
  match cs.dropWhile (· ≠ '=') with
  | [] => (name, none)
  | _ :: value => (name, some (String.ofList value))

/-- A word can be the value of the option before it. -/
def isValue (word : String) : Bool := !word.startsWith "-" || word == "-"

def isHelp (word : String) : Bool := word == "--help" || word.startsWith "-h"

/-- Reads the words of a command line, where `valued` options take a value and
`flags` do not. -/
def read? (valued flags : List String) : List String → Option ReadWords
  | [] => some ⟨[], false⟩
  | "--" :: rest => if rest.isEmpty then some ⟨[], false⟩ else none
  | word :: rest =>
    let (name, value?) := splitWord word
    let more (option : String × Option String) (rest : Option ReadWords) : Option ReadWords :=
      rest.map fun r => { r with given := option :: r.given }
    if isHelp word then some ⟨[], true⟩
    else if flags.contains name then
      match value? with
      | some _ => none
      | none => more (name, none) (read? valued flags rest)
    else if valued.contains name then
      match value?, rest with
      | some value, rest => more (name, some value) (read? valued flags rest)
      | none, value :: rest =>
        if isValue value then more (name, some value) (read? valued flags rest) else none
      | none, [] => none
    else none

/-- No option is given twice. -/
def isDistinct : GivenOptions → Bool
  | [] => true
  | (name, _) :: rest => !rest.any (·.1 == name) && isDistinct rest

def has (o : GivenOptions) (name : String) : Bool := o.any (·.1 == name)

/-- The value of an option, read by `parse`: absent if it was not given, and a
failure if it cannot be read. -/
def value? {α : Type} (o : GivenOptions) (name : String) (parse : List Char → Option α) :
    Option (Option α) :=
  match o.find? (·.1 == name) with
  | none => some none
  | some (_, none) => none
  | some (_, some text) => (parse text.toList).map some

end GivenOptions

namespace Request

/-- A path has at least one character. -/
def path? (cs : List Char) : Option String :=
  if cs.isEmpty then none else some (String.ofList cs)

/-- One more than the largest unsigned number. -/
def wordBound : Nat := UInt64.size

def instanceValued : List String := ["--csv", "--capacity", "--items", "--seed"]

def source? (o : GivenOptions) : Option InstanceOptions := do
  let csv? ← o.value? "--csv" path?
  let capacity? ← o.value? "--capacity" Decimal.int64?
  let items? ← o.value? "--items" (Decimal.boundedNat? wordBound)
  let seed? ← o.value? "--seed" (Decimal.boundedNat? wordBound)
  return { csv?, capacity?, items := items?.getD 16, seed := seed?.getD 0 }

def solve? (o : GivenOptions) : Option Request := do
  let source ← source? o
  let timeLimit? ← o.value? "--time-limit" Decimal.float?
  let out? ← o.value? "--out" path?
  return .solve
    { source
      ranking := o.has "--ranking"
      depthFirst := o.has "--depth-first"
      timeLimit := timeLimit?.getD 3600.0
      progress := o.has "--progress"
      out?
      verify := o.has "--verify" }

/-- A capacity needs a table, and there is one strategy. -/
def agrees (o : GivenOptions) : Bool :=
  (!o.has "--capacity" || o.has "--csv") && !(o.has "--ranking" && o.has "--depth-first")

/-- The request that the words after the name of a command come to. -/
def ofRead (request? : GivenOptions → Option Request) : Option ReadWords → Except Exit Request
  | none => .error .misused
  | some ⟨o, help⟩ =>
    match if o.isDistinct then request? o else none with
    | none => .error .misused
    | some request =>
      if help then .error .helped else if agrees o then .ok request else .error .misused

/-- Reads a command line without the program's name. -/
def ofWords : List String → Except Exit Request
  | "solve" :: words =>
    ofRead solve? (GivenOptions.read? (instanceValued ++ ["--time-limit", "--out"])
      ["--ranking", "--depth-first", "--progress", "--verify"] words)
  | "brute" :: words =>
    ofRead (fun o => (source? o).map .brute) (GivenOptions.read? instanceValued [] words)
  | "help" :: words =>
    .error (if [[], ["solve"], ["brute"], ["help"]].contains words then .helped else .misused)
  | word :: _ => .error (if GivenOptions.isHelp word then .helped else .misused)
  | [] => .error .misused

end Request

end Biobjective
