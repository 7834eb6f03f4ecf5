import Biobjective.Command.Arguments
import Biobjective.Knapsack.Random
import Biobjective.Knapsack.Table
import Biobjective.Sources

/-!
# Tools

What the commands take from elsewhere: a reader of command lines, a reader of
tables, and a generator of random numbers. `Tools.standard` has the readers and
the generator of this library.
-/

namespace Biobjective

inductive ScanFault where
  | unscanned
  /-- A column is missing or no column of integers. -/
  | unreadable
  | crashed (cause : Crash)
deriving DecidableEq

structure Tools (m : Type → Type) where
  parse : List String → Except Exit Request
  scan : String → m (Except ScanFault ItemColumns)
  generator : Generator

variable {m : Type → Type} [Monad m] [Host m]

namespace Sources

/-- The texts of some files, absent if one of them cannot be read. -/
def readAll? : List String → m (Option (List String))
  | [] => return some []
  | file :: files => do
    match ← read file with
    | .error _ => return none
    | .ok text => return (← readAll? files).map (text :: ·)

/-- The columns of items in all files that a path stands for. -/
def scan (path : String) : m (Except ScanFault ItemColumns) := do
  if Path.isRemote path then return .error (.crashed .remotePath)
  let some files ← files? path | return .error .unreadable
  let some texts ← readAll? files | return .error .unreadable
  match ItemColumns.ofTexts? texts with
  | some columns => return .ok columns
  | none => return .error .unreadable

end Sources

def Tools.standard : Tools m where
  parse := Request.ofWords
  scan := Sources.scan
  generator := .standard

end Biobjective
