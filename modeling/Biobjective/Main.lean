import Biobjective.Command

/-!
# The program

The commands on the machine itself: its files, its clock and its terminal.
-/

namespace Biobjective

def faultOf : IO.Error → FileFault
  | .noFileOrDirectory _ _ _ => .notFound
  | e => .other (toString e)

/-- The result of an action, or the fault that stopped it. -/
def attempt {α : Type} (action : IO α) : IO (Except FileFault α) := do
  try
    return .ok (← action)
  catch e =>
    return .error (faultOf e)

/-- What a path leads to on the machine. -/
def kindOf? (path : String) : IO (Option EntryKind) := do
  try
    let data ← ((← IO.currentDir) / path).metadata
    return some (if data.type == .dir then .directory else .file (data.byteSize == 0))
  catch _ => return none

/-- The names in a directory of the machine, in ascending order. -/
def namesIn (path : String) : IO (List String) := do
  try
    let entries ← ((← IO.currentDir) / path).readDir
    return (entries.toList.map (·.fileName)).mergeSort fun a b => !decide (b < a)
  catch _ => return []

instance : Host IO where
  read path := attempt (IO.FS.readFile path)
  append path text := attempt (IO.FS.withFile path .append fun file => file.putStr text)
  write path text := attempt (IO.FS.writeFile path text)
  createDirs path := attempt (IO.FS.createDirAll path)
  kind? := kindOf?
  names := namesIn
  getVar? name := IO.getEnv name
  now := do return ⟨← IO.monoNanosNow⟩
  print text := attempt (IO.print text)
  reserve n := return decide (n ≤ Nat.pow 2 44)

/-- What is said about the use of the program. -/
def usage : String :=
  "usage: solve [--csv FILE [--capacity N]] [--items N] [--seed N] [--ranking | --depth-first]\n" ++
  "             [--time-limit SECONDS] [--progress] [--out FILE] [--verify]\n" ++
  "       brute [--csv FILE [--capacity N]] [--items N] [--seed N]"

/-- Tells how the program ended. -/
def tell : Exit → IO Unit
  | .helped => IO.println usage
  | .refused message => IO.eprintln s!"Error: {message}"
  | .misused => IO.eprintln usage
  | .crashed cause => IO.eprintln cause.message
  | _ => return ()

end Biobjective

/-- Does what the command line asks for. -/
def main (words : List String) : IO UInt32 := do
  let exit ← Biobjective.Command.execute words
  Biobjective.tell exit
  return UInt32.ofNat exit.code
