import Biobjective.Host
import Biobjective.Path.Pattern

/-!
# Sources

A path that is to be read may stand for several files: a directory stands for all
files below it, and a pattern for all files that match it. Empty files do not
count in either.

The files below a directory come level by level, and those of a pattern come in
the order of their paths, a place before what is below it. No path is longer than
`Path.byteBound`, which bounds the depth of both searches.
-/

namespace Biobjective

namespace Sources

variable {m : Type → Type} [Monad m] [Host m]

def isDirectory (path : String) : m Bool := do
  return (← Host.kind? path) == some .directory

def isFilled (path : String) : m Bool := do
  return (← Host.kind? path) == some (.file false)

/-- The files below some directories of one level, level by level. Below a
directory names are in ascending order. -/
def filesBelow : (depth : Nat) → List String → m (List String)
  | 0, _ => return []
  | _ + 1, [] => return []
  | depth + 1, directories => do
    let paths ← directories.flatMapM fun directory => do
      return (← Host.names directory).map (Path.join directory)
    let files ← paths.filterM isFilled
    let deeper ← paths.filterM isDirectory
    return files ++ (← filesBelow depth deeper)

/-- The path of a word in a directory, where the working directory is not
written out. -/
def step (path word : String) : String := if path == "." then word else Path.join path word

def leads (path word : String) : m Bool := do
  if word == "." || word == ".." then isDirectory path
  else return (← Host.kind? (step path word)).isSome

/-- Visits everything below a path by its path and its name, a place before what
is below it. -/
def walk (visit : String → String → m (List String)) : (depth : Nat) → String → m (List String)
  | 0, _ => return []
  | depth + 1, path => do
    if !(← isDirectory path) then return []
    (← Host.names path).flatMapM fun name => do
      let here ← visit (step path name) name
      return here ++ (← walk visit depth (step path name))

/-- The paths below a path that match the words of a pattern. Nothing after a
word for any depth stands for the directories there. -/
def expand : List Path.PatternWord → String → m (List String)
  | [], path => return [path]
  | .literal word :: words, path => do
    if ← leads path word then expand words (step path word) else return []
  | .wild parts :: words, path => do
    if !(← isDirectory path) then return []
    let pattern := Path.PatternWord.wild parts
    let names := (← Host.names path).filter pattern.matchName
    (pattern.matchedDots ++ names).flatMapM fun name => expand words (step path name)
  | [.anyDepth], path =>
    walk (fun child _ => do return if ← isDirectory child then [child] else [])
      Path.byteBound path
  | .anyDepth :: word :: words, path =>
    walk (fun child name => if word.matchName name then expand words child else return [])
      Path.byteBound path

/-- All files have one extension. -/
def haveOneExtension : List String → Bool
  | [] => true
  | file :: files => files.all fun other => Path.extension other == Path.extension file

/-- The files that a path stands for, absent if it is an ill-formed pattern or a
directory with files of several extensions. -/
def files? (path : String) : m (Option (List String)) := do
  if ← isDirectory path then
    let files ← filesBelow Path.byteBound [path]
    return if Path.isPattern path || haveOneExtension files then some files else none
  else if Path.isPattern path then
    match Path.patternWords? path with
    | none => return none
    | some words =>
      let paths ← expand words (if path.startsWith "/" then "/" else ".")
      if path.endsWith "/" then return some [] else return some (← paths.filterM isFilled)
  else return some [path]

/-- The text of a file, where the home directory may be abbreviated. -/
def read (path : String) : m (Except FileFault String) := do
  match ← Host.getVar? "HOME" with
  | some home => Host.read (Path.atHome home path)
  | none => Host.read path

end Sources

end Biobjective
