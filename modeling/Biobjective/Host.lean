import Biobjective.Duration
import Biobjective.Files

/-!
# Hosts

A host is what a program runs on: it has files, variables, a clock, memory, and
a place to print to. A program is written for any host. The `Sandbox` is a host
that is a value: its files are a tree, its clock stands still, and what is
printed is kept.
-/

namespace Biobjective

/-- What a program asks of the host that it runs on. -/
class Host (m : Type → Type) where
  read : String → m (Except FileFault String)
  append : String → String → m (Except FileFault Unit)
  write : String → String → m (Except FileFault Unit)
  createDirs : String → m (Except FileFault Unit)
  kind? : String → m (Option EntryKind)
  /-- The names in a directory, in ascending order. -/
  names : String → m (List String)
  getVar? : String → m (Option String)
  now : m Duration
  print : String → m (Except FileFault Unit)
  /-- Whether there is room for so many more numbers of 64 bits. -/
  reserve : Nat → m Bool

inductive Exit where
  | success
  | helped
  | incomplete
  | refused (message : String)
  | misused
  | crashed (cause : Crash)
deriving DecidableEq

/-- The exit code. A program without memory is aborted, and all other crashes
share one code. -/
def Exit.code : Exit → Nat
  | .success => 0
  | .helped => 0
  | .incomplete => 2
  | .refused _ => 1
  | .misused => 2
  | .crashed .outOfMemory => 134
  | .crashed _ => 101

structure Sandbox where
  files : Files := .empty
  environment : List (String × String) := []
  printed : Array String := #[]
  written : List String := []
  memory : Nat := Nat.pow 2 44

namespace Sandbox

/-- Changes the files, and notes the path if that worked. -/
def change (path : String) (f : Files → Except FileFault Files) :
    StateM Sandbox (Except FileFault Unit) := fun s =>
  match f s.files with
  | .ok files => (.ok (), { s with files, written := path :: s.written })
  | .error fault => (.error fault, s)

instance : Host (StateM Sandbox) where
  read path := fun s => (s.files.read path, s)
  append path text := change path (·.append path text)
  write path text := change path (·.write path text)
  createDirs path := change path (·.createDirs path)
  kind? path := fun s => (s.files.kind? path, s)
  names path := fun s => (s.files.names path, s)
  getVar? name := fun s => (s.environment.lookup name, s)
  now := fun s => (.zero, s)
  print text := fun s => (.ok (), { s with printed := s.printed.push text })
  reserve n := fun s => (decide (n ≤ s.memory), s)

def output (s : Sandbox) : String := String.join s.printed.toList

end Sandbox

end Biobjective
