import Biobjective.Path

/-!
# File trees

A tree of text files and directories as a value. Appending and writing create
the last place of a path only; all places before it have to be directories.
-/

namespace Biobjective

/-- What a path leads to. -/
inductive Entry where
  | file (text : String)
  | directory
  /-- A device that takes nothing. -/
  | fullDevice
  /-- A device that forgets what it takes. -/
  | nullDevice
deriving DecidableEq

/-- What a search for files asks of an entry. -/
inductive EntryKind where
  | directory
  /-- A file with a text, or a file or device without one. -/
  | file (isEmpty : Bool)
deriving DecidableEq

def Entry.kind : Entry → EntryKind
  | .directory => .directory
  | .file text => .file text.isEmpty
  | .fullDevice => .file true
  | .nullDevice => .file true

/-- A tree of files. Of two entries for one place the first one counts. -/
structure Files where
  entries : List (List String × Entry)

namespace Files

/-- The directories of the root directory. -/
def rootNames : List String := ["dev", "etc", "home", "root", "tmp", "usr", "var"]

/-- The tree in which the working directory is empty. -/
def empty : Files :=
  ⟨(["/"], .directory) :: rootNames.map (fun name => (["/", name], .directory)) ++
    [(["/", "dev", "full"], .fullDevice), (["/", "dev", "null"], .nullDevice)]⟩

/-- The entry at a place. The working directory and all above it are there. -/
def entry? (t : Files) (place : List String) : Option Entry :=
  if place.all (· == "..") then some .directory
  else (t.entries.find? (·.1 == place)).map (·.2)

def set (t : Files) (place : List String) (e : Entry) : Files :=
  if t.entries.any (·.1 == place) then
    ⟨t.entries.map fun entry => if entry.1 == place then (place, e) else entry⟩
  else ⟨t.entries ++ [(place, e)]⟩

/-- What stands in the way of going through a place that a word led to. -/
def barrier? (t : Files) (word : String) (place : List String) : Option FileFault :=
  if Path.maxWordBytes < word.utf8ByteSize then some .nameTooLong
  else
    match t.entry? place with
    | some .directory => none
    | some _ => some .notADirectory
    | none => some .notFound

/-- What stands in the way of a path's last word. -/
def obstacle? (t : Files) (path : String) : Option FileFault :=
  match Path.fault? path with
  | some fault => some fault
  | none =>
    let words := Path.words path
    (("." :: words).zip (Path.placesThrough (Path.start path) words)).findSome? fun
      | (word, place) => t.barrier? word place

def isLastTooLong (path : String) : Bool :=
  (Path.words path).getLast?.any fun word => Path.maxWordBytes < word.utf8ByteSize

/-- Changes the text of a file, a missing file being empty. A path that ends in
a slash names a directory. -/
def alter (t : Files) (path : String) (f : String → String) : Except FileFault Files :=
  match t.obstacle? path with
  | some fault => .error fault
  | none =>
    if path.endsWith "/" then .error .isADirectory
    else if isLastTooLong path then .error .nameTooLong
    else
      match t.entry? (Path.target path) with
      | some .directory => .error .isADirectory
      | some .fullDevice => if (f "").isEmpty then .ok t else .error .noSpace
      | some .nullDevice => .ok t
      | some (.file text) => .ok (t.set (Path.target path) (.file (f text)))
      | none => .ok (t.set (Path.target path) (.file (f "")))

def append (t : Files) (path text : String) : Except FileFault Files := t.alter path (· ++ text)

def write (t : Files) (path text : String) : Except FileFault Files := t.alter path fun _ => text

/-- The entry that a path leads to. A path that ends in a slash leads to a
directory only. -/
def lookup (t : Files) (path : String) : Except FileFault Entry :=
  match t.obstacle? path with
  | some fault => .error fault
  | none =>
    if isLastTooLong path then .error .nameTooLong
    else
      match t.entry? (Path.target path) with
      | none => .error .notFound
      | some .directory => .ok .directory
      | some e => if path.endsWith "/" then .error .notADirectory else .ok e

def read (t : Files) (path : String) : Except FileFault String :=
  match t.lookup path with
  | .error fault => .error fault
  | .ok (.file text) => .ok text
  | .ok .directory => .error .isADirectory
  | .ok .fullDevice => .error (.other "unreadable")
  | .ok .nullDevice => .ok ""

def createDirs (t : Files) (path : String) : Except FileFault Files :=
  (Path.placesThrough (Path.start path) (Path.words path) ++ [Path.target path]).foldlM
    (fun t place =>
      match t.entry? place with
      | none => .ok (t.set place .directory)
      | some .directory => .ok t
      | some _ => .error .notADirectory) t

def kind? (t : Files) (path : String) : Option EntryKind :=
  (t.lookup path).toOption.map Entry.kind

/-- The names in the directory that a path leads to, in ascending order. -/
def names (t : Files) (path : String) : List String :=
  let place := Path.target path
  let names := t.entries.filterMap fun (p, _) =>
    if p.dropLast == place then p.getLast?.filter (· != "/") else none
  names.mergeSort fun a b => !decide (b < a)

def text? (t : Files) (path : String) : Option String :=
  match t.lookup path with
  | .ok (.file text) => some text
  | _ => none

/-- The files of the working directory and below, by their paths. -/
def texts (t : Files) : List (String × String) :=
  t.entries.filterMap fun
    | (place, .file text) =>
      if place.head? == some "/" || place.head? == some ".." then none
      else some ("/".intercalate place, text)
    | _ => none

end Files

end Biobjective
