import Biobjective.Fault

/-!
# Paths

A path is a text whose words are separated by slashes. It is relative to the
working directory unless it starts with a slash. Each of its words leads from
one place to the next, and a place is the list of the steps that lead straight
to it.

The first half is about places; the second half takes paths apart and puts them
together as texts, without asking where they lead.
-/

namespace Biobjective

namespace Path

/-- The place that a word leads to. A step upwards undoes the step before it,
nothing is above the root directory, and what is above the working directory
keeps its steps upwards. -/
def nextPlace (place : List String) (word : String) : List String :=
  if word = "." then place
  else if word = ".." then
    match place.getLast? with
    | none => [".."]
    | some step =>
      if step = "/" then place
      else if step = ".." then place ++ [".."]
      else place.dropLast
  else place ++ [word]

/-- The places that words lead through, without the last one. -/
def placesThrough (place : List String) : List String → List (List String)
  | [] => []
  | word :: words => place :: placesThrough (nextPlace place word) words

@[simp] theorem placesThrough_nil (place : List String) : placesThrough place [] = [] := rfl

theorem placesThrough_cons (place : List String) (word : String) (words : List String) :
    placesThrough place (word :: words) = place :: placesThrough (nextPlace place word) words :=
  rfl

@[simp] theorem length_placesThrough (place words : List String) :
    (placesThrough place words).length = words.length := by
  induction words generalizing place with
  | nil => rfl
  | cons word words ih => simp [placesThrough_cons, ih]

def words (path : String) : List String := (path.splitOn "/").filter (!·.isEmpty)

/-- The place where a path starts. The root directory is a step of its own. -/
def start (path : String) : List String := if path.startsWith "/" then ["/"] else []

def target (path : String) : List String := (words path).foldl nextPlace (start path)

/-- The greatest number of bytes of a word. -/
def maxWordBytes : Nat := 255

/-- One more than the greatest number of bytes of a path. -/
def byteBound : Nat := 4096

/-- What is wrong with a path wherever it leads. -/
def fault? (path : String) : Option FileFault :=
  if path.isEmpty then some .notFound
  else if path.toList.contains '\x00' then some .zeroCharacter
  else if byteBound ≤ path.utf8ByteSize then some .nameTooLong
  else none

def name (path : String) : String := (path.splitOn "/").getLastD ""

/-- Takes a file name apart at its last point: what stands before it, and the
extension after it. A point at the start of a name starts no extension. -/
def splitName (name : String) : String × String :=
  match name.toList.reverse.dropWhile (· ≠ '.') with
  | _ :: first :: before =>
    let stem := (first :: before).reverse
    (String.ofList stem, String.ofList (name.toList.drop (stem.length + 1)))
  | _ => (name, "")

/-- The file name of a path without its extension. -/
def stem (path : String) : String := (splitName (name path)).1

/-- The extension of a path, blank if it has none. -/
def extension (path : String) : String := (splitName (name path)).2

/-- The words of the directory of a path. Blank words and points at their end
lead nowhere and are dropped, but for the first word, which is blank if the path
starts at the root directory. -/
def directoryWords (path : String) : List String :=
  match (path.splitOn "/").dropLast with
  | [] => []
  | first :: rest =>
    first :: (rest.reverse.dropWhile fun word => word == "" || word == ".").reverse

/-- The directory of a path, blank if it is the working directory. -/
def directory (path : String) : String :=
  match directoryWords path with
  | [""] => "/"
  | words => "/".intercalate words

def withName (path name : String) : String := "/".intercalate (directoryWords path ++ [name])

def join (directory word : String) : String :=
  if directory.endsWith "/" then directory ++ word else directory ++ "/" ++ word

def isAtHome (path : String) : Bool := path == "~" || path.startsWith "~/"

/-- The path with the home directory written out. -/
def atHome (home path : String) : String :=
  if isAtHome path then home ++ String.ofList (path.toList.drop 1) else path

/-- The names of the services that hold files of other machines. -/
def remoteSchemes : List String :=
  ["s3", "s3a", "gs", "gcs", "file", "abfs", "abfss", "azure", "az", "adl", "http", "https", "hf"]

/-- The path leads to another machine. -/
def isRemote (path : String) : Bool :=
  remoteSchemes.any fun scheme => path.startsWith (scheme ++ "://")

end Path

end Biobjective
