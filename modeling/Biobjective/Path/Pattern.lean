import Biobjective.Path

/-!
# Path patterns

A pattern stands for all paths whose words match its words. In a word, `?`
matches any character, `*` any text, `[a-z]` one of some characters, and
`[!a-z]` one of all others. The word `**` matches any number of words.

`Wildcard.matchWord` is the meaning of a pattern for one word. Where a pattern
leads is up to the file system.
-/

namespace Biobjective

namespace Path

/-- A part of a pattern for a word. -/
inductive Wildcard where
  | char (c : Char)
  | anyChar
  | anyText
  | oneOf (ranges : List (Char × Char))
  | noneOf (ranges : List (Char × Char))
deriving DecidableEq

namespace Wildcard

def inRanges (ranges : List (Char × Char)) (c : Char) : Bool :=
  ranges.any fun (first, last) => first ≤ c && c ≤ last

def matchChar : Wildcard → Char → Bool
  | .char d, c => d == c
  | .anyChar, _ => true
  | .anyText, _ => true
  | .oneOf ranges, c => inRanges ranges c
  | .noneOf ranges, c => !inRanges ranges c

/-- The parts together match a word. -/
def matchWord : List Wildcard → List Char → Bool
  | [], cs => cs.isEmpty
  | .anyText :: parts, cs =>
    (List.range (cs.length + 1)).any fun n => matchWord parts (cs.drop n)
  | part :: parts, c :: cs => part.matchChar c && matchWord parts cs
  | _ :: _, [] => false

@[simp] theorem matchWord_nil (cs : List Char) : matchWord [] cs = cs.isEmpty := rfl

/-- Any text can be skipped where any text may stand. -/
theorem matchWord_anyText_cons (parts : List Wildcard) (cs : List Char) :
    matchWord (.anyText :: parts) cs = true ↔
      ∃ n ≤ cs.length, matchWord parts (cs.drop n) = true := by
  simp only [matchWord, List.any_eq_true, List.mem_range, Nat.lt_succ_iff]

/-- A word without wildcards matches itself only. -/
theorem matchWord_map_char (word cs : List Char) :
    matchWord (word.map .char) cs = true ↔ word = cs := by
  induction word generalizing cs with
  | nil => cases cs <;> simp
  | cons c word ih =>
    cases cs with
    | nil => simp [matchWord]
    | cons d cs => simp [matchWord, matchChar, ih]

/-- The ranges between brackets: `a-z` is a range, and any other character is a
range of its own. -/
def ranges : List Char → List (Char × Char)
  | a :: '-' :: b :: cs => (a, b) :: ranges cs
  | c :: cs => (c, c) :: ranges cs
  | [] => []

/-- Takes the text before a closing bracket, which is not the first
character. -/
def splitBracket : List Char → Option (List Char × List Char)
  | [] => none
  | first :: cs =>
    match cs.dropWhile (· ≠ ']') with
    | [] => none
    | _ :: rest => some (first :: cs.takeWhile (· ≠ ']'), rest)

theorem length_of_splitBracket {cs inner rest : List Char}
    (h : splitBracket cs = some (inner, rest)) : rest.length < cs.length := by
  cases cs with
  | nil => simp [splitBracket] at h
  | cons first cs =>
    have hle := (List.dropWhile_sublist (· ≠ ']') (l := cs)).length_le
    simp only [splitBracket] at h
    split at h
    · simp at h
    · rename_i c tail htail
      simp only [Option.some.injEq, Prod.mk.injEq] at h
      rw [htail] at hle
      simp only [List.length_cons] at hle ⊢
      have := congrArg List.length h.2
      omega

/-- The parts of a word of a pattern, absent if brackets do not close or two
stars stand together. -/
def ofWord? (cs : List Char) : Option (List Wildcard) :=
  match cs with
  | [] => some []
  | '?' :: cs => (ofWord? cs).map (.anyChar :: ·)
  | '*' :: '*' :: _ => none
  | '*' :: cs => (ofWord? cs).map (.anyText :: ·)
  | '[' :: '!' :: cs =>
    match h : splitBracket cs with
    | none => none
    | some (inner, rest) =>
      have := length_of_splitBracket h
      (ofWord? rest).map (.noneOf (ranges inner) :: ·)
  | '[' :: cs =>
    match h : splitBracket cs with
    | none => none
    | some (inner, rest) =>
      have := length_of_splitBracket h
      (ofWord? rest).map (.oneOf (ranges inner) :: ·)
  | c :: cs => (ofWord? cs).map (.char c :: ·)
termination_by cs.length
decreasing_by all_goals (simp only [List.length_cons]; omega)

end Wildcard

inductive PatternWord where
  | literal (word : String)
  | wild (parts : List Wildcard)
  | anyDepth
deriving DecidableEq

namespace PatternWord

/-- Reads a word of a pattern. -/
def ofWord? (word : String) : Option PatternWord :=
  if word == "**" then some .anyDepth
  else if word.toList.any "*?[".toList.contains then
    (Wildcard.ofWord? word.toList).map .wild
  else some (.literal word)

def matchName : PatternWord → String → Bool
  | .literal word, name => word == name
  | .wild parts, name => Wildcard.matchWord parts name.toList
  | .anyDepth, _ => true

/-- The words for the directory itself and for the one above it that the word
matches. They need a point at the start of the pattern. -/
def matchedDots : PatternWord → List String
  | .wild (.char '.' :: parts) =>
    ["..", "."].filter fun word => Wildcard.matchWord (.char '.' :: parts) word.toList
  | _ => []

end PatternWord

/-- A path with wildcards is a pattern. -/
def isPattern (path : String) : Bool := path.toList.any "*?[".toList.contains

/-- Joins words for any depth that follow each other. -/
def mergeDepths : List PatternWord → List PatternWord
  | .anyDepth :: .anyDepth :: words => mergeDepths (.anyDepth :: words)
  | word :: words => word :: mergeDepths words
  | [] => []

/-- The words of a pattern. A slash at its end does not count here. -/
def patternWords? (path : String) : Option (List PatternWord) :=
  let words := path.splitOn "/"
  let words := if path.startsWith "/" then words.drop 1 else words
  let words := if words.getLast? == some "" then words.dropLast else words
  (words.mapM PatternWord.ofWord?).map mergeDepths

end Path

end Biobjective
