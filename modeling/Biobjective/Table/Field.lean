/-!
# Fields of a table

A table is written as text: a line for each row, with commas between its fields.
A field that starts with a quote is quoted, and commas and line ends between its
quotes belong to it. A field is taken from the text as it stands; `Field.inner`
is what a quoted field holds.

Lines are told apart before fields are: `splitLine` and `lines` take a line end
between any two quotes as a part of the line.
-/

namespace Biobjective

structure Field where
  text : List Char
  quoted : Bool
deriving DecidableEq

namespace Field

/-- A text without its last byte, absent if that was a part of a character. -/
def dropLastByte? (text : List Char) : Option (List Char) :=
  match text.getLast? with
  | none => some []
  | some c => if c.utf8Size = 1 then some text.dropLast else none

/-- What a quoted field holds: all but its first and its last byte. A field of
one byte holds itself. -/
def inner? (f : Field) : Option (List Char) :=
  match f.quoted, f.text with
  | true, _ :: c :: cs => dropLastByte? (c :: cs)
  | _, text => some text

/-- The field without a carriage return at its end. -/
def withoutReturn (f : Field) : Field :=
  if f.text.getLast? = some '\r' then { f with text := f.text.dropLast } else f

end Field

/-- Takes a field from the front of a text, and says which character ended it
and what follows that. With `quoting`, quotes go in pairs, and nothing ends the
field between the two of a pair. -/
def splitField (quoting inside : Bool) : List Char → List Char × Option (Char × List Char)
  | [] => ([], none)
  | c :: cs =>
    if !inside && (c = ',' || c = '\n') then ([], some (c, cs))
    else
      let (field, next) := splitField quoting (inside != (quoting && c == '"')) cs
      (c :: field, next)

/-- Nothing is lost between a field and what follows it. -/
theorem splitField_append (quoting inside : Bool) (text : List Char) :
    (splitField quoting inside text).1 ++
      (match (splitField quoting inside text).2 with
        | none => []
        | some (c, rest) => c :: rest) = text := by
  induction text generalizing inside with
  | nil => rfl
  | cons c cs ih =>
    by_cases h : (!inside && (c = ',' || c = '\n')) = true
    · simp [splitField, h]
    · simp only [splitField, h, Bool.false_eq_true, if_false, List.cons_append]
      exact congrArg (c :: ·) (ih _)

theorem length_of_splitField {quoting inside : Bool} {text rest : List Char} {c : Char}
    (h : (splitField quoting inside text).2 = some (c, rest)) : rest.length < text.length := by
  have := congrArg List.length (splitField_append quoting inside text)
  rw [h] at this
  simp only [List.length_append, List.length_cons] at this
  omega

/-- What follows the last field that was taken from a line. -/
inductive RowEnd where
  /-- The line ended, and the next one starts with this text. -/
  | line (rest : List Char)
  /-- The line goes on with this text after a comma. -/
  | more (rest : List Char)

def RowEnd.rest : RowEnd → List Char
  | .line rest => rest
  | .more rest => rest

/-- Takes at most `count` fields from the front of a text, all of one line. -/
def splitFields : (count : Nat) → List Char → List Field × RowEnd
  | 0, text => ([], .more text)
  | count + 1, text =>
    let quoted := text.head? == some '"'
    match splitField quoted false text with
    | (field, none) => ([⟨field, quoted⟩], .line [])
    | (field, some (c, rest)) =>
      if c = ',' then
        let (fields, ended) := splitFields count rest
        (⟨field, quoted⟩ :: fields, ended)
      else ([⟨field, quoted⟩], .line rest)

theorem length_rest_splitFields_le (count : Nat) (text : List Char) :
    (splitFields count text).2.rest.length ≤ text.length := by
  induction count generalizing text with
  | zero => exact Nat.le_refl _
  | succ count ih =>
    simp only [splitFields]
    split
    · simp [RowEnd.rest]
    · rename_i c rest h
      have hlt : rest.length < text.length :=
        length_of_splitField (congrArg Prod.snd h)
      split
      · exact Nat.le_trans (ih rest) (Nat.le_of_lt hlt)
      · exact Nat.le_of_lt hlt

/-- A field taken from a text makes it shorter. -/
theorem length_rest_splitFields_lt {count : Nat} {text : List Char} (hcount : 0 < count)
    (htext : text ≠ []) : (splitFields count text).2.rest.length < text.length := by
  cases count with
  | zero => omega
  | succ count =>
    simp only [splitFields]
    split
    · simpa [RowEnd.rest] using List.length_pos_iff.2 htext
    · rename_i c rest h
      have hlt : rest.length < text.length :=
        length_of_splitField (congrArg Prod.snd h)
      split
      · exact Nat.lt_of_le_of_lt (length_rest_splitFields_le count rest) hlt
      · exact hlt

/-- The first line of a text and what follows it. A line end between quotes does
not count. -/
def splitLine (inside : Bool) : List Char → List Char × List Char
  | [] => ([], [])
  | c :: cs =>
    if !inside && c = '\n' then ([], cs)
    else
      let (line, rest) := splitLine (inside != (c == '"')) cs
      (c :: line, rest)

theorem length_splitLine_le (inside : Bool) (text : List Char) :
    (splitLine inside text).2.length ≤ text.length := by
  induction text generalizing inside with
  | nil => exact Nat.le_refl _
  | cons c cs ih =>
    simp only [splitLine]
    split
    · simp
    · exact Nat.le_trans (ih _) (Nat.le_succ _)

theorem length_splitLine_lt (inside : Bool) {text : List Char} (h : text ≠ []) :
    (splitLine inside text).2.length < text.length := by
  cases text with
  | nil => exact absurd rfl h
  | cons c cs =>
    simp only [splitLine]
    split
    · simp
    · exact Nat.lt_succ_of_le (length_splitLine_le _ cs)

/-- The lines of a text. Nothing after the last line end is no line. -/
def lines (text : List Char) : List (List Char) :=
  if h : text = [] then []
  else
    have := length_splitLine_lt false h
    (splitLine false text).1 :: lines (splitLine false text).2
termination_by text.length

/-- A line without a carriage return at its end, unless that is all there is. -/
def trimReturn (line : List Char) : List Char :=
  if 1 < line.length ∧ line.getLast? = some '\r' then line.dropLast else line

end Biobjective
