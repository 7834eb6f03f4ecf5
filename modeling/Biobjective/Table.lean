import Biobjective.Table.Kind

/-!
# Tables

A table in comma-separated text: a line of column names, then a line for each
row. The kind of each column is guessed from the first rows. A row may be short,
and a blank line is a row in which every field is missing.

Of a table only the columns that are asked for are read, and of a row no more
than the fields up to the last of them. That is why a row may be longer than the
line of names, unless all columns are asked for.
-/

namespace Biobjective

/-- A table whose rows have not been read yet. -/
structure Table where
  names : List (List Char)
  kinds : List ColumnKind
  body : List Char

namespace Table

/-- The number of rows from which the kinds of the columns are guessed. -/
def guessedRows : Nat := 100

/-- A text without a byte order mark and without line ends before the first
line. -/
def trimStart (text : List Char) : List Char :=
  let text := match text with
    | '\ufeff' :: text => text
    | text => text
  text.dropWhile fun c => c = '\n' || c = '\r'

def columnName (f : Field) : List Char := f.inner?.getD f.text

/-- The table of a text. There has to be a line of names. -/
def ofText? (text : String) : Option Table :=
  let text := trimStart text.toList
  if text.isEmpty then none
  else
    let (header, body) := splitLine false text
    let names := (splitFields (header.length + 1) (trimReturn header)).1.map columnName
    let rows := ((lines body).take guessedRows).map fun line =>
      (splitFields names.length (trimReturn line)).1
    let kinds := (List.range names.length).map fun i =>
      ColumnKind.ofFields (rows.filterMap (·[i]?))
    some { names, kinds, body }

/-- Makes one list of kinds for several tables, which need the same names. -/
def commonKinds? : List Table → Option (List ColumnKind)
  | [] => none
  | t :: ts =>
    if ts.all fun u => u.names == t.names then
      some (ts.foldl (fun kinds u => List.zipWith ColumnKind.join kinds u.kinds) t.kinds)
    else none

/-- The rows of a text, each with at most `count` fields. With `whole` no row may
have more. -/
def rows? (count : Nat) (whole : Bool) (text : List Char) : Option (List (List Field)) :=
  if h : text = [] ∨ count = 0 then some []
  else
    have hlt : (splitFields count text).2.rest.length < text.length :=
      length_rest_splitFields_lt (by omega) (by simp_all)
    match hsplit : splitFields count text with
    | (fields, .line rest) =>
      have : rest.length < text.length := by simpa [hsplit, RowEnd.rest] using hlt
      (rows? count whole rest).map (fields :: ·)
    | (fields, .more rest) =>
      if whole && !rest.isEmpty then none
      else
        have : (splitLine false rest).2.length < text.length :=
          Nat.lt_of_le_of_lt (length_splitLine_le false rest)
            (by simpa [hsplit, RowEnd.rest] using hlt)
        (rows? count whole (splitLine false rest).2).map (fields :: ·)
termination_by text.length

/-- The place of a column. Of several columns of one name the first one
counts. -/
def column? (t : Table) (name : String) : Option Nat :=
  t.names.findIdx? (· == name.toList)

def integers? (rows : List (List Field)) (kind : ColumnKind) (column : Nat) :
    Option (List (Option Int)) :=
  rows.mapM fun row =>
    match row[column]? with
    | some field => kind.integer? field
    | none => some none

def columns? (t : Table) (kinds : List ColumnKind) (wanted : List String) :
    Option (List (List (Option Int))) := do
  let places ← wanted.mapM t.column?
  let count := places.foldl (fun n i => max n (i + 1)) 0
  let rows ← rows? count (t.names.length = wanted.length) t.body
  places.mapM fun i => integers? rows (kinds.getD i .text) i

def columnsOfAll? (tables : List Table) (wanted : List String) :
    Option (List (List (Option Int))) := do
  let kinds ← commonKinds? tables
  let parts ← tables.mapM fun t => t.columns? kinds wanted
  return parts.foldl (List.zipWith (· ++ ·)) (wanted.map fun _ => [])

end Table

end Biobjective
