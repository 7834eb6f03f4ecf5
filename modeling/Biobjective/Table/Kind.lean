import Biobjective.Decimal.Digit
import Biobjective.Decimal.Read
import Biobjective.Table.Field

/-!
# Kinds of columns

A column of a table holds truth values, whole numbers, decimals or any text. Its
kind is guessed from some of its fields (`ColumnKind.ofFields`), and then decides
how each of its fields is read as an integer (`ColumnKind.integer?`): a truth
value stands for one or zero, the fraction of a decimal is dropped, and of texts
only the whole numerals count.

The guess is generous about digits, and the reading is not: a digit of another
script makes a numeral of a field that then cannot be read.
-/

namespace Biobjective

/-- What the fields of a column are. Each kind is more general than those before
it. -/
inductive ColumnKind where
  | truth
  | whole
  | decimal
  | text
deriving DecidableEq

namespace ColumnKind

def rank : ColumnKind → Nat
  | .truth => 0
  | .whole => 1
  | .decimal => 2
  | .text => 3

theorem rank_injective {a b : ColumnKind} (h : a.rank = b.rank) : a = b := by
  cases a <;> cases b <;> simp_all [rank]

def join (a b : ColumnKind) : ColumnKind := if a.rank ≤ b.rank then b else a

theorem rank_join (a b : ColumnKind) : (a.join b).rank = max a.rank b.rank := by
  unfold join
  split <;> omega

theorem join_comm (a b : ColumnKind) : a.join b = b.join a :=
  rank_injective (by rw [rank_join, rank_join, Nat.max_comm])

theorem join_assoc (a b c : ColumnKind) : (a.join b).join c = a.join (b.join c) :=
  rank_injective (by simp only [rank_join, Nat.max_assoc])

@[simp] theorem join_self (a : ColumnKind) : a.join a = a :=
  rank_injective (by rw [rank_join, Nat.max_self])

/-! ### The guess -/

/-- At least one digit, and nothing but digits. -/
def isDigits (cs : List Char) : Bool := !cs.isEmpty && cs.all Decimal.isDigit

/-- A whole numeral, with or without a minus. -/
def isWhole : List Char → Bool
  | '-' :: cs => isDigits cs
  | cs => isDigits cs

/-- An exponent at the end of a numeral. -/
def isExponent : List Char → Bool
  | c :: cs => (c = 'e' || c = 'E') && isDigits (Decimal.signed cs).2
  | [] => false

/-- A decimal numeral: it has a point or an exponent, or it is no number. -/
def isDecimal (cs : List Char) : Bool :=
  let cs := (Decimal.signed cs).2
  let whole := cs.takeWhile Decimal.isDigit
  match cs.dropWhile Decimal.isDigit with
  | '.' :: rest =>
    let fraction := rest.takeWhile Decimal.isDigit
    let tail := rest.dropWhile Decimal.isDigit
    if fraction.isEmpty then !whole.isEmpty && tail.isEmpty
    else tail.isEmpty || isExponent tail
  | rest =>
    cs = "inf".toList || cs = "NaN".toList || (!whole.isEmpty && isExponent rest)

/-- A character in lower case. The long s counts as an s. -/
def foldCase (c : Char) : Char := if c = 'ſ' then 's' else c.toLower

/-- A word for a truth value. -/
def isTruth (cs : List Char) : Bool :=
  let word := cs.map foldCase
  word = "true".toList || word = "false".toList

def ofText (cs : List Char) : ColumnKind :=
  if isTruth cs then .truth
  else if isDecimal cs then .decimal
  else if isWhole cs then .whole
  else .text

/-- The kind of a field. An empty field has none. -/
def ofField? (f : Field) : Option ColumnKind :=
  if f.text.isEmpty then none
  else
    match f.inner? with
    | some cs => some (ofText cs)
    | none => some .text

/-- The kind of a column by the kinds of its fields. Whole numbers among
decimals are decimals, and all other mixtures are texts. -/
def ofKinds : List ColumnKind → ColumnKind
  | [] => .text
  | kind :: kinds =>
    if kinds.all (· = kind) then kind
    else if (kind :: kinds).all fun k => k = .whole || k = .decimal then .decimal
    else .text

def ofFields (fields : List Field) : ColumnKind := ofKinds (fields.filterMap ofField?)

/-! ### The reading -/

/-- The number of a truth value. -/
def truthValue? (cs : List Char) : Option Int :=
  let word := cs.map Char.toLower
  if word = "true".toList then some 1
  else if word = "false".toList then some 0
  else none

/-- A decimal numeral as an integer of 64 bits, the fraction being dropped: absent
if there is no numeral, and missing if the integer does not fit. -/
def truncated? (cs : List Char) : Option (Option Int) :=
  (Decimal.float? cs).map fun x =>
    (Binary64.ofFloat x).truncate?.filter fun n => -(Int.pow 2 63) ≤ n ∧ n < Int.pow 2 63

/-- Reads a numeral, before which blanks do not count. No numeral at all is a
missing one. -/
def numeral? (read? : List Char → Option (Option Int)) (cs : List Char) : Option (Option Int) :=
  match cs.dropWhile fun c => c = ' ' || c = '\t' with
  | [] => some none
  | cs => read? cs

/-- What a quoted text says: of two quotes in a row one counts, a single one does
not. -/
def unescape : (pending : Bool) → List Char → List Char
  | _, [] => []
  | pending, c :: cs =>
    if c = '"' then
      if pending then c :: unescape false cs else unescape true cs
    else c :: unescape false cs

/-- The integer of a field that is a text. A quoted field has to have two
bytes. -/
def ofQuoted? (f : Field) : Option (Option Int) :=
  if f.quoted then
    if f.text.length < 2 then none
    else f.inner?.map fun cs => Decimal.int64? (unescape false cs)
  else some (Decimal.int64? f.text)

/-- The integer of a field in a column: absent if the field cannot be read, and
missing if it holds no integer. -/
def integer? (kind : ColumnKind) (field : Field) : Option (Option Int) :=
  let field := field.withoutReturn
  if field.text.isEmpty then some none
  else
    match kind with
    | .truth => field.inner?.bind fun cs =>
      if cs.isEmpty then some none else (truthValue? cs).map some
    | .whole => field.inner?.bind (numeral? fun cs => (Decimal.int64? cs).map some)
    | .decimal => field.inner?.bind (numeral? truncated?)
    | .text => ofQuoted? field

end ColumnKind

end Biobjective
