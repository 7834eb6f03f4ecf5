import Biobjective.Decimal.Basic

/-!
# Reading numerals

Whole numbers and decimal numerals as they are given on a command line or in a
table. A numeral is read in one piece: nothing may stand before or after it.
-/

namespace Biobjective

namespace Decimal

/-- The value of a list of decimal digits, absent if it is empty or holds
anything else. -/
def natural? (cs : List Char) : Option Nat :=
  if cs.isEmpty ∨ !cs.all Char.isDigit then none
  else some (cs.foldl (fun n c => 10 * n + (c.toNat - '0'.toNat)) 0)

/-- The sign of a numeral and what follows it; no sign is a plus. -/
def signed : List Char → Bool × List Char
  | '-' :: cs => (true, cs)
  | '+' :: cs => (false, cs)
  | cs => (false, cs)

def boundedNat? (bound : Nat) (cs : List Char) : Option Nat :=
  let digits := match cs with
    | '+' :: cs => cs
    | cs => cs
  (natural? digits).filter (· < bound)

def int64? (cs : List Char) : Option Int :=
  let (negative, digits) := signed cs
  match natural? digits with
  | none => none
  | some n =>
    let value : Int := if negative then -n else n
    if -(Int.pow 2 63) ≤ value ∧ value < Int.pow 2 63 then some value else none

/-- The double nearest to `digits · 10^exponent`. Beyond the range of doubles it
is an infinity or zero. -/
def nearest (digits : Nat) (exponent : Int) : Float :=
  let whole : Int := (toString digits).length + exponent
  if digits = 0 ∨ whole < -330 then 0.0
  else if 310 < whole then 1.0 / 0.0
  else Float.ofScientific digits (exponent < 0) exponent.natAbs

/-- The exponent at the end of a numeral, if one is there and well-formed. -/
def exponent? : List Char → Option Int
  | [] => some 0
  | c :: cs =>
    if c = 'e' ∨ c = 'E' then
      let (negative, digits) := signed cs
      (natural? digits).map fun n => if negative then -n else n
    else none

/-- A numeral without sign: digits, possibly with a point among or beside them,
and possibly an exponent. -/
def unsigned? (cs : List Char) : Option Float :=
  let whole := cs.takeWhile Char.isDigit
  let rest := cs.dropWhile Char.isDigit
  let (fraction, rest) := match rest with
    | '.' :: rest => (rest.takeWhile Char.isDigit, rest.dropWhile Char.isDigit)
    | rest => ([], rest)
  match natural? (whole ++ fraction), exponent? rest with
  | some digits, some exponent => some (nearest digits (exponent - fraction.length))
  | _, _ => none

/-- A double: a numeral, an infinity or `nan`, with or without a sign. -/
def float? (cs : List Char) : Option Float :=
  let (negative, cs) := signed cs
  let size? : Option Float :=
    match String.ofList (cs.map Char.toLower) with
    | "inf" => some (1.0 / 0.0)
    | "infinity" => some (1.0 / 0.0)
    | "nan" => some (0.0 / 0.0)
    | _ => unsigned? cs
  size?.map fun x => if negative then -x else x

end Decimal

end Biobjective
