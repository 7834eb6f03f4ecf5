import Biobjective.Decimal.Binary64

/-!
# Decimal numerals

A `Decimal` is `digits · 10^exponent`. `Decimal.shortest` is the decimal with
the fewest digits that still reads back as a given double, and of these the
nearest one. `Decimal.render` writes a decimal down; a `Decimal.Style` says
which decimals are written without an exponent, whether a whole number shows a
point, and which of two nearest decimals is taken.
-/

namespace Biobjective

/-- The number `digits · 10^exponent`. -/
structure Decimal where
  digits : Nat
  exponent : Int
deriving DecidableEq

namespace Decimal

inductive TieRule where
  | up
  | even
deriving DecidableEq

/-- The rule prefers the successor of a number to the number itself. -/
def TieRule.prefersNext (tie : TieRule) (n : Nat) : Bool :=
  match tie with
  | .up => true
  | .even => n % 2 = 1

/-- A multiple of `10^e` that lies among the reals that round to `m · 2^q`, the
nearer one if two do, the one of the tie rule if these are equally near. -/
def onGrid? (tie : TieRule) (m : Nat) (q e : Int) : Option Nat :=
  let unit := Nat.pow 2 (q - 2).toNat * Nat.pow 10 (-e).toNat
  let grid := Nat.pow 2 (2 - q).toNat * Nat.pow 10 e.toNat
  let value := 4 * m * unit
  let lower :=
    if m = Nat.pow 2 Binary64.fractionBits ∧ Binary64.leastExponent < q then (4 * m - 1) * unit
    else (4 * m - 2) * unit
  let upper := (4 * m + 2) * unit
  let fits (d : Nat) : Bool :=
    if m % 2 = 0 then lower ≤ d * grid ∧ d * grid ≤ upper
    else lower < d * grid ∧ d * grid < upper
  let below := value / grid
  let above := below + 1
  let isNearer : Bool := above * grid - value < value - below * grid
  let isTie : Bool := above * grid - value = value - below * grid
  if fits above && (!fits below || isNearer || (isTie && tie.prefersNext below)) then some above
  else if fits below && 0 < below then some below
  else none

/-- The first grid with a hit, from `10^e` on downwards. -/
def coarsest (tie : TieRule) (m : Nat) (q : Int) : (fuel : Nat) → (e : Int) → Decimal
  | 0, e => ⟨m, e⟩
  | fuel + 1, e =>
    match onGrid? tie m q e with
    | some digits => ⟨digits, e⟩
    | none => coarsest tie m q fuel (e - 1)

/-- The decimal of fewest digits that reads back as `m · 2^q`. -/
def shortest (tie : TieRule) (m : Nat) (q : Int) : Decimal :=
  if m = 0 then ⟨0, 0⟩
  else coarsest tie m q 25 ((Nat.log2 m + q + 1) * 30103 / 100000 + 2)

structure Style where
  tie : TieRule
  pointZero : Bool
  /-- The least and the greatest number of digits before the point that is
  written without an exponent, where the zeros after the point count as
  negative. Without it no exponent is ever written. -/
  positional? : Option (Int × Int)

def zeros (n : Nat) : String := String.ofList (List.replicate n '0')

def positional (style : Style) (d : Decimal) : String :=
  let text := toString d.digits
  let whole : Int := text.length + d.exponent
  if 0 ≤ d.exponent then
    text ++ zeros d.exponent.toNat ++ (if style.pointZero then ".0" else "")
  else if 0 < whole then
    String.ofList (text.toList.take whole.toNat) ++ "." ++
      String.ofList (text.toList.drop whole.toNat)
  else "0." ++ zeros (-whole).toNat ++ text

/-- Writes an exponent, with its sign and at least two digits. -/
def exponentText (e : Int) : String :=
  (if e < 0 then "e-" else "e+") ++ (if e.natAbs < 10 then "0" else "") ++ toString e.natAbs

/-- Writes a decimal with one digit before the point and an exponent. -/
def scientific (d : Decimal) : String :=
  let text := toString d.digits
  let fraction := text.toList.drop 1
  String.ofList (text.toList.take 1) ++
    (if fraction.isEmpty then "" else "." ++ String.ofList fraction) ++
    exponentText (text.length + d.exponent - 1)

def render (style : Style) (d : Decimal) : String :=
  let whole : Int := (toString d.digits).length + d.exponent
  match style.positional? with
  | none => positional style d
  | some (least, greatest) =>
    if d.digits = 0 ∨ (least ≤ whole ∧ whole ≤ greatest) then positional style d
    else scientific d

/-- Writes a double with the fewest digits that read back. -/
def ofFloat (style : Style) (x : Float) : String :=
  match Binary64.ofFloat x with
  | .nan => "NaN"
  | .infinite negative => if negative then "-inf" else "inf"
  | .finite negative m q => (if negative then "-" else "") ++ render style (shortest style.tie m q)

/-- Writes a double with a fixed number of places, a half of the last place
going to the even neighbour. -/
def fixed (places : Nat) (x : Float) : String :=
  match Binary64.ofFloat x with
  | .nan => "NaN"
  | .infinite negative => if negative then "-inf" else "inf"
  | .finite negative m q =>
    let (num, den) := Binary64.scaled m q (Nat.pow 10 places)
    let units := roundDiv num den
    let fraction := toString (units % Nat.pow 10 places)
    (if negative then "-" else "") ++ toString (units / Nat.pow 10 places) ++
      (if places = 0 then "" else "." ++ zeros (places - fraction.length) ++ fraction)

end Decimal

end Biobjective
