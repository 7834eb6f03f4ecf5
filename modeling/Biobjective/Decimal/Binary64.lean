/-!
# Doubles as exact numbers

A double is `m · 2^q` with a sign, an infinity, or no number. `Binary64.ofFloat`
reads this off its bits, and everything here is then exact arithmetic on `m`
and `q`.
-/

namespace Biobjective

inductive Binary64 where
  | nan
  | infinite (negative : Bool)
  /-- The number `m · 2^q`, or its negative. -/
  | finite (negative : Bool) (m : Nat) (q : Int)
deriving DecidableEq

/-- The quotient rounded to the nearest integer, a half going to the even
neighbour. -/
def roundDiv (num den : Nat) : Nat :=
  let quotient := num / den
  let rest := 2 * (num % den)
  if den < rest ∨ (rest = den ∧ quotient % 2 = 1) then quotient + 1 else quotient

namespace Binary64

def fractionBits : Nat := 52

/-- The least exponent `q`. -/
def leastExponent : Int := -1074

def ofFloat (x : Float) : Binary64 :=
  let bits := x.toBits.toNat
  let negative := bits.testBit 63
  let biased : Nat := bits / Nat.pow 2 fractionBits % Nat.pow 2 11
  let fraction := bits % Nat.pow 2 fractionBits
  if biased = Nat.pow 2 11 - 1 then
    if fraction = 0 then .infinite negative else .nan
  else if biased = 0 then .finite negative fraction leastExponent
  else .finite negative (Nat.pow 2 fractionBits + fraction) ((biased : Int) - 1 + leastExponent)

/-- The number `m · 2^q` times `scale` as a fraction. -/
def scaled (m : Nat) (q : Int) (scale : Nat) : Nat × Nat :=
  (m * Nat.pow 2 q.toNat * scale, Nat.pow 2 (-q).toNat)

/-- The integer part, the fraction being dropped. -/
def truncate? : Binary64 → Option Int
  | .finite negative m q =>
    let (num, den) := scaled m q 1
    let whole : Int := (num / den : Nat)
    some (if negative then -whole else whole)
  | _ => none

end Binary64

end Biobjective
