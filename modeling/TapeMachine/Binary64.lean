import TapeMachine.Numeral.Decimal

/-!
# Binary floating point

Numbers with 53 significant bits and an exponent of at least -1074, infinities, and the value that
is no number. All that this library does with them is to round a decimal to the nearest one, to cut
off a fraction, and to compare with a bound, so a number is kept as an exact mantissa and exponent
and every computation is one on integers.
-/

namespace TapeMachine

/-- A double-precision number. -/
inductive Binary64 where
  /-- The mantissa times the given power of two. -/
  | finite (negative : Bool) (mantissa : Nat) (exponent : Int)
  | infinite (negative : Bool)
  | nan
deriving DecidableEq, Repr, Inhabited

namespace Binary64

/-! ## Rounding -/

/-- A power of two. -/
def twoTo (n : Nat) : Nat :=
  Nat.pow 2 n

/-- A power of ten. -/
def tenTo (n : Nat) : Nat :=
  Nat.pow 10 n

/-- A quotient rounded to the nearest integer, and to the even one of two that are equally near. -/
def roundHalfEven (num den : Nat) : Nat :=
  let quotient := num / den
  let rest := num % den
  if 2 * rest < den then quotient
  else if den < 2 * rest then quotient + 1
  else quotient + quotient % 2

/-- The ratio divided by a power of two, again as a numerator and a denominator. -/
def scaleDown (num den : Nat) (exponent : Int) : Nat × Nat :=
  if 0 ≤ exponent then (num, den * twoTo exponent.toNat)
  else (num * twoTo (-exponent).toNat, den)

/-- The exponent of the last bit kept of a ratio: that of its 53rd significant bit, or the least
one there is. The logarithms of numerator and denominator determine it up to one. -/
def unitExponent (num den : Nat) : Int :=
  let guess : Int := num.log2 - den.log2 - 52
  let scaled := scaleDown num den guess
  max (-1074) (if scaled.1 < scaled.2 * twoTo 52 then guess - 1 else guess)

/-- The number nearest to a ratio. What would reach `2 ^ 1024` is infinite. -/
def ofRatio (negative : Bool) (num den : Nat) : Binary64 :=
  if num = 0 then
    .finite negative 0 0
  else
    let exponent := unitExponent num den
    let scaled := scaleDown num den exponent
    let mantissa := roundHalfEven scaled.1 scaled.2
    if 0 ≤ exponent ∧ twoTo 1024 ≤ mantissa * twoTo exponent.toNat then
      .infinite negative
    else
      .finite negative mantissa exponent

/-- The number nearest to a decimal. Decimals from `10 ^ 401` on and below `10 ^ -400` are decided
by their exponent alone, so that an exponent of any size is harmless. -/
def ofDecimal : Numeral.Decimal → Binary64
  | .finite negative digits exponent =>
    let coefficient := Numeral.value digits
    if coefficient = 0 ∨ digits.length + exponent < -400 then
      .finite negative 0 0
    else if 400 < exponent then
      .infinite negative
    else if 0 ≤ exponent then
      ofRatio negative (coefficient * tenTo exponent.toNat) 1
    else
      ofRatio negative coefficient (tenTo (-exponent).toNat)
  | .infinite negative => .infinite negative
  | .nan => .nan

/-- The number that a text writes, its digits taken from any script. -/
def ofText? (text : String) : Option Binary64 :=
  (Numeral.toDecimal? .universal text.toList).map ofDecimal

/-! ## Use -/

/-- The size of a finite number without its fraction. -/
def wholePart (mantissa : Nat) (exponent : Int) : Nat :=
  if 0 ≤ exponent then mantissa * twoTo exponent.toNat else mantissa / twoTo (-exponent).toNat

/-- Whether a number is greater than zero. -/
def isPositive : Binary64 → Bool
  | .finite negative mantissa _ => !negative && mantissa != 0
  | .infinite negative => !negative
  | .nan => false

end Binary64

end TapeMachine
