import TapeMachine.Numeral.Integer

/-!
# Reading decimal fractions

A decimal is written as an optional sign, digits with an optional point among them or at either end
of them, and an optional exponent. Underscores may stand between digits as in integers. `inf`,
`infinity` and `nan` are written in any case, and `nan` may have a sign that means nothing.

The value is kept exactly, as digits and a power of ten. There is no limit on the number of digits
and none on the exponent.
-/

namespace TapeMachine

namespace Numeral

/-- A decimal as it is written. -/
inductive Decimal where
  /-- The number that the digits write, times the given power of ten. -/
  | finite (negative : Bool) (digits : List Nat) (exponent : Int)
  | infinite (negative : Bool)
  | nan
deriving DecidableEq, Repr, Inhabited

/-- The digits of a run that may be missing. -/
def optionalDigits? (digit? : Char → Option Nat) (run : List Char) : Option (List Nat) :=
  if run.isEmpty then some [] else digits? digit? run

/-- The exponent that follows the digits of a decimal; none is zero. -/
def exponent? (digit? : Char → Option Nat) : List Char → Option Int
  | [] => some 0
  | mark :: rest =>
    if mark = 'e' ∨ mark = 'E' then
      let (negative, run) := splitSign rest
      (digits? digit? run).map fun digits => withSign negative (value digits)
    else
      none

/-- Whether a character can stand in a run of digits; nothing else in a decimal can be one. -/
def inRun (digit? : Char → Option Nat) (c : Char) : Bool :=
  c == '_' || (digit? c).isSome

/-- Splits off the run of digits at the start of a text. -/
def splitRun (digit? : Char → Option Nat) (text : List Char) : List Char × List Char :=
  (text.takeWhile (inRun digit?), text.dropWhile (inRun digit?))

/-- Reads a decimal without sign and blanks. -/
def unsigned? (digit? : Char → Option Nat) (negative : Bool) (text : List Char) :
    Option Decimal :=
  let word := String.ofList (text.map Char.toLower)
  if word = "inf" ∨ word = "infinity" then
    some (.infinite negative)
  else if word = "nan" then
    some .nan
  else
    let (wholeRun, rest) := splitRun digit? text
    let (fractionRun, rest) :=
      match rest with
      | '.' :: rest => splitRun digit? rest
      | _ => ([], rest)
    if wholeRun.isEmpty && fractionRun.isEmpty then
      none
    else
      match optionalDigits? digit? wholeRun, optionalDigits? digit? fractionRun,
        exponent? digit? rest with
      | some whole, some fraction, some exponent =>
        some (.finite negative (whole ++ fraction) (exponent - fraction.length))
      | _, _, _ => none

/-- Reads a decimal. -/
def toDecimal? (script : Script) (text : List Char) : Option Decimal :=
  let (negative, body) := splitSign (Text.trim script.isBlank text)
  unsigned? script.digit? negative body

end Numeral

end TapeMachine
