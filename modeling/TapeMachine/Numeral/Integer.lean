import TapeMachine.Numeral.Digit
import TapeMachine.Text.WhiteSpace

/-!
# Reading integers

An integer is written as an optional sign and a run of digits, with blanks around it. Single
underscores may stand between digits. A run may have 4300 digits at most, leading zeros included;
a longer one is refused, because reading it would take too long.

What counts as a digit and as a blank is given by a `Script`: text may use the digits of any script
that Unicode knows, bytes only those of ASCII.
-/

namespace TapeMachine

namespace Numeral

/-- The characters that numerals are written with. -/
structure Script where
  isBlank : Char → Bool
  digit? : Char → Option Nat

/-- Blanks and digits of all scripts. -/
def Script.universal : Script where
  isBlank := Text.isWhiteSpace
  digit? := Numeral.digit?

/-- Blanks and digits of ASCII. -/
def Script.ascii : Script where
  isBlank := Text.isAsciiWhiteSpace
  digit? := asciiDigit?

/-- The greatest number of digits that an integer may be written with. -/
def maxDigits : Nat :=
  4300

/-- The digits of a run: a digit, and if there is more, perhaps an underscore and another run. -/
def digits? (digit? : Char → Option Nat) : List Char → Option (List Nat)
  | [] => none
  | [c] => (digit? c).map ([·])
  | c :: '_' :: rest => (digit? c).bind fun d => (digits? digit? rest).map (d :: ·)
  | c :: rest => (digit? c).bind fun d => (digits? digit? rest).map (d :: ·)

/-- Whether a text starts with a minus sign, and what follows the sign if there is one. -/
def splitSign : List Char → Bool × List Char
  | '-' :: rest => (true, rest)
  | '+' :: rest => (false, rest)
  | text => (false, text)

/-- A number with the given sign and size. -/
def withSign (negative : Bool) (size : Nat) : Int :=
  if negative then -(size : Int) else size

/-- Reads an integer. -/
def toInt? (script : Script) (text : List Char) : Option Int :=
  let (negative, run) := splitSign (Text.trim script.isBlank text)
  match digits? script.digit? run with
  | none => none
  | some digits =>
    if digits.length ≤ maxDigits then some (withSign negative (value digits)) else none

end Numeral

end TapeMachine
