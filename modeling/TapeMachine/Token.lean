import TapeMachine.Cell
import TapeMachine.Numeral.Written

/-!
# Display tokens

A printed cell value is shown as one token. Printable ASCII codes show as the character itself,
six control codes have a name in angle brackets, and every other integer is written out as
`<value N>`. The three shapes never overlap: a token of one character is printable, and only the
last shape contains a blank after its first character.

An integer that cannot be written has no token (`Token.ofInt?`). Every cell has one
(`Token.ofInt?_toInt`).
-/

namespace TapeMachine

namespace Token

/-- The name of a control code that has one. -/
def controlName? : Int → Option String
  | 0 => some "<NUL>"
  | 7 => some "<BEL>"
  | 8 => some "<BS>"
  | 9 => some "<TAB>"
  | 10 => some "<LF>"
  | 13 => some "<CR>"
  | _ => none

/-- The display token of an integer, given how the integer is written. -/
def display (n : Int) (number : String) : String :=
  if 32 ≤ n ∧ n ≤ 126 then
    String.singleton (Char.ofNat n.toNat)
  else
    match controlName? n with
    | some name => name
    | none => "<value " ++ number ++ ">"

/-- The display token of an integer of any size. What is too long to be written has none. -/
def ofInt? (n : Int) : Option String :=
  (Numeral.ofInt? n).map (display n)

/-- The display token of a cell. -/
def ofCell (c : Cell) : String :=
  display c.toInt (Numeral.ofInt c.toInt)

end Token

end TapeMachine
