import TapeMachine.Text.Printable

/-!
# Quoted text

The form in which a text is shown in a message: in quotation marks, on one line, every character
that does not show as itself replaced by an escape. The marks are single ones, unless the text has
single ones in it and no double ones.
-/

namespace TapeMachine

namespace Text

/-- The digits of a number in base sixteen, filled up with zeros to a width. -/
def hex (width n : Nat) : String :=
  let digits := Nat.toDigits 16 n
  String.ofList (List.replicate (width - digits.length) '0' ++ digits)

/-- The escape of a character by its code, in the shortest of three widths that holds it. -/
def escapeCode (c : Char) : String :=
  let n := c.toNat
  if n < 0x100 then "\\x" ++ hex 2 n
  else if n < 0x10000 then "\\u" ++ hex 4 n
  else "\\U" ++ hex 8 n

/-- A character as it stands between the given quotation marks. -/
def quoteChar (mark c : Char) : String :=
  if c = mark ∨ c = '\\' then String.ofList ['\\', c]
  else if c = '\t' then "\\t"
  else if c = '\n' then "\\n"
  else if c = '\r' then "\\r"
  else if isPrintable c then String.singleton c
  else escapeCode c

/-- The quotation mark for a text. -/
def quotationMark (text : String) : Char :=
  if text.toList.contains '\'' && !text.toList.contains '"' then '"' else '\''

/-- A text in quotation marks. -/
def quote (text : String) : String :=
  let mark := quotationMark text
  String.singleton mark ++ String.join (text.toList.map (quoteChar mark)) ++ String.singleton mark

end Text

end TapeMachine
