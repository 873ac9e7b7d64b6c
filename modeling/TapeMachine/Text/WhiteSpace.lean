/-!
# White space

The characters with the Unicode property `White_Space`, the four information separators that are
also cut from the ends of a text, and the cutting itself.
-/

namespace TapeMachine

namespace Text

/-- Whether a character has the Unicode property `White_Space`. -/
def isWhiteSpace (c : Char) : Bool :=
  let n := c.toNat
  (0x9 ≤ n && n ≤ 0xD) || n == 0x20 || n == 0x85 || n == 0xA0 || n == 0x1680 ||
    (0x2000 ≤ n && n ≤ 0x200A) || n == 0x2028 || n == 0x2029 || n == 0x202F || n == 0x205F ||
    n == 0x3000

/-- Whether a character is white space of the ASCII range. -/
def isAsciiWhiteSpace (c : Char) : Bool :=
  let n := c.toNat
  (0x9 ≤ n && n ≤ 0xD) || n == 0x20

/-- Whether a character is one of the file, group, record and unit separators. -/
def isInformationSeparator (c : Char) : Bool :=
  0x1C ≤ c.toNat && c.toNat ≤ 0x1F

/-- Cuts the characters of a class from both ends of a text. -/
def trim (cut : Char → Bool) (text : List Char) : List Char :=
  ((text.dropWhile cut).reverse.dropWhile cut).reverse

end Text

end TapeMachine
