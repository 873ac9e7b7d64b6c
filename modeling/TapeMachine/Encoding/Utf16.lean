import TapeMachine.Encoding.Flaw

/-!
# UTF-16 in little-endian order

Each character is one 16-bit unit, or a pair of surrogate units. The low byte of a unit comes first.
-/

namespace TapeMachine

namespace Encoding

namespace Utf16

/-- The unit with the given bytes. -/
def unit (low high : UInt8) : Nat :=
  low.toNat + 256 * high.toNat

/-- Whether a unit is the first of a surrogate pair. -/
def isHighSurrogate (u : Nat) : Bool :=
  0xD800 ≤ u && u < 0xDC00

/-- Whether a unit is the second of a surrogate pair. -/
def isLowSurrogate (u : Nat) : Bool :=
  0xDC00 ≤ u && u < 0xE000

/-- Reads bytes, appending to the characters read before. -/
def decodeFrom (read : Array Char) : List UInt8 → Except Flaw (Array Char)
  | [] => .ok read
  | [_] => .error .truncated
  | [a, b] =>
    let u := unit a b
    if isHighSurrogate u then .error .unexpectedEnd
    else if isLowSurrogate u then .error .loneSurrogate
    else .ok (read.push (Char.ofNat u))
  | [a, b, _] =>
    let u := unit a b
    if isHighSurrogate u then .error .unexpectedEnd
    else if isLowSurrogate u then .error .loneSurrogate
    else .error .truncated
  | a :: b :: c :: d :: rest =>
    let u := unit a b
    if isHighSurrogate u then
      let v := unit c d
      if isLowSurrogate v then
        decodeFrom (read.push (Char.ofNat (0x10000 + (u - 0xD800) * 0x400 + (v - 0xDC00)))) rest
      else
        .error .brokenPair
    else if isLowSurrogate u then
      .error .loneSurrogate
    else
      decodeFrom (read.push (Char.ofNat u)) (c :: d :: rest)

/-- The text that bytes hold. -/
def decode (bytes : List UInt8) : Except Flaw (List Char) :=
  (decodeFrom #[] bytes).map Array.toList

end Utf16

end Encoding

end TapeMachine
