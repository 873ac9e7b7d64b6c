import TapeMachine.Encoding.Flaw

/-!
# UTF-8

A strict reader. The first byte of a character says how many bytes follow and, at four places, which
values the second byte may have: they exclude overlong forms, surrogates and codes above `10FFFF`.
The bytes of a character are looked at in order, so a wrong one is reported before the lack of one
that would come after it.
-/

namespace TapeMachine

namespace Encoding

namespace Utf8

/-- How many bytes follow the first byte of a character, and the bounds for the first of them. -/
def follow? (lead : Nat) : Option (Nat × Nat × Nat) :=
  if lead < 0x80 then some (0, 0x80, 0xBF)
  else if lead < 0xC2 then none
  else if lead < 0xE0 then some (1, 0x80, 0xBF)
  else if lead = 0xE0 then some (2, 0xA0, 0xBF)
  else if lead = 0xED then some (2, 0x80, 0x9F)
  else if lead < 0xF0 then some (2, 0x80, 0xBF)
  else if lead = 0xF0 then some (3, 0x90, 0xBF)
  else if lead < 0xF4 then some (3, 0x80, 0xBF)
  else if lead = 0xF4 then some (3, 0x80, 0x8F)
  else none

/-- The part of a character's code that its first byte gives, if that many bytes follow. -/
def leadBits (lead count : Nat) : Nat :=
  match count with
  | 0 => lead
  | 1 => lead - 0xC0
  | 2 => lead - 0xE0
  | _ => lead - 0xF0

/-- Reads bytes, appending to the characters read before. Inside a character, `count` more bytes are
to come, the next one between `low` and `high`, and `code` has been gathered so far. -/
def decodeFrom (read : Array Char) (code : Nat) (count low high : Nat) :
    List UInt8 → Except Flaw (Array Char)
  | [] => if count = 0 then .ok read else .error .unexpectedEnd
  | byte :: rest =>
    match count with
    | 0 =>
      match follow? byte.toNat with
      | none => .error .invalidStart
      | some (0, _, _) => decodeFrom (read.push (Char.ofNat byte.toNat)) 0 0 low high rest
      | some (count + 1, low, high) =>
        decodeFrom read (leadBits byte.toNat (count + 1)) (count + 1) low high rest
    | count + 1 =>
      if low ≤ byte.toNat ∧ byte.toNat ≤ high then
        let code := 64 * code + (byte.toNat - 0x80)
        if count = 0 then
          decodeFrom (read.push (Char.ofNat code)) 0 0 low high rest
        else
          decodeFrom read code count 0x80 0xBF rest
      else
        .error .invalidContinuation

/-- The text that bytes hold. -/
def decode (bytes : List UInt8) : Except Flaw (List Char) :=
  (decodeFrom #[] 0 0 0x80 0xBF bytes).map Array.toList

/-- The three bytes by which a text may be marked as UTF-8. -/
def mark : List UInt8 :=
  [0xEF, 0xBB, 0xBF]

/-- The text that bytes hold if a mark in front of it does not count. Bytes that are only the
beginning of a mark are taken for one. -/
def decodeMarked (bytes : List UInt8) : Except Flaw (List Char) :=
  if bytes.isPrefixOf mark then .ok []
  else if mark.isPrefixOf bytes then decode (bytes.drop mark.length)
  else decode bytes

end Utf8

end Encoding

end TapeMachine
