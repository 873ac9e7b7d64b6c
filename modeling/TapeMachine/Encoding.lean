import TapeMachine.Encoding.Utf16
import TapeMachine.Encoding.Utf8

/-!
# Encodings

The text encodings that program files may be in, and the names by which they are asked for. Names
are compared without regard to case and to the characters that divide their parts.
-/

namespace TapeMachine

/-- A way to write text as bytes. -/
inductive Encoding where
  | utf8
  /-- UTF-8 with a mark in front. -/
  | utf8Marked
  | ascii
  | latin1
  | utf16le
deriving DecidableEq, Repr, Inhabited

namespace Encoding

/-! ## Names -/

/-- The parts of a name: its longest runs of letters, digits and dots, in small letters. -/
def nameParts (parts : List String) (part : String) : List Char → List String
  | [] => if part.isEmpty then parts else parts ++ [part]
  | c :: rest =>
    if c.isAlphanum || c == '.' then
      nameParts parts (part.push c.toLower) rest
    else
      nameParts (if part.isEmpty then parts else parts ++ [part]) "" rest

/-- The parts of a name with an underscore between them. -/
def plainName (name : String) : String :=
  "_".intercalate (nameParts [] "" name.toList)

/-- The encoding with a name. -/
def ofName? (name : String) : Option Encoding :=
  let plain := plainName name
  if ["utf_8", "utf8", "u8", "utf", "utf8_ucs2", "utf8_ucs4", "cp65001"].contains plain then
    some .utf8
  else if ["utf_8_sig"].contains plain then
    some .utf8Marked
  else if ["ascii", "us_ascii", "us", "646", "ansi_x3.4_1968", "ansi_x3_4_1968", "ansi_x3.4_1986",
      "cp367", "csascii", "ibm367", "iso646_us", "iso_646.irv_1991", "iso_ir_6"].contains plain then
    some .ascii
  else if ["latin_1", "latin1", "latin", "l1", "iso_8859_1", "iso8859_1", "iso8859", "8859",
      "cp819", "csisolatin1", "ibm819", "iso_8859_1_1987", "iso_ir_100"].contains plain then
    some .latin1
  else if ["utf_16_le", "utf_16le", "unicodelittleunmarked"].contains plain then
    some .utf16le
  else
    none

/-! ## Reading -/

/-- Reads bytes that are ASCII codes, appending to the characters read before. -/
def decodeAsciiFrom (read : Array Char) : List UInt8 → Except Flaw (Array Char)
  | [] => .ok read
  | byte :: rest =>
    if byte.toNat < 0x80 then decodeAsciiFrom (read.push (Char.ofNat byte.toNat)) rest
    else .error .notAscii

/-- The text that bytes hold in an encoding. -/
def decode : Encoding → List UInt8 → Except Flaw (List Char)
  | .utf8, bytes => Utf8.decode bytes
  | .utf8Marked, bytes => Utf8.decodeMarked bytes
  | .ascii, bytes => (decodeAsciiFrom #[] bytes).map Array.toList
  | .latin1, bytes => .ok (bytes.map fun byte => Char.ofNat byte.toNat)
  | .utf16le, bytes => Utf16.decode bytes

end Encoding

end TapeMachine
