import TapeMachine.Binary64
import TapeMachine.Cell
import TapeMachine.Fault

/-!
# Data from outside

Cell values, cell ids, programs and opcode tables come from callers as untyped data. This module
says how each of them is read.

A cell value is read leniently: whatever does not read as a number is zero. A cell id is read
strictly, and what does not read as an integer is a fault. The difference for text is that a cell
value may also be a decimal, whose fraction is cut off after rounding to double precision.

Values of other kinds than those that are listed bring their own conversion to an integer. It gives
an integer or fails in one of the three ways in which conversions fail (`Datum.Misfit`), and these
are the failures that reading a cell value makes up for. So every datum offers a cell value
(`Datum.toCell`). A conversion that fails in a way of its own, or that does something to the machine
while it converts, is no datum: it is code of the caller, and what comes of it is not said here.
-/

namespace TapeMachine

/-- Why a value does not read as an integer. -/
inductive Datum.Misfit where
  /-- Its kind does not fit. -/
  | unsuitable
  /-- It names no integer. -/
  | unreadable
  /-- It is infinite. -/
  | infinite
deriving DecidableEq, Repr, Inhabited

/-- The fault that a misfit is reported as. -/
def Datum.Misfit.fault : Misfit → Fault
  | .unsuitable => .unsuitable
  | .unreadable => .unreadable
  | .infinite => .infinite

/-- A value from outside. -/
inductive Datum where
  | null
  | bool (b : Bool)
  | int (n : Int)
  | double (x : Binary64)
  | text (s : String)
  | bytes (bs : List UInt8)
  | list (items : List Datum)
  /-- Fields with different names, in the order in which they were given. -/
  | record (fields : List (String × Datum))
  /-- A value of another kind, with what its own conversion to an integer comes to. It is no
  sequence and no table. -/
  | custom (kind : String) (number : Except Datum.Misfit Int)
deriving Inhabited

namespace Datum

/-- The name of a kind of data in reports. -/
def kind : Datum → String
  | .null => "NoneType"
  | .bool _ => "bool"
  | .int _ => "int"
  | .double _ => "float"
  | .text _ => "str"
  | .bytes _ => "bytes"
  | .list _ => "list"
  | .record _ => "dict"
  | .custom kind _ => kind

/-! ## Integers -/

/-- A double-precision number without its fraction. -/
def truncate : Binary64 → Except Fault Int
  | .finite negative mantissa exponent =>
    .ok (Numeral.withSign negative (Binary64.wholePart mantissa exponent))
  | .infinite _ => .error .infinite
  | .nan => .error .unreadable

/-- Bytes as characters with the same codes. -/
def charsOfBytes (bs : List UInt8) : List Char :=
  bs.map fun b => Char.ofNat b.toNat

/-- The integer that a datum names. -/
def toInt : Datum → Except Fault Int
  | .bool b => .ok (if b then 1 else 0)
  | .int n => .ok n
  | .double x => truncate x
  | .text s => (Numeral.toInt? .universal s.toList).elim (.error .unreadable) .ok
  | .bytes bs => (Numeral.toInt? .ascii (charsOfBytes bs)).elim (.error .unreadable) .ok
  | .null | .list _ | .record _ => .error .unsuitable
  | .custom _ number => number.mapError Misfit.fault

/-! ## Cell values -/

/-- Whether a character is cut from the ends of a text before it is read as a cell value. -/
def isCut (c : Char) : Bool :=
  Text.isWhiteSpace c || Text.isInformationSeparator c

/-- The integer that a text offers as a cell value: an integer, or a decimal without its
fraction. -/
def textToInt (text : List Char) : Except Fault Int :=
  let text := Text.trim isCut text
  match Numeral.toInt? .universal text with
  | some n => .ok n
  | none =>
    match Numeral.toDecimal? .universal text with
    | some decimal => truncate (.ofDecimal decimal)
    | none => .error .unreadable

/-- The cell value that a datum offers; zero if it offers none. -/
def toCell (d : Datum) : Cell :=
  let number :=
    match d with
    | .text s => textToInt s.toList
    | _ => d.toInt
  match number with
  | .ok n => Cell.wrap n
  | .error _ => 0

/-! ## Sequences and tables -/

/-- The members of a datum that is a sequence: those of a list, the characters of a text, the bytes
of bytes, the field names of a record. -/
def members : Datum → Except Fault (List Datum)
  | .list items => .ok items
  | .text s => .ok (s.toList.map fun c => .text (String.singleton c))
  | .bytes bs => .ok (bs.map fun b => .int b.toNat)
  | .record fields => .ok (fields.map fun field => .text field.1)
  | .null | .bool _ | .int _ | .double _ | .custom _ _ => .error .unsuitable

/-- The cell values that a sequence offers. -/
def toCells (d : Datum) : Except Fault (List Cell) :=
  d.members.map (·.map toCell)

/-- Whether a datum is the given text. -/
def isText (s : String) : Datum → Bool
  | .text t => t == s
  | _ => false

/-- What a table of opcodes has for a character. A record is a table. A list or a text is one only
as far as it does not contain the character, and everything else is none at all. -/
def opcode? (table : Datum) (c : Char) : Except Fault (Option Cell) :=
  match table with
  | .record fields => .ok ((fields.lookup (String.singleton c)).map toCell)
  | .list items => if items.any (isText (String.singleton c)) then .error .unsuitable else .ok none
  | .text s => if s.toList.contains c then .error .unsuitable else .ok none
  | .null | .bool _ | .int _ | .double _ | .bytes _ | .custom _ _ => .error .unsuitable

/-- The opcodes of the characters of a program that are in a table. -/
def opcodes (table : Datum) (text : List Char) : Except Fault (List Cell) :=
  (text.mapM table.opcode?).map fun found => found.filterMap id

/-- The opcodes by which a program is put on the tape if no other table is given. -/
def standardOpcodes : Datum :=
  .record [("+", .int 1), ("-", .int 2), (">", .int 3), ("<", .int 4), (".", .int 5),
    ("[", .int 6), ("]", .int 7)]

/-! ## Programs and waiting -/

/-- The text of a program. -/
def programText : Datum → Except Fault String
  | .text s => .ok s
  | d => .error (.load (.notText d.kind))

/-- Whether a number of seconds, given as a ratio, is too much for a clock that counts nanoseconds
in 63 bits. -/
def exceedsClock (num den : Nat) : Bool :=
  decide (Binary64.twoTo 63 * den ≤ num * Binary64.tenTo 9)

/-- Why a run cannot wait for the given number of seconds between steps, if it cannot. -/
def delayFault? : Datum → Option Fault
  | .bool _ => none
  | .int n => if 0 < n ∧ exceedsClock n.toNat 1 then some .delayTooLong else none
  | .double x =>
    if x.isPositive then
      match x with
      | .finite _ mantissa exponent =>
        let scaled := Binary64.scaleDown mantissa 1 (-exponent)
        if exceedsClock scaled.1 scaled.2 then some .delayTooLong else none
      | .infinite _ | .nan => some .delayTooLong
    else
      none
  | .null | .text _ | .bytes _ | .list _ | .record _ | .custom _ _ => some .unsuitable

end Datum

end TapeMachine
