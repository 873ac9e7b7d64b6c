import TapeMachine.Numeral.Written
import TapeMachine.Tape.Basic

/-!
# The tape as a sequence

The cells of a tape in order, from the left end to the right, found by following the links. What
is shown of a tape, its line of text included, is computed from this sequence.
-/

namespace TapeMachine

namespace Tape

/-- A cell as it is seen from outside. -/
structure Entry where
  id : Nat
  value : Cell
  isCurrent : Bool
deriving DecidableEq, Repr, Inhabited

/-- At most `count` ids, following the links to the right from the given id. -/
def follow (t : Tape) : Nat → Option Nat → List Nat
  | 0, _ => []
  | _ + 1, none => []
  | count + 1, some id => id :: t.follow count (t.rightOf id)

/-- The ids from the left end to the right. A tape has no more cells than its size, so that many
links are followed at most. -/
def order (t : Tape) : List Nat :=
  t.follow t.size (some t.leftmost)

/-- The cell with the given id as it is seen from outside. -/
def entry (t : Tape) (id : Nat) : Entry where
  id := id
  value := t.valueAt id
  isCurrent := id == t.current

/-- The cells from the left end to the right. -/
def entries (t : Tape) : List Entry :=
  t.order.map t.entry

/-- The values from the left end to the right, each with a mark that tells whether the head is
there. -/
def snapshot (t : Tape) : List (Cell × Bool) :=
  t.entries.map fun e => (e.value, e.isCurrent)

/-- The values from the left end to the right. -/
def toList (t : Tape) : List Cell :=
  t.entries.map (·.value)

/-- A value as it stands in a line of text, in square brackets if the head is there. -/
def renderCell (cell : Cell × Bool) : String :=
  if cell.2 then "[" ++ Numeral.ofInt cell.1.toInt ++ "]" else Numeral.ofInt cell.1.toInt

/-- A snapshot as one line of text: the values with a blank between them. -/
def renderSnapshot (cells : List (Cell × Bool)) : String :=
  " ".intercalate (cells.map renderCell)

/-- The tape as a text that says what it is: its cells with a blank between them. -/
def render (t : Tape) : String :=
  "Tape(" ++ " ".intercalate (t.entries.map fun e => renderCell (e.value, e.isCurrent)) ++ ")"

end Tape

end TapeMachine
