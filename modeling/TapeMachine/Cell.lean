/-!
# Cells

A cell of the tape is a signed 32-bit word. Arithmetic on it wraps around at both limits, so the
word type itself carries the bound and no operation has to restore it. Integers of any size enter
the tape only through `Cell.wrap`.
-/

namespace TapeMachine

/-- The contents of one position of the tape: a signed 32-bit word with wraparound. -/
abbrev Cell := Int32

namespace Cell

/-- The cell that an integer of any size wraps to. -/
def wrap (n : Int) : Cell :=
  Int32.ofInt n

/-- The integer in a wrapped cell is the balanced remainder modulo `2 ^ 32`, the number of cell
values: the one integer in `-2 ^ 31 .. 2 ^ 31 - 1` congruent to the given one. -/
theorem toInt_wrap (n : Int) : (wrap n).toInt = n.bmod Int32.size :=
  Int32.toInt_ofInt

/-- Wrapping the integer in a cell gives the cell back. -/
@[simp] theorem wrap_toInt (c : Cell) : wrap c.toInt = c :=
  Int32.ofInt_toInt c

end Cell

end TapeMachine
