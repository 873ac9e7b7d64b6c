import TapeMachine.Cell

/-!
# The tape

The tape grows on demand at both ends. Its cells live in an arena of slots and link to their
neighbours by slot number, so the number of a cell, its *id*, never changes once it is allocated,
whatever grows around it. Ids are handed out in order of allocation: 0, 1, 2, ….

The arena has more slots than the tape has cells. Slots from `size` on are spare; their contents
are never read before they are overwritten. `Tape.reserve` is the only operation that adds slots,
and it at least doubles their number.

Every operation here is total. Reading a slot that does not exist gives the spare slot, and
writing to one does nothing; neither happens on a tape that these operations have built.
-/

namespace TapeMachine

/-- One place of the arena: a cell and the ids of its neighbours, `none` standing for a side on
which nothing has been allocated yet. -/
structure Slot where
  value : Cell := 0
  left : Option Nat := none
  right : Option Nat := none
deriving DecidableEq, Repr, Inhabited

/-- A tape of cells that link to each other in an arena of slots. -/
structure Tape where
  /-- The arena. -/
  slots : Array Slot
  /-- How many slots hold cells: those with the ids below `size`. -/
  size : Nat
  /-- The id of the cell under the head. -/
  current : Nat
  /-- The id of the first cell in tape order. -/
  leftmost : Nat
  /-- The id of the last cell in tape order. -/
  rightmost : Nat
deriving DecidableEq, Repr, Inhabited

namespace Tape

/-! ## Building -/

/-- The slot of cell `i` of a row of `n` cells that are linked in the order of their ids. -/
def rowSlot (n i : Nat) (value : Cell) : Slot where
  value := value
  left := if i = 0 then none else some (i - 1)
  right := if i + 1 < n then some (i + 1) else none

/-- The number of slots with which a row of `n` cells starts. -/
def rowCapacity (n : Nat) : Nat :=
  max 16 (2 * n)

/-- The tape whose cells have the given values from left to right, the head on the first. -/
def row (values : List Cell) : Tape where
  slots := (values.mapIdx (rowSlot values.length)).toArray ++
    Array.replicate (rowCapacity values.length - values.length) {}
  size := values.length
  current := 0
  leftmost := 0
  rightmost := values.length - 1

/-- The tape with the given values; a tape is never empty, so without any value it has one zero
cell. -/
def ofCells (values : List Cell) : Tape :=
  if values.isEmpty then row [0] else row values

/-- The tape that a program starts on: one zero cell. -/
def blank : Tape :=
  ofCells []

/-! ## The arena -/

/-- The number of slots in the arena. -/
def capacity (t : Tape) : Nat :=
  t.slots.size

/-- Whether every slot of the arena holds a cell. -/
def full (t : Tape) : Bool :=
  decide (t.capacity ≤ t.size)

/-- The slot with the given id. -/
def slot (t : Tape) (id : Nat) : Slot :=
  t.slots[id]?.getD {}

/-- The value of the cell with the given id. -/
def valueAt (t : Tape) (id : Nat) : Cell :=
  (t.slot id).value

/-- The neighbour to the left of the cell with the given id. -/
def leftOf (t : Tape) (id : Nat) : Option Nat :=
  (t.slot id).left

/-- The neighbour to the right of the cell with the given id. -/
def rightOf (t : Tape) (id : Nat) : Option Nat :=
  (t.slot id).right

/-- Makes room for `extra` more cells. If they do not fit, the arena is doubled, or grown to the
exact need where doubling is not enough. -/
def reserve (t : Tape) (extra : Int) : Tape :=
  if t.size + extra ≤ t.capacity then
    t
  else
    let target := max (2 * t.capacity) (t.size + extra).toNat
    { t with slots := t.slots ++ Array.replicate (target - t.capacity) {} }

@[simp] theorem size_reserve (t : Tape) (extra : Int) : (t.reserve extra).size = t.size := by
  unfold reserve
  split <;> rfl

/-- After `reserve` there is the room that was asked for. -/
theorem size_add_le_capacity_reserve (t : Tape) (extra : Int) :
    t.size + extra ≤ (t.reserve extra).capacity := by
  unfold reserve
  split
  · assumption
  · simp only [capacity, Array.size_append, Array.size_replicate]
    omega

/-- Allocates a zero cell without neighbours. Its id is the size of the tape before. -/
def alloc (t : Tape) : Tape :=
  let t := t.reserve 1
  { t with slots := t.slots.setIfInBounds t.size {}, size := t.size + 1 }

/-- Makes the second cell the right neighbour of the first. -/
def link (t : Tape) (a b : Nat) : Tape :=
  { t with
    slots := (t.slots.modify a ({ · with right := some b })).modify b
      ({ · with left := some a }) }

/-- Replaces the value of the cell with the given id. -/
def setAt (t : Tape) (id : Nat) (value : Cell) : Tape :=
  { t with slots := t.slots.modify id ({ · with value := value }) }

/-! ## The head -/

/-- The value under the head. -/
def read (t : Tape) : Cell :=
  t.valueAt t.current

/-- Replaces the value under the head. -/
def write (t : Tape) (value : Cell) : Tape :=
  t.setAt t.current value

/-- Adds one to the value under the head. -/
def increment (t : Tape) : Tape :=
  t.write (t.read + 1)

/-- Subtracts one from the value under the head. -/
def decrement (t : Tape) : Tape :=
  t.write (t.read - 1)

/-- Moves the head one cell to the right, allocating that cell if there is none. -/
def moveRight (t : Tape) : Tape :=
  match t.rightOf t.current with
  | some next => { t with current := next }
  | none =>
    { t.alloc.link t.current t.size with
      current := t.size
      rightmost := if t.current = t.rightmost then t.size else t.rightmost }

/-- Moves the head one cell to the left, allocating that cell if there is none. -/
def moveLeft (t : Tape) : Tape :=
  match t.leftOf t.current with
  | some next => { t with current := next }
  | none =>
    { t.alloc.link t.size t.current with
      current := t.size
      leftmost := if t.current = t.leftmost then t.size else t.leftmost }

/-! ## Editing -/

/-- Adds a zero cell at the left end. The head stays; the new id is the size of the tape before. -/
def insertLeft (t : Tape) : Tape :=
  { t.alloc.link t.size t.leftmost with leftmost := t.size }

/-- Adds a zero cell at the right end. The head stays; the new id is the size of the tape
before. -/
def insertRight (t : Tape) : Tape :=
  { t.alloc.link t.rightmost t.size with rightmost := t.size }

/-- Replaces the whole tape by a row of the given values; no values, no change. -/
def refill (t : Tape) (values : List Cell) : Tape :=
  if values.isEmpty then t else row values

/-- The cell that an integer names, if there is one with that id. -/
def cellId? (t : Tape) (id : Int) : Option Nat :=
  if 0 ≤ id ∧ id < t.size then some id.toNat else none

end Tape

end TapeMachine
