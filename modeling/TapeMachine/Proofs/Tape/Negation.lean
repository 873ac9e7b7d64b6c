import TapeMachine.Proofs.Tape.WellFormed

/-!
# Negated tapes

A tape with all its values negated has the same links, the same ends and the same head. Nothing that
moves the head or adds a cell looks at a value, and the value of a new cell is its own negative; so
these operations are the same on both (`Tape.moveRight_negate`, `Tape.moveLeft_negate`), and an
increment of the one is a decrement of the other (`Tape.increment_negate`,
`Tape.decrement_negate`).

At the limits this is not as plain as elsewhere: the least cell is its own negative
(`Cell.wrap_neg_toInt` says what a negative is), and counting goes on from there in either direction.
-/

namespace TapeMachine

namespace Cell

/-- The negative of a cell is what the negated integer wraps to. -/
theorem wrap_neg_toInt (c : Cell) : wrap (-c.toInt) = -c := by
  rw [wrap, Int32.ofInt_neg, Int32.ofInt_toInt]

theorem neg_eq_zero_iff {c : Cell} : -c = 0 ↔ c = 0 := by
  rw [← Int32.neg_zero, Int32.neg_inj, Int32.neg_zero]

theorem neg_add_one (c : Cell) : -c + 1 = -(c - 1) := by
  rw [Int32.neg_sub, Int32.sub_eq_add_neg, Int32.add_comm]

theorem neg_sub_one (c : Cell) : -c - 1 = -(c + 1) := by
  rw [Int32.neg_add]

end Cell

/-- The slot with its value negated. -/
def Slot.negate (s : Slot) : Slot :=
  { s with value := -s.value }

@[simp] theorem Slot.negate_spare : ({} : Slot).negate = {} := rfl

namespace Tape

/-- The tape with all its values negated. -/
def negate (t : Tape) : Tape :=
  { t with slots := t.slots.map Slot.negate }

variable (t : Tape)

/-! ### What is seen of a negated tape -/

@[simp] theorem size_negate : t.negate.size = t.size := rfl

@[simp] theorem current_negate : t.negate.current = t.current := rfl

@[simp] theorem leftmost_negate : t.negate.leftmost = t.leftmost := rfl

@[simp] theorem rightmost_negate : t.negate.rightmost = t.rightmost := rfl

@[simp] theorem capacity_negate : t.negate.capacity = t.capacity :=
  Array.size_map

@[simp] theorem slot_negate (id : Nat) : t.negate.slot id = (t.slot id).negate := by
  simp only [slot, negate, Array.getElem?_map]
  cases t.slots[id]? <;> rfl

@[simp] theorem valueAt_negate (id : Nat) : t.negate.valueAt id = -t.valueAt id := by
  rw [valueAt, slot_negate]
  rfl

@[simp] theorem leftOf_negate (id : Nat) : t.negate.leftOf id = t.leftOf id := by
  rw [leftOf, slot_negate]
  rfl

@[simp] theorem rightOf_negate (id : Nat) : t.negate.rightOf id = t.rightOf id := by
  rw [rightOf, slot_negate]
  rfl

@[simp] theorem read_negate : t.negate.read = -t.read :=
  t.valueAt_negate t.current

/-- The columns of the arena that hold links stay. -/
theorem links_negate : t.negate.lefts = t.lefts ∧ t.negate.rights = t.rights := by
  simp only [lefts, rights, negate, Array.map_map]
  exact ⟨rfl, rfl⟩

/-- The tape on which programs start is its own negative. -/
@[simp] theorem negate_blank : blank.negate = blank := by
  have hslots : (row [0]).slots.map Slot.negate = (row [0]).slots := by
    simp [row, rowSlot, Slot.negate]
  simp only [blank, ofCells, List.isEmpty_nil, if_true, negate, hslots]

/-! ### The arena -/

theorem reserve_negate (extra : Int) : t.negate.reserve extra = (t.reserve extra).negate := by
  unfold reserve
  rw [capacity_negate, size_negate]
  split_ifs
  · rfl
  · simp only [negate, Array.map_append, Array.map_replicate, Slot.negate_spare]

theorem alloc_negate : t.negate.alloc = t.alloc.negate := by
  simp only [alloc, reserve_negate, size_negate]
  simp only [negate, Array.map_setIfInBounds, Slot.negate_spare]

theorem link_negate (a b : Nat) : t.negate.link a b = (t.link a b).negate := by
  simp only [link, negate]
  rw [map_modify (g := ({ · with left := some a })) _ b Slot.negate (by intro s; rfl),
    map_modify (g := ({ · with right := some b })) _ a Slot.negate (by intro s; rfl)]

theorem write_negate (value : Cell) : t.negate.write (-value) = (t.write value).negate := by
  simp only [write, setAt, negate]
  rw [map_modify (g := ({ · with value := -value })) _ _ Slot.negate (by intro s; rfl)]

/-! ### The head -/

theorem moveRight_negate : t.negate.moveRight = t.moveRight.negate := by
  unfold moveRight
  rw [current_negate, rightOf_negate]
  rcases t.rightOf t.current with _ | next
  · simp only [alloc_negate, link_negate, size_negate, rightmost_negate]
    rfl
  · rfl

theorem moveLeft_negate : t.negate.moveLeft = t.moveLeft.negate := by
  unfold moveLeft
  rw [current_negate, leftOf_negate]
  rcases t.leftOf t.current with _ | next
  · simp only [alloc_negate, link_negate, size_negate, leftmost_negate]
    rfl
  · rfl

/-- **An increment of the negated tape is a negated decrement.** -/
theorem increment_negate : t.negate.increment = t.decrement.negate := by
  rw [increment, decrement, read_negate, Cell.neg_add_one, write_negate]

/-- **A decrement of the negated tape is a negated increment.** -/
theorem decrement_negate : t.negate.decrement = t.increment.negate := by
  rw [increment, decrement, read_negate, Cell.neg_sub_one, write_negate]

end Tape

end TapeMachine
