import TapeMachine.Proofs.Tape.WellFormed

/-!
# Reflected tapes

A tape seen in a mirror has the same cells in the same slots; only the links to the left and to the
right are exchanged, and with them the two ends. Every operation on one side is the reflection of
the operation on the other (`Tape.moveRight_reflect`, `Tape.insertRight_reflect`), and the order of
the cells is reversed (`Tape.Linked.order_reflect`).

The laws for the operations hold of any arena, whatever its links are. Since reflecting twice gives
the tape back, it is enough to prove them for the right side.
-/

namespace TapeMachine

/-- The slot with its neighbours exchanged. -/
def Slot.reflect (s : Slot) : Slot where
  value := s.value
  left := s.right
  right := s.left

@[simp] theorem Slot.reflect_reflect (s : Slot) : s.reflect.reflect = s := rfl

@[simp] theorem Slot.reflect_spare : ({} : Slot).reflect = {} := rfl

namespace Tape

/-- The tape with left and right exchanged. -/
def reflect (t : Tape) : Tape where
  slots := t.slots.map Slot.reflect
  size := t.size
  current := t.current
  leftmost := t.rightmost
  rightmost := t.leftmost

variable (t : Tape)

/-- Reflecting twice changes nothing. -/
@[simp] theorem reflect_reflect : t.reflect.reflect = t := by
  have hslots : (t.slots.map Slot.reflect).map Slot.reflect = t.slots := by
    rw [Array.map_map]
    exact Array.map_id t.slots
  simp only [reflect, hslots]

/-! ### What is seen of a reflected tape -/

@[simp] theorem size_reflect : t.reflect.size = t.size := rfl

@[simp] theorem current_reflect : t.reflect.current = t.current := rfl

@[simp] theorem leftmost_reflect : t.reflect.leftmost = t.rightmost := rfl

@[simp] theorem rightmost_reflect : t.reflect.rightmost = t.leftmost := rfl

@[simp] theorem capacity_reflect : t.reflect.capacity = t.capacity :=
  Array.size_map

@[simp] theorem full_reflect : t.reflect.full = t.full := by
  simp only [full, capacity_reflect, size_reflect]

@[simp] theorem slot_reflect (id : Nat) : t.reflect.slot id = (t.slot id).reflect := by
  simp only [slot, reflect, Array.getElem?_map]
  cases t.slots[id]? <;> rfl

@[simp] theorem valueAt_reflect (id : Nat) : t.reflect.valueAt id = t.valueAt id := by
  rw [valueAt, slot_reflect]
  rfl

@[simp] theorem leftOf_reflect (id : Nat) : t.reflect.leftOf id = t.rightOf id := by
  rw [leftOf, slot_reflect]
  rfl

@[simp] theorem rightOf_reflect (id : Nat) : t.reflect.rightOf id = t.leftOf id := by
  rw [rightOf, slot_reflect]
  rfl

@[simp] theorem read_reflect : t.reflect.read = t.read :=
  t.valueAt_reflect t.current

/-- The columns of the arena: the values stay, the links are exchanged. -/
theorem columns_reflect :
    t.reflect.values = t.values ∧ t.reflect.lefts = t.rights ∧ t.reflect.rights = t.lefts := by
  simp only [values, lefts, rights, reflect, Array.map_map]
  exact ⟨rfl, rfl, rfl⟩

/-- The tape on which programs start is its own reflection. -/
@[simp] theorem reflect_blank : blank.reflect = blank := by
  have hslots : (row [0]).slots.map Slot.reflect = (row [0]).slots := by
    simp [row, rowSlot, Slot.reflect]
  simp only [blank, ofCells, List.isEmpty_nil, if_true, reflect, hslots]
  rfl

/-! ### The arena -/

theorem reserve_reflect (extra : Int) : t.reflect.reserve extra = (t.reserve extra).reflect := by
  unfold reserve
  rw [capacity_reflect, size_reflect]
  split_ifs
  · rfl
  · simp only [reflect, Array.map_append, Array.map_replicate, Slot.reflect_spare]

theorem alloc_reflect : t.reflect.alloc = t.alloc.reflect := by
  simp only [alloc, reserve_reflect, size_reflect]
  simp only [reflect, Array.map_setIfInBounds, Slot.reflect_spare]

/-- A link is reflected into the link the other way round. -/
theorem link_reflect (a b : Nat) : t.reflect.link b a = (t.link a b).reflect := by
  simp only [link, reflect]
  rw [map_modify (g := ({ · with right := some a })) _ b Slot.reflect (by intro s; rfl),
    map_modify (g := ({ · with left := some b })) _ a Slot.reflect (by intro s; rfl),
    modify_comm _ b a (by intro s; rfl)]

theorem setAt_reflect (id : Nat) (value : Cell) :
    t.reflect.setAt id value = (t.setAt id value).reflect := by
  simp only [setAt, reflect]
  rw [map_modify (g := ({ · with value := value })) _ id Slot.reflect (by intro s; rfl)]

/-! ### The head -/

theorem write_reflect (value : Cell) : t.reflect.write value = (t.write value).reflect :=
  t.setAt_reflect t.current value

theorem increment_reflect : t.reflect.increment = t.increment.reflect := by
  rw [increment, increment, read_reflect, write_reflect]

theorem decrement_reflect : t.reflect.decrement = t.decrement.reflect := by
  rw [decrement, decrement, read_reflect, write_reflect]

/-- **In the mirror, a move to the right is a move to the left.** -/
theorem moveRight_reflect : t.reflect.moveRight = t.moveLeft.reflect := by
  unfold moveRight moveLeft
  rw [current_reflect, rightOf_reflect]
  rcases t.leftOf t.current with _ | next
  · simp only [alloc_reflect, link_reflect, size_reflect, rightmost_reflect]
    generalize t.alloc.link t.size t.current = u
    rfl
  · rfl

theorem moveLeft_reflect : t.reflect.moveLeft = t.moveRight.reflect := by
  have h := t.reflect.moveRight_reflect
  rw [reflect_reflect] at h
  rw [h, reflect_reflect]

/-! ### Editing -/

/-- **In the mirror, a cell added at the right end is a cell added at the left end.** -/
theorem insertRight_reflect : t.reflect.insertRight = t.insertLeft.reflect := by
  simp only [insertRight, insertLeft, alloc_reflect, link_reflect, size_reflect, rightmost_reflect]
  generalize t.alloc.link t.size t.leftmost = u
  rfl

theorem insertLeft_reflect : t.reflect.insertLeft = t.insertRight.reflect := by
  have h := t.reflect.insertRight_reflect
  rw [reflect_reflect] at h
  rw [h, reflect_reflect]

/-! ### The order of the cells -/

variable {t} {ids : List Nat}

/-- If a tape is linked in some order, its reflection is linked in the reverse order. -/
theorem Linked.reflect (h : t.Linked ids) : t.reflect.Linked ids.reverse where
  perm := (List.reverse_perm ids).trans h.perm
  room := by rw [capacity_reflect]; exact h.room
  first := h.first_reverse
  last := h.last_reverse
  rightward := by rw [funext t.rightOf_reflect]; exact h.leftward
  leftward := by rw [funext t.leftOf_reflect, List.reverse_reverse]; exact h.rightward
  onCell := h.onCell
  spare := by
    intro id hid
    rw [slot_reflect, h.spare id hid]
    rfl

/-- **The cells of a reflected tape stand in the reverse order.** -/
theorem Linked.order_reflect (h : t.Linked ids) : t.reflect.order = t.order.reverse := by
  rw [h.reflect.order_eq, h.order_eq]

end Tape

end TapeMachine
