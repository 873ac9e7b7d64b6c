import Mathlib.Tactic.SplitIfs
import TapeMachine.Tape.Basic

/-!
# What the operations of a tape do to its slots

For each operation: the slot that an id names afterwards, the number of slots, and the four
remaining fields. Everything else about the arena is derived from these, so the arrays are not
looked into again.
-/

namespace TapeMachine

namespace Tape

variable (t : Tape)

/-! ### Looking slots up -/

/-- The slot of an arena in which one slot has been changed. -/
theorem slot_modify (i : Nat) (f : Slot → Slot) (id : Nat) :
    ({ t with slots := t.slots.modify i f } : Tape).slot id =
      if i = id ∧ i < t.capacity then f (t.slot id) else t.slot id := by
  unfold slot capacity
  by_cases hid : id < t.slots.size
  · rw [Array.getElem?_eq_getElem (by simpa using hid), Array.getElem?_eq_getElem hid,
      Array.getElem_modify]
    by_cases hi : i = id
    · subst hi
      simp [hid]
    · simp [hi]
  · rw [Array.getElem?_eq_none (by simpa using hid), Array.getElem?_eq_none (by omega),
      if_neg (by omega)]

@[simp] theorem capacity_modify (i : Nat) (f : Slot → Slot) :
    ({ t with slots := t.slots.modify i f } : Tape).capacity = t.capacity :=
  Array.size_modify

/-- Changes of slots that commute can be made in any order. -/
theorem modify_comm (slots : Array Slot) (i j : Nat) {f g : Slot → Slot}
    (h : ∀ s, f (g s) = g (f s)) :
    (slots.modify i f).modify j g = (slots.modify j g).modify i f := by
  apply Array.ext
  · simp
  · intro k hk hk'
    simp only [Array.getElem_modify]
    split_ifs <;> first | rfl | rw [h]

/-- Changing a slot and mapping all slots can be exchanged if the change is mapped with them. -/
theorem map_modify (slots : Array Slot) (i : Nat) (map : Slot → Slot) {f g : Slot → Slot}
    (h : ∀ s, map (f s) = g (map s)) : (slots.modify i f).map map = (slots.map map).modify i g := by
  apply Array.ext
  · simp
  · intro j hj hj'
    simp only [Array.getElem_map, Array.getElem_modify]
    split_ifs
    · exact h _
    · rfl

/-! ### Reserving and allocating -/

/-- Room for a new cell is added only to a full arena. -/
theorem reserve_of_not_full (h : t.full = false) : t.reserve 1 = t := by
  simp only [full, decide_eq_false_iff_not] at h
  unfold reserve
  rw [if_pos (by omega)]

/-- Spare slots are like slots that do not exist, so adding some changes no slot. -/
@[simp] theorem slot_reserve (extra : Int) (id : Nat) :
    (t.reserve extra).slot id = t.slot id := by
  unfold reserve
  split_ifs
  · rfl
  · simp only [slot]
    by_cases hid : id < t.slots.size
    · rw [Array.getElem?_append_left hid]
    · have hnone : t.slots[id]? = none := Array.getElem?_eq_none (by omega)
      rw [Array.getElem?_append_right (by omega), Array.getElem?_replicate, hnone]
      split_ifs <;> rfl

@[simp] theorem current_reserve (extra : Int) : (t.reserve extra).current = t.current := by
  unfold reserve
  split_ifs <;> rfl

@[simp] theorem leftmost_reserve (extra : Int) : (t.reserve extra).leftmost = t.leftmost := by
  unfold reserve
  split_ifs <;> rfl

@[simp] theorem rightmost_reserve (extra : Int) : (t.reserve extra).rightmost = t.rightmost := by
  unfold reserve
  split_ifs <;> rfl

/-- Reserving never gives slots back. -/
theorem capacity_le_capacity_reserve (extra : Int) : t.capacity ≤ (t.reserve extra).capacity := by
  unfold reserve
  split_ifs
  · exact Nat.le_refl _
  · simp only [capacity, Array.size_append]
    omega

@[simp] theorem size_alloc : t.alloc.size = t.size + 1 := by
  simp [alloc]

@[simp] theorem current_alloc : t.alloc.current = t.current := by
  simp [alloc]

@[simp] theorem leftmost_alloc : t.alloc.leftmost = t.leftmost := by
  simp [alloc]

@[simp] theorem rightmost_alloc : t.alloc.rightmost = t.rightmost := by
  simp [alloc]

@[simp] theorem capacity_alloc : t.alloc.capacity = (t.reserve 1).capacity := by
  simp [alloc, capacity]

/-- The new cell has a slot. -/
theorem size_lt_capacity_alloc : t.size < t.alloc.capacity := by
  have room := t.size_add_le_capacity_reserve 1
  rw [capacity_alloc]
  omega

/-- Allocating gives the id that is the old size an empty slot, and changes no other. -/
theorem slot_alloc (id : Nat) : t.alloc.slot id = if id = t.size then {} else t.slot id := by
  have room := t.size_lt_capacity_alloc
  rw [capacity_alloc, capacity] at room
  rw [← t.slot_reserve 1 id]
  simp only [alloc, slot, size_reserve, Array.getElem?_setIfInBounds]
  by_cases hid : id = t.size
  · subst hid
    simp [room]
  · simp [hid, Ne.symm hid]

/-! ### Linking and writing -/

@[simp] theorem size_link (a b : Nat) : (t.link a b).size = t.size := rfl
@[simp] theorem current_link (a b : Nat) : (t.link a b).current = t.current := rfl
@[simp] theorem leftmost_link (a b : Nat) : (t.link a b).leftmost = t.leftmost := rfl
@[simp] theorem rightmost_link (a b : Nat) : (t.link a b).rightmost = t.rightmost := rfl

@[simp] theorem capacity_link (a b : Nat) : (t.link a b).capacity = t.capacity := by
  simp [link, capacity]

/-- Linking changes the right neighbour of the first cell and the left neighbour of the second. -/
theorem slot_link {a b : Nat} (ha : a < t.capacity) (hb : b < t.capacity) (id : Nat) :
    (t.link a b).slot id =
      { value := (t.slot id).value
        left := if id = b then some a else (t.slot id).left
        right := if id = a then some b else (t.slot id).right } := by
  let u : Tape := { t with slots := t.slots.modify a ({ · with right := some b }) }
  have hcap : u.capacity = t.capacity := t.capacity_modify a _
  have hu : u.slot id = if a = id ∧ a < t.capacity then { t.slot id with right := some b }
      else t.slot id := t.slot_modify a _ id
  have hlink : (t.link a b).slot id = if b = id ∧ b < u.capacity then
      { u.slot id with left := some a } else u.slot id := u.slot_modify b _ id
  rw [hlink, hcap, hu]
  simp only [ha, hb, and_true, eq_comm (a := id)]
  split_ifs <;> rfl

@[simp] theorem size_setAt (id : Nat) (v : Cell) : (t.setAt id v).size = t.size := rfl
@[simp] theorem current_setAt (id : Nat) (v : Cell) : (t.setAt id v).current = t.current := rfl
@[simp] theorem leftmost_setAt (id : Nat) (v : Cell) : (t.setAt id v).leftmost = t.leftmost := rfl
@[simp] theorem rightmost_setAt (id : Nat) (v : Cell) :
    (t.setAt id v).rightmost = t.rightmost := rfl

@[simp] theorem capacity_setAt (id : Nat) (v : Cell) : (t.setAt id v).capacity = t.capacity := by
  simp [setAt, capacity]

/-- Writing changes one value and no link. -/
theorem slot_setAt (i : Nat) (v : Cell) (id : Nat) :
    (t.setAt i v).slot id =
      if i = id ∧ i < t.capacity then { t.slot id with value := v } else t.slot id := by
  unfold setAt
  exact t.slot_modify i _ id

@[simp] theorem leftOf_setAt (i : Nat) (v : Cell) (id : Nat) :
    (t.setAt i v).leftOf id = t.leftOf id := by
  unfold leftOf
  rw [slot_setAt]
  split_ifs <;> rfl

@[simp] theorem rightOf_setAt (i : Nat) (v : Cell) (id : Nat) :
    (t.setAt i v).rightOf id = t.rightOf id := by
  unfold rightOf
  rw [slot_setAt]
  split_ifs <;> rfl

/-! ### Adding a cell at an end -/

@[simp] theorem size_insertLeft : t.insertLeft.size = t.size + 1 := by simp [insertLeft]
@[simp] theorem current_insertLeft : t.insertLeft.current = t.current := by simp [insertLeft]
@[simp] theorem leftmost_insertLeft : t.insertLeft.leftmost = t.size := rfl
@[simp] theorem rightmost_insertLeft : t.insertLeft.rightmost = t.rightmost := by
  simp [insertLeft]

@[simp] theorem capacity_insertLeft : t.insertLeft.capacity = (t.reserve 1).capacity := by
  rw [← capacity_alloc]
  simp only [capacity, insertLeft, link, Array.size_modify]

/-- The slots after adding a cell at the left end. -/
theorem slot_insertLeft (id : Nat) :
    t.insertLeft.slot id = (t.alloc.link t.size t.leftmost).slot id := by
  simp only [slot, insertLeft]

@[simp] theorem size_insertRight : t.insertRight.size = t.size + 1 := by simp [insertRight]
@[simp] theorem current_insertRight : t.insertRight.current = t.current := by simp [insertRight]
@[simp] theorem rightmost_insertRight : t.insertRight.rightmost = t.size := rfl
@[simp] theorem leftmost_insertRight : t.insertRight.leftmost = t.leftmost := by
  simp [insertRight]

@[simp] theorem capacity_insertRight : t.insertRight.capacity = (t.reserve 1).capacity := by
  rw [← capacity_alloc]
  simp only [capacity, insertRight, link, Array.size_modify]

/-- The slots after adding a cell at the right end. -/
theorem slot_insertRight (id : Nat) :
    t.insertRight.slot id = (t.alloc.link t.rightmost t.size).slot id := by
  simp only [slot, insertRight]

end Tape

end TapeMachine
