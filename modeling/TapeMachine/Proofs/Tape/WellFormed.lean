import TapeMachine.Proofs.Tape.Linked

/-!
# Well-formed tapes

What can be seen of a tape that is linked, without the sequence of its ids being named: bounds,
links that are symmetric and end at the two ends, and a walk from the left end that comes to the
right end after it has met every cell once. `Tape.Linked.wellFormed` derives all of it.

`Tape.order` follows no more links than there are cells. That this cuts nothing off is part of being
well-formed: `Tape.Walk` is the walk without a bound, and it gives the same ids.
-/

namespace TapeMachine

namespace Tape

/-! ### Columns -/

/-- A neighbour as it is written in a column of the arena: its id, or `-1` if there is none. -/
def linkNumber : Option Nat → Int
  | none => -1
  | some id => id

/-- The values of the cells, by slot. -/
def values (t : Tape) : Array Int :=
  t.slots.map fun s => s.value.toInt

/-- The neighbours to the left, by slot. -/
def lefts (t : Tape) : Array Int :=
  t.slots.map fun s => linkNumber s.left

/-- The neighbours to the right, by slot. -/
def rights (t : Tape) : Array Int :=
  t.slots.map fun s => linkNumber s.right

@[simp] theorem size_values (t : Tape) : t.values.size = t.capacity := by
  simp [values, capacity]

@[simp] theorem size_lefts (t : Tape) : t.lefts.size = t.capacity := by
  simp [lefts, capacity]

@[simp] theorem size_rights (t : Tape) : t.rights.size = t.capacity := by
  simp [rights, capacity]

/-! ### Walks -/

/-- The walk to the right along the links that starts at the given id, or nowhere, comes to an end
and meets the given ids. -/
inductive Walk (t : Tape) : Option Nat → List Nat → Prop
  | stop : Walk t none []
  | go {id : Nat} {ids : List Nat} : Walk t (t.rightOf id) ids → Walk t (some id) (id :: ids)

/-- The walk along a chain ends with the chain. -/
theorem walk_of_chain {t : Tape} {ids : List Nat} (h : Chain t.rightOf ids) :
    t.Walk ids.head? ids := by
  induction ids with
  | nil => exact .stop
  | cons a rest ih =>
      refine .go ?_
      rw [h.1]
      exact ih h.2

/-! ### Well-formedness -/

/-- A tape as its operations leave it. -/
structure WellFormed (t : Tape) : Prop where
  size_pos : 1 ≤ t.size
  size_le_capacity : t.size ≤ t.capacity
  /-- The three columns of the arena have its length. -/
  columns : t.values.size = t.capacity ∧ t.lefts.size = t.capacity ∧ t.rights.size = t.capacity
  current_lt : t.current < t.size
  leftmost_lt : t.leftmost < t.size
  rightmost_lt : t.rightmost < t.size
  /-- The links to the left and to the right are inverse to each other. -/
  symmetric : ∀ a b, a < t.size → b < t.size → (t.rightOf a = some b ↔ t.leftOf b = some a)
  leftOf_lt : ∀ a b, t.leftOf a = some b → b < t.size
  rightOf_lt : ∀ a b, t.rightOf a = some b → b < t.size
  leftOf_eq_none_iff : ∀ a, a < t.size → (t.leftOf a = none ↔ a = t.leftmost)
  rightOf_eq_none_iff : ∀ a, a < t.size → (t.rightOf a = none ↔ a = t.rightmost)
  value_bounds : ∀ a, -2147483648 ≤ (t.valueAt a).toInt ∧ (t.valueAt a).toInt ≤ 2147483647
  /-- The walk from the left end comes to an end, and it is the order of the tape. -/
  walk : t.Walk (some t.leftmost) t.order
  order_first : t.order.head? = some t.leftmost
  order_last : t.order.getLast? = some t.rightmost
  order_nodup : t.order.Nodup
  order_perm : t.order.Perm (List.range t.size)
  /-- The head is shown on one cell. -/
  one_current : t.snapshot.countP (·.2) = 1
  lengths : t.entries.length = t.size ∧ t.snapshot.length = t.size ∧ t.toList.length = t.size

/-- The head is shown as often as its cell is met. -/
theorem countP_snapshot (t : Tape) : t.snapshot.countP (·.2) = t.order.count t.current := by
  rw [snapshot, entries, List.countP_map, List.countP_map, List.count_eq_countP]
  rfl

/-- A linked tape is well-formed. -/
theorem Linked.wellFormed {t : Tape} {ids : List Nat} (h : t.Linked ids) : t.WellFormed := by
  have horder : t.order = ids := h.order_eq
  have hlength : t.order.length = t.size := by rw [horder, h.length_eq]
  refine {
    size_pos := h.size_pos
    size_le_capacity := h.room
    columns := ⟨t.size_values, t.size_lefts, t.size_rights⟩
    current_lt := h.onCell
    leftmost_lt := h.leftmost_lt
    rightmost_lt := h.rightmost_lt
    symmetric := fun a b ha hb => h.rightOf_iff_leftOf ha hb
    leftOf_lt := fun a b hab => h.leftOf_lt hab
    rightOf_lt := fun a b hab => h.rightOf_lt hab
    leftOf_eq_none_iff := fun a ha => h.leftOf_eq_none_iff ha
    rightOf_eq_none_iff := fun a ha => h.rightOf_eq_none_iff ha
    value_bounds := ?_
    walk := ?_
    order_first := by rw [horder, h.first]
    order_last := by rw [horder, h.last]
    order_nodup := by rw [horder]; exact h.nodup
    order_perm := by rw [horder]; exact h.perm
    one_current := ?_
    lengths := ?_ }
  · intro a
    exact ⟨(t.valueAt a).le_toInt, (t.valueAt a).toInt_le⟩
  · rw [horder, ← h.first]
    exact walk_of_chain h.rightward
  · have hmem : t.current ∈ t.order := by rw [horder]; exact h.mem_iff.mpr h.onCell
    have hnodup : t.order.Nodup := by rw [horder]; exact h.nodup
    rw [countP_snapshot, hnodup.count, if_pos hmem]
  · simp [snapshot, toList, entries, hlength]

end Tape

end TapeMachine
