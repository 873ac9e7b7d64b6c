import TapeMachine.Proofs.Tape.Slots
import TapeMachine.Tape.View

/-!
# The links of a tape

Links that are locally symmetric do not make a tape: they could close a cycle, or leave a cell out.
The invariant therefore names the whole sequence. `Tape.Linked t ids` says that `ids` lists every
cell once, from the left end to the right, that the links to the right lead along `ids` and those to
the left along its reverse, and that the spare slots are empty.

Each operation changes the sequence in a plain way. It stays, or the new id is added at one end
(`Tape.Linked.insertLeft`, `Tape.Linked.insertRight`, `Tape.Linked.moveLeft`,
`Tape.Linked.moveRight`), or it is `0, …, n - 1` again (`Tape.linked_row`). On a linked tape the
sequence is the one that `Tape.order` finds (`Tape.Linked.order_eq`).
-/

namespace TapeMachine

namespace Tape

/-! ### Chains -/

/-- `next` leads along the list: each id to the one after it, and the last one to nothing. -/
def Chain (next : Nat → Option Nat) : List Nat → Prop
  | [] => True
  | a :: rest => next a = rest.head? ∧ Chain next rest

namespace Chain

variable {next next' : Nat → Option Nat} {ids pre post : List Nat} {a b : Nat}

/-- A chain only depends on where its members lead. -/
theorem congr (h : Chain next ids) (heq : ∀ a ∈ ids, next' a = next a) : Chain next' ids := by
  induction ids with
  | nil => trivial
  | cons a rest ih =>
      refine ⟨?_, ih h.2 fun b hb => heq b (List.mem_cons_of_mem a hb)⟩
      rw [heq a List.mem_cons_self]
      exact h.1

/-- A chain can be continued by one id to which its last member is made to lead. -/
theorem snoc (h : Chain next ids) (hnodup : ids.Nodup) (hb : next' b = none)
    (hlast : ∀ a, ids.getLast? = some a → next' a = some b)
    (hrest : ∀ a ∈ ids, ids.getLast? ≠ some a → next' a = next a) : Chain next' (ids ++ [b]) := by
  induction ids with
  | nil => exact ⟨hb, trivial⟩
  | cons a rest ih =>
      cases rest with
      | nil => exact ⟨hlast a rfl, hb, trivial⟩
      | cons c rest =>
          obtain ⟨ha, hnodup'⟩ := List.nodup_cons.mp hnodup
          have hne : (a :: c :: rest).getLast? ≠ some a := by
            intro hlast'
            rw [List.getLast?_cons_cons] at hlast'
            exact ha (List.mem_of_getLast? hlast')
          refine ⟨?_, ih h.2 hnodup' ?_ ?_⟩
          · rw [hrest a List.mem_cons_self hne]
            exact h.1
          · intro d hd
            exact hlast d (by rwa [List.getLast?_cons_cons])
          · intro d hd hne'
            exact hrest d (List.mem_cons_of_mem a hd) (by rwa [List.getLast?_cons_cons])

/-- A member of a chain leads to the one after it. -/
theorem next_of_split (h : Chain next (pre ++ a :: post)) : next a = post.head? := by
  induction pre with
  | nil => exact h.1
  | cons c pre ih => exact ih h.2

/-- Where a member of a chain leads is the one after it. -/
theorem split_of_next (h : Chain next ids) (ha : a ∈ ids) (hnext : next a = some b) :
    ∃ pre post, ids = pre ++ a :: b :: post := by
  obtain ⟨pre, post, rfl⟩ := List.append_of_mem ha
  rw [h.next_of_split] at hnext
  cases post with
  | nil => cases hnext
  | cons c post =>
      cases hnext
      exact ⟨pre, post, rfl⟩

/-- A member of a chain that leads to nothing is the last one. -/
theorem getLast?_of_next_none (h : Chain next ids) (ha : a ∈ ids) (hnext : next a = none) :
    ids.getLast? = some a := by
  obtain ⟨pre, post, rfl⟩ := List.append_of_mem ha
  rw [h.next_of_split] at hnext
  cases post with
  | nil => simp
  | cons c post => cases hnext

/-- The last member of a chain leads to nothing. -/
theorem next_none_of_getLast? (h : Chain next ids) (ha : ids.getLast? = some a) :
    next a = none := by
  obtain ⟨pre, rfl⟩ := List.getLast?_eq_some_iff.mp ha
  exact h.next_of_split

/-- A chain that is turned around is taken apart at its other end. -/
theorem reverse_next_of_split (h : Chain next ids.reverse) (hids : ids = pre ++ a :: b :: post) :
    next b = some a := by
  subst hids
  have heq : (pre ++ a :: b :: post).reverse = post.reverse ++ b :: (a :: pre.reverse) := by simp
  rw [heq] at h
  exact h.next_of_split

end Chain

/-! ### The invariant -/

/-- The cells of the tape are linked in the order of the list. -/
structure Linked (t : Tape) (ids : List Nat) : Prop where
  /-- Every cell is listed once. -/
  perm : ids.Perm (List.range t.size)
  /-- Every cell has a slot. -/
  room : t.size ≤ t.capacity
  first : ids.head? = some t.leftmost
  last : ids.getLast? = some t.rightmost
  rightward : Chain t.rightOf ids
  leftward : Chain t.leftOf ids.reverse
  /-- The head is on a cell. -/
  onCell : t.current < t.size
  /-- The slots without a cell are empty. -/
  spare : ∀ id, t.size ≤ id → t.slot id = {}

namespace Linked

variable {t : Tape} {ids : List Nat} {a b : Nat}

/-- The members of the sequence are the ids below the size. -/
theorem mem_iff (h : t.Linked ids) : a ∈ ids ↔ a < t.size := by
  rw [h.perm.mem_iff, List.mem_range]

theorem nodup (h : t.Linked ids) : ids.Nodup :=
  h.perm.nodup_iff.mpr List.nodup_range

theorem length_eq (h : t.Linked ids) : ids.length = t.size := by
  rw [h.perm.length_eq, List.length_range]

theorem leftmost_lt (h : t.Linked ids) : t.leftmost < t.size :=
  h.mem_iff.mp (List.mem_of_head? h.first)

theorem rightmost_lt (h : t.Linked ids) : t.rightmost < t.size :=
  h.mem_iff.mp (List.mem_of_getLast? h.last)

theorem size_pos (h : t.Linked ids) : 0 < t.size :=
  Nat.zero_lt_of_lt h.onCell

/-- The head is on a slot of the arena. -/
theorem current_lt_capacity (h : t.Linked ids) : t.current < t.capacity :=
  Nat.lt_of_lt_of_le h.onCell h.room

theorem last_reverse (h : t.Linked ids) : ids.reverse.getLast? = some t.leftmost := by
  rw [List.getLast?_reverse, h.first]

theorem first_reverse (h : t.Linked ids) : ids.reverse.head? = some t.rightmost := by
  rw [List.head?_reverse, h.last]

/-- A cell is the right neighbour of another exactly if that one is its left neighbour. -/
theorem rightOf_iff_leftOf (h : t.Linked ids) (ha : a < t.size) (hb : b < t.size) :
    t.rightOf a = some b ↔ t.leftOf b = some a := by
  constructor
  · intro hab
    obtain ⟨pre, post, hsplit⟩ := h.rightward.split_of_next (h.mem_iff.mpr ha) hab
    exact h.leftward.reverse_next_of_split hsplit
  · intro hba
    have hmem : b ∈ ids.reverse := List.mem_reverse.mpr (h.mem_iff.mpr hb)
    obtain ⟨pre, post, hsplit⟩ := h.leftward.split_of_next hmem hba
    have hright : Chain t.rightOf ids.reverse.reverse := by
      rw [List.reverse_reverse]
      exact h.rightward
    exact hright.reverse_next_of_split hsplit

/-- Only the last cell has nothing to its right. -/
theorem rightOf_eq_none_iff (h : t.Linked ids) (ha : a < t.size) :
    t.rightOf a = none ↔ a = t.rightmost := by
  constructor
  · intro hnone
    have hlast := h.rightward.getLast?_of_next_none (h.mem_iff.mpr ha) hnone
    exact Option.some.inj (hlast.symm.trans h.last)
  · rintro rfl
    exact h.rightward.next_none_of_getLast? h.last

/-- Only the first cell has nothing to its left. -/
theorem leftOf_eq_none_iff (h : t.Linked ids) (ha : a < t.size) :
    t.leftOf a = none ↔ a = t.leftmost := by
  constructor
  · intro hnone
    have hmem : a ∈ ids.reverse := List.mem_reverse.mpr (h.mem_iff.mpr ha)
    have hlast := h.leftward.getLast?_of_next_none hmem hnone
    exact Option.some.inj (hlast.symm.trans h.last_reverse)
  · rintro rfl
    exact h.leftward.next_none_of_getLast? h.last_reverse

/-- A neighbour to the right is a cell. -/
theorem rightOf_lt (h : t.Linked ids) (hab : t.rightOf a = some b) : b < t.size := by
  by_cases ha : a < t.size
  · obtain ⟨pre, post, rfl⟩ := h.rightward.split_of_next (h.mem_iff.mpr ha) hab
    exact h.mem_iff.mp (by simp)
  · rw [rightOf, h.spare a (by omega)] at hab
    cases hab

/-- A neighbour to the left is a cell. -/
theorem leftOf_lt (h : t.Linked ids) (hab : t.leftOf a = some b) : b < t.size := by
  by_cases ha : a < t.size
  · have hmem : a ∈ ids.reverse := List.mem_reverse.mpr (h.mem_iff.mpr ha)
    obtain ⟨pre, post, hsplit⟩ := h.leftward.split_of_next hmem hab
    have hb : b ∈ ids.reverse := by rw [hsplit]; simp
    exact h.mem_iff.mp (List.mem_reverse.mp hb)
  · rw [leftOf, h.spare a (by omega)] at hab
    cases hab

/-! ### Operations that keep the sequence -/

/-- Moving the head to another cell. -/
theorem withCurrent (h : t.Linked ids) (ha : a < t.size) :
    ({ t with current := a } : Tape).Linked ids :=
  ⟨h.perm, h.room, h.first, h.last, h.rightward, h.leftward, ha, h.spare⟩

/-- Adding spare slots. -/
theorem reserve (h : t.Linked ids) (extra : Int) : (t.reserve extra).Linked ids where
  perm := by rw [size_reserve]; exact h.perm
  room := by
    rw [size_reserve]
    exact Nat.le_trans h.room (t.capacity_le_capacity_reserve extra)
  first := by rw [leftmost_reserve]; exact h.first
  last := by rw [rightmost_reserve]; exact h.last
  rightward := h.rightward.congr fun a _ => by simp only [rightOf, slot_reserve]
  leftward := h.leftward.congr fun a _ => by simp only [leftOf, slot_reserve]
  onCell := by rw [size_reserve, current_reserve]; exact h.onCell
  spare := by
    intro id hid
    rw [slot_reserve]
    exact h.spare id (by rwa [size_reserve] at hid)

/-- Writing to a cell. -/
theorem setAt (h : t.Linked ids) (ha : a < t.size) (v : Cell) : (t.setAt a v).Linked ids where
  perm := h.perm
  room := by rw [capacity_setAt]; exact h.room
  first := h.first
  last := h.last
  rightward := h.rightward.congr fun b _ => t.rightOf_setAt a v b
  leftward := h.leftward.congr fun b _ => t.leftOf_setAt a v b
  onCell := h.onCell
  spare := by
    intro id hid
    have hne : ¬ (a = id ∧ a < t.capacity) := by
      rintro ⟨rfl, -⟩
      exact absurd ha (Nat.not_lt.mpr hid)
    rw [slot_setAt, if_neg hne]
    exact h.spare id hid

/-- Writing under the head. -/
theorem write (h : t.Linked ids) (v : Cell) : (t.write v).Linked ids :=
  h.setAt h.onCell v

/-! ### Operations that add a cell -/

/-- On a linked tape the slot of a new cell is empty already. -/
theorem slot_alloc (h : t.Linked ids) (id : Nat) : t.alloc.slot id = t.slot id := by
  rw [Tape.slot_alloc]
  split_ifs with hid
  · rw [h.spare id (by omega)]
  · rfl

/-- The slots after adding a cell at the right end. -/
theorem slot_insertRight (h : t.Linked ids) (id : Nat) :
    t.insertRight.slot id =
      { value := (t.slot id).value
        left := if id = t.size then some t.rightmost else t.leftOf id
        right := if id = t.rightmost then some t.size else t.rightOf id } := by
  have hroom := t.size_lt_capacity_alloc
  have hlt := h.rightmost_lt
  rw [Tape.slot_insertRight, slot_link _ (by omega) hroom, h.slot_alloc]
  rfl

/-- The slots after adding a cell at the left end. -/
theorem slot_insertLeft (h : t.Linked ids) (id : Nat) :
    t.insertLeft.slot id =
      { value := (t.slot id).value
        left := if id = t.leftmost then some t.size else t.leftOf id
        right := if id = t.size then some t.leftmost else t.rightOf id } := by
  have hroom := t.size_lt_capacity_alloc
  have hlt := h.leftmost_lt
  rw [Tape.slot_insertLeft, slot_link _ hroom (by omega), h.slot_alloc]
  rfl

/-- The id of a new cell completes the ids of the cells. -/
theorem perm_concat (h : t.Linked ids) : (ids ++ [t.size]).Perm (List.range (t.size + 1)) := by
  rw [List.range_succ]
  exact h.perm.append_right [t.size]

/-- Adding a cell at the right end adds its id at the end of the sequence. -/
theorem insertRight (h : t.Linked ids) : t.insertRight.Linked (ids ++ [t.size]) := by
  have hright : ∀ id, t.insertRight.rightOf id =
      if id = t.rightmost then some t.size else t.rightOf id := by
    intro id
    rw [rightOf, h.slot_insertRight]
  have hleft : ∀ id, t.insertRight.leftOf id =
      if id = t.size then some t.rightmost else t.leftOf id := by
    intro id
    rw [leftOf, h.slot_insertRight]
  refine ⟨?_, ?_, ?_, ?_, ?_, ?_, ?_, ?_⟩
  · rw [size_insertRight]
    exact h.perm_concat
  · rw [size_insertRight, capacity_insertRight, ← capacity_alloc]
    exact t.size_lt_capacity_alloc
  · simp [List.head?_append, h.first]
  · simp
  · refine h.rightward.snoc h.nodup ?_ ?_ ?_
    · rw [hright, if_neg (Nat.ne_of_gt h.rightmost_lt), rightOf, h.spare t.size (Nat.le_refl _)]
    · intro a ha
      rw [hright, if_pos (Option.some.inj (ha.symm.trans h.last))]
    · intro a _ hne
      rw [hright, if_neg]
      rintro rfl
      exact hne h.last
  · rw [List.reverse_append]
    refine ⟨?_, h.leftward.congr fun a ha => ?_⟩
    · rw [hleft, if_pos rfl]
      exact h.first_reverse.symm
    · have hlt := h.mem_iff.mp (List.mem_reverse.mp ha)
      rw [hleft, if_neg (by omega)]
  · rw [size_insertRight, current_insertRight]
    exact Nat.lt_succ_of_lt h.onCell
  · intro id hid
    rw [size_insertRight] at hid
    have hlt := h.rightmost_lt
    rw [h.slot_insertRight, if_neg (by omega), if_neg (by omega), leftOf, rightOf,
      h.spare id (by omega)]

/-- Adding a cell at the left end adds its id at the beginning of the sequence. -/
theorem insertLeft (h : t.Linked ids) : t.insertLeft.Linked (t.size :: ids) := by
  have hright : ∀ id, t.insertLeft.rightOf id =
      if id = t.size then some t.leftmost else t.rightOf id := by
    intro id
    rw [rightOf, h.slot_insertLeft]
  have hleft : ∀ id, t.insertLeft.leftOf id =
      if id = t.leftmost then some t.size else t.leftOf id := by
    intro id
    rw [leftOf, h.slot_insertLeft]
  refine ⟨?_, ?_, ?_, ?_, ?_, ?_, ?_, ?_⟩
  · rw [size_insertLeft]
    exact (List.perm_append_singleton t.size ids).symm.trans h.perm_concat
  · rw [size_insertLeft, capacity_insertLeft, ← capacity_alloc]
    exact t.size_lt_capacity_alloc
  · simp
  · rw [List.getLast?_cons, h.last]
    simp
  · refine ⟨?_, h.rightward.congr fun a ha => ?_⟩
    · rw [hright, if_pos rfl]
      exact h.first.symm
    · have hlt := h.mem_iff.mp ha
      rw [hright, if_neg (by omega)]
  · rw [List.reverse_cons]
    refine h.leftward.snoc ((List.reverse_perm ids).nodup_iff.mpr h.nodup) ?_ ?_ ?_
    · rw [hleft, if_neg (Nat.ne_of_gt h.leftmost_lt), leftOf, h.spare t.size (Nat.le_refl _)]
    · intro a ha
      rw [hleft, if_pos (Option.some.inj (ha.symm.trans h.last_reverse))]
    · intro a _ hne
      rw [hleft, if_neg]
      rintro rfl
      exact hne h.last_reverse
  · rw [size_insertLeft, current_insertLeft]
    exact Nat.lt_succ_of_lt h.onCell
  · intro id hid
    rw [size_insertLeft] at hid
    have hlt := h.leftmost_lt
    rw [h.slot_insertLeft, if_neg (by omega), if_neg (by omega), leftOf, rightOf,
      h.spare id (by omega)]

/-- At the right end, a move to the right adds a cell there and puts the head on it. -/
theorem moveRight_of_none (h : t.Linked ids) (hnone : t.rightOf t.current = none) :
    t.moveRight = { t.insertRight with current := t.size } := by
  have hcur : t.current = t.rightmost := (h.rightOf_eq_none_iff h.onCell).mp hnone
  unfold Tape.moveRight
  rw [hnone]
  simp only [Tape.insertRight, hcur, if_true]

/-- At the left end, a move to the left adds a cell there and puts the head on it. -/
theorem moveLeft_of_none (h : t.Linked ids) (hnone : t.leftOf t.current = none) :
    t.moveLeft = { t.insertLeft with current := t.size } := by
  have hcur : t.current = t.leftmost := (h.leftOf_eq_none_iff h.onCell).mp hnone
  unfold Tape.moveLeft
  rw [hnone]
  simp only [Tape.insertLeft, hcur, if_true]

/-- A move to the right adds a cell exactly at the right end. -/
theorem moveRight (h : t.Linked ids) :
    t.moveRight.Linked (if t.rightOf t.current = none then ids ++ [t.size] else ids) := by
  rcases hnext : t.rightOf t.current with _ | next
  · rw [h.moveRight_of_none hnext, if_pos rfl]
    exact h.insertRight.withCurrent (by simp)
  · rw [if_neg (by simp), Tape.moveRight, hnext]
    exact h.withCurrent (h.rightOf_lt hnext)

/-- A move to the left adds a cell exactly at the left end. -/
theorem moveLeft (h : t.Linked ids) :
    t.moveLeft.Linked (if t.leftOf t.current = none then t.size :: ids else ids) := by
  rcases hnext : t.leftOf t.current with _ | next
  · rw [h.moveLeft_of_none hnext, if_pos rfl]
    exact h.insertLeft.withCurrent (by simp)
  · rw [if_neg (by simp), Tape.moveLeft, hnext]
    exact h.withCurrent (h.leftOf_lt hnext)

/-! ### The sequence that is found by following the links -/

/-- Following the links from the beginning of a chain gives the chain, as far as the links are
followed. -/
theorem follow_eq_take (hchain : Chain t.rightOf ids) (count : Nat) :
    t.follow count ids.head? = ids.take count := by
  induction count generalizing ids with
  | zero => rw [follow, List.take_zero]
  | succ count ih =>
      cases ids with
      | nil => rfl
      | cons a rest =>
          rw [List.head?_cons, follow, hchain.1, ih hchain.2, List.take_succ_cons]

/-- The sequence of a linked tape is the one that is found. -/
theorem order_eq (h : t.Linked ids) : t.order = ids := by
  rw [order, ← h.first, follow_eq_take h.rightward, ← h.length_eq, List.take_length]

end Linked

/-! ### Rows -/

/-- The slots of a row. -/
theorem slot_row (values : List Cell) (id : Nat) :
    (row values).slot id =
      if h : id < values.length then rowSlot values.length id values[id] else {} := by
  unfold slot row
  by_cases h : id < values.length
  · rw [Array.getElem?_append_left (by simpa using h)]
    simp [h]
  · rw [Array.getElem?_append_right (by simpa using h), Array.getElem?_replicate]
    simp only [h, dif_neg, not_false_iff]
    split_ifs <;> rfl

theorem capacity_row (values : List Cell) :
    (row values).capacity = rowCapacity values.length := by
  have hle : values.length ≤ rowCapacity values.length := by
    unfold rowCapacity
    omega
  simp only [capacity, row, Array.size_append, List.size_toArray, List.length_mapIdx,
    Array.size_replicate]
  omega

/-- Links to the next id, up to the last, lead along consecutive ids. -/
theorem chain_range' {next : Nat → Option Nat} {n : Nat}
    (hnext : ∀ i < n, next i = if i + 1 < n then some (i + 1) else none) (start count : Nat)
    (h : start + count = n) : Chain next (List.range' start count) := by
  induction count generalizing start with
  | zero => trivial
  | succ count ih =>
      rw [List.range'_succ]
      refine ⟨?_, ih (start + 1) (by omega)⟩
      rw [hnext start (by omega), List.head?_range']
      split_ifs <;> first | rfl | omega

/-- Links to the previous id, down to the first, lead along consecutive ids in reverse. -/
theorem chain_reverse_range {next : Nat → Option Nat} {n : Nat}
    (hnext : ∀ i < n, next i = if i = 0 then none else some (i - 1)) :
    Chain next (List.range n).reverse := by
  induction n with
  | zero => trivial
  | succ n ih =>
      rw [List.range_succ, List.reverse_append, List.reverse_singleton, List.singleton_append]
      refine ⟨?_, ih fun i hi => hnext i (by omega)⟩
      rw [hnext n (by omega), List.head?_reverse, List.getLast?_range]

/-- A row is linked in the order of its ids. -/
theorem linked_row {values : List Cell} (hne : values ≠ []) :
    (row values).Linked (List.range values.length) := by
  have hpos : 0 < values.length := List.length_pos_iff.mpr hne
  refine ⟨List.Perm.refl _, ?_, ?_, ?_, ?_, ?_, hpos, ?_⟩
  · rw [capacity_row]
    simp only [row, rowCapacity]
    omega
  · rw [List.head?_range, if_neg (by omega)]
    rfl
  · rw [List.getLast?_range, if_neg (by omega)]
    rfl
  · rw [List.range_eq_range']
    refine chain_range' (fun i hi => ?_) 0 values.length (Nat.zero_add _)
    rw [rightOf, slot_row, dif_pos hi, rowSlot]
  · refine chain_reverse_range fun i hi => ?_
    rw [leftOf, slot_row, dif_pos hi, rowSlot]
  · intro id hid
    have hid' : ¬ id < values.length := Nat.not_lt.mpr hid
    rw [slot_row, dif_neg hid']

/-- A tape is linked from the start, whatever its values. -/
theorem exists_linked_ofCells (values : List Cell) : ∃ ids, (ofCells values).Linked ids := by
  unfold ofCells
  split_ifs with hempty
  · exact ⟨_, linked_row (List.cons_ne_nil 0 [])⟩
  · exact ⟨_, linked_row (by simpa using hempty)⟩

end Tape

end TapeMachine
