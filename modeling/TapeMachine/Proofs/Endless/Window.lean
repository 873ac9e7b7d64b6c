import TapeMachine.Proofs.Endless.Machine
import TapeMachine.Proofs.Tape.Linked

/-!
# The window of an endless tape

The cells of an arena are numbered in the order in which they were added, whereas positions on an
endless tape run from left to right; and a cell that is added on the left moves every other cell one
place on in the order of the tape, but not to another position. The two are related through the list
of positions that have come into the window (`Endless.entered`): cell `id` stands for the `id`-th of
them, and the `k`-th cell in tape order stands for position `lo + k`. `Tape.Holds` says this, and
that nothing lies outside the window but zeros.

Every operation of the tape keeps the relation to what it means on the endless tape
(`Tape.Holds.setAt`, `Tape.Holds.insertLeft`, `Tape.Holds.insertRight`, `Tape.Holds.moveRight`,
`Tape.Holds.moveLeft`), and related tapes are shown alike (`Tape.Holds.snapshot_eq`).
-/

namespace TapeMachine

/-! ### The relation -/

/-- The cells of the tape, in the given order, are the window of the endless tape. -/
structure Tape.Holds (t : Tape) (ids : List Nat) (e : Endless) : Prop where
  linked : t.Linked ids
  /-- Every cell stands for a position. -/
  length_entered : e.entered.length = t.size
  /-- The window is as wide as the tape is long. -/
  width : e.hi + 1 = e.lo + t.size
  /-- The cells in tape order stand for the positions of the window from left to right. -/
  place : ∀ k id : Nat, ids[k]? = some id → e.entered[id]? = some (e.lo + k)
  value : ∀ id x, e.entered[id]? = some x → t.valueAt id = e.cells x
  head : e.entered[t.current]? = some e.head
  outside : ∀ x, x < e.lo ∨ e.hi < x → e.cells x = 0

namespace Tape.Holds

variable {t : Tape} {ids : List Nat} {e : Endless} {a b : Nat} {x y : Int}

/-- A blank tape is an endless tape of which one cell is shown. -/
theorem blank : Tape.blank.Holds [0] {} where
  linked := Tape.linked_row (List.cons_ne_nil 0 [])
  length_entered := rfl
  width := rfl
  place := by
    intro k id hid
    cases k with
    | zero => cases hid; rfl
    | succ k => cases hid
  value := by
    intro id x hid
    cases id with
    | zero => cases hid; rfl
    | succ id => cases hid
  head := rfl
  outside := fun _ _ => rfl

theorem lt_size (h : t.Holds ids e) (ha : e.entered[a]? = some x) : a < t.size := by
  rw [← h.length_entered]
  exact (List.getElem?_eq_some_iff.mp ha).1

/-- The position of a cell is told by its place in the order of the tape. -/
theorem entered_eq_some_iff (h : t.Holds ids e) :
    e.entered[a]? = some x ↔ ∃ k : Nat, ids[k]? = some a ∧ x = e.lo + k := by
  constructor
  · intro hx
    obtain ⟨k, hk⟩ := List.mem_iff_getElem?.mp (h.linked.mem_iff.mpr (h.lt_size hx))
    have hplace := h.place k a hk
    rw [hx] at hplace
    exact ⟨k, hk, Option.some.inj hplace⟩
  · rintro ⟨k, hk, rfl⟩
    exact h.place k a hk

/-- Different cells stand for different positions. -/
theorem injective (h : t.Holds ids e) (ha : e.entered[a]? = some x) (hb : e.entered[b]? = some x) :
    a = b := by
  obtain ⟨k, hk, hx⟩ := h.entered_eq_some_iff.mp ha
  obtain ⟨l, hl, hx'⟩ := h.entered_eq_some_iff.mp hb
  obtain rfl : k = l := by omega
  exact Option.some.inj (hk.symm.trans hl)

/-- Cells stand for positions of the window. -/
theorem within (h : t.Holds ids e) (ha : e.entered[a]? = some x) : e.lo ≤ x ∧ x ≤ e.hi := by
  obtain ⟨k, hk, hx⟩ := h.entered_eq_some_iff.mp ha
  have hlt := (List.getElem?_eq_some_iff.mp hk).1
  rw [h.linked.length_eq] at hlt
  have hwidth := h.width
  omega

theorem leftmost (h : t.Holds ids e) : e.entered[t.leftmost]? = some e.lo := by
  have hfirst : ids[0]? = some t.leftmost := by rw [← List.head?_eq_getElem?, h.linked.first]
  simpa using h.place 0 t.leftmost hfirst

theorem rightmost (h : t.Holds ids e) : e.entered[t.rightmost]? = some e.hi := by
  have hlast : ids[ids.length - 1]? = some t.rightmost := by
    rw [← List.getLast?_eq_getElem?, h.linked.last]
  have hwidth := h.width
  have hpos := h.linked.size_pos
  rw [h.place _ _ hlast, h.linked.length_eq]
  congr 1
  omega

/-- The neighbour to the right stands for the next position. -/
theorem rightOf (h : t.Holds ids e) (ha : e.entered[a]? = some x) (hab : t.rightOf a = some b) :
    e.entered[b]? = some (x + 1) := by
  have hmem : a ∈ ids := h.linked.mem_iff.mpr (h.lt_size ha)
  obtain ⟨pre, post, rfl⟩ := h.linked.rightward.split_of_next hmem hab
  have hx := h.place pre.length a (by simp)
  have hy := h.place (pre.length + 1) b (by simp)
  rw [hx] at ha
  rw [hy, ← Option.some.inj ha]
  congr 1
  omega

/-- The neighbour to the left stands for the position before. -/
theorem leftOf (h : t.Holds ids e) (ha : e.entered[a]? = some x) (hab : t.leftOf a = some b) :
    e.entered[b]? = some (x - 1) := by
  have hb : b < t.size := h.linked.leftOf_lt hab
  obtain ⟨y, hy⟩ : ∃ y, e.entered[b]? = some y :=
    ⟨_, List.getElem?_eq_getElem (by rwa [h.length_entered])⟩
  have hnext := h.rightOf hy ((h.linked.rightOf_iff_leftOf hb (h.lt_size ha)).mpr hab)
  rw [ha] at hnext
  have hxy : x = y + 1 := Option.some.inj hnext
  rw [hy, hxy]
  congr 1
  omega

theorem read (h : t.Holds ids e) : t.read = e.read :=
  h.value _ _ h.head

/-- **The cells of the tape, as they are shown, are those of the window.** -/
theorem snapshot_eq (h : t.Holds ids e) : t.snapshot = e.snapshot := by
  have hwidth := h.width
  rw [Tape.snapshot, Tape.entries, h.linked.order_eq, List.map_map, Endless.snapshot,
    Endless.window, List.map_map]
  apply List.ext_getElem
  · simp only [List.length_map, List.length_range, h.linked.length_eq]
    omega
  · intro k hk hk'
    have hlt : k < ids.length := by simpa using hk
    have hplace := h.place k _ (List.getElem?_eq_getElem hlt)
    have hmark : (ids[k] == t.current) = (e.lo + (k : Int) == e.head) := by
      rw [Bool.eq_iff_iff, beq_iff_eq, beq_iff_eq]
      constructor
      · intro hcurrent
        rw [hcurrent, h.head] at hplace
        exact (Option.some.inj hplace).symm
      · intro hhead
        exact h.injective (hhead ▸ hplace) h.head
    simp only [List.getElem_map, List.getElem_range, Function.comp_apply, Tape.entry, hmark,
      h.value _ _ hplace]

/-! ### What the operations keep -/

/-- The head may be put on another cell. -/
theorem withCurrent (h : t.Holds ids e) (ha : e.entered[a]? = some x) :
    ({ t with current := a } : Tape).Holds ids { e with head := x } :=
  ⟨h.linked.withCurrent (h.lt_size ha), h.length_entered, h.width, h.place, h.value, ha, h.outside⟩

/-- Writing to a cell is writing to its position. -/
theorem setAt (h : t.Holds ids e) (ha : e.entered[a]? = some x) (v : Cell) :
    (t.setAt a v).Holds ids (e.write x v) where
  linked := h.linked.setAt (h.lt_size ha) v
  length_entered := h.length_entered
  width := h.width
  place := h.place
  head := h.head
  value := by
    intro id y hid
    have hcapacity : a < t.capacity := Nat.lt_of_lt_of_le (h.lt_size ha) h.linked.room
    rw [Tape.valueAt, slot_setAt, Endless.cells_write]
    by_cases heq : a = id
    · subst heq
      obtain rfl : x = y := Option.some.inj (ha.symm.trans hid)
      rw [if_pos ⟨rfl, hcapacity⟩, if_pos rfl]
    · have hne : y ≠ x := by
        rintro rfl
        exact heq (h.injective ha hid)
      rw [if_neg (fun hand => heq hand.1), if_neg hne]
      exact h.value id y hid
  outside := by
    intro y hy
    change y < e.lo ∨ e.hi < y at hy
    have hx := h.within ha
    rw [Endless.cells_write, if_neg (by omega)]
    exact h.outside y hy

theorem write (h : t.Holds ids e) (v : Cell) : (t.write v).Holds ids (e.write e.head v) :=
  h.setAt h.head v

/-- Cells keep their positions when one more comes into the window. -/
theorem entered_append (h : e.entered[a]? = some x) (y : Int) :
    (e.entered ++ [y])[a]? = some x := by
  rw [List.getElem?_append_left (List.getElem?_eq_some_iff.mp h).1, h]

/-- The new cell stands for the new position. -/
theorem entered_append_size (h : t.Holds ids e) (y : Int) :
    (e.entered ++ [y])[t.size]? = some y := by
  rw [← h.length_entered]
  exact List.getElem?_concat_length

/-- A spare slot is as good as a cell of which nothing but zero is known. -/
theorem value_append (h : t.Holds ids e) (hy : e.cells y = 0)
    (ha : (e.entered ++ [y])[a]? = some x) : t.valueAt a = e.cells x := by
  by_cases hlt : a < e.entered.length
  · rw [List.getElem?_append_left hlt] at ha
    exact h.value a x ha
  · obtain ⟨hbound, -⟩ := List.getElem?_eq_some_iff.mp ha
    have hsize : a = t.size := by
      rw [← h.length_entered]
      simp only [List.length_append, List.length_singleton] at hbound
      omega
    subst hsize
    rw [h.entered_append_size] at ha
    cases ha
    rw [Tape.valueAt, h.linked.spare t.size (Nat.le_refl _), hy]

/-- A cell added at the left end is the position to the left of the window. -/
theorem insertLeft (h : t.Holds ids e) : t.insertLeft.Holds (t.size :: ids) e.widenLeft where
  linked := h.linked.insertLeft
  length_entered := by simp [Endless.widenLeft, h.length_entered]
  width := by
    have hwidth := h.width
    simp only [Endless.widenLeft, size_insertLeft]
    omega
  place := by
    -- the new cell comes first, and every other cell is one place further on
    intro k id hid
    cases k with
    | zero =>
        cases hid
        simpa [Endless.widenLeft] using h.entered_append_size (e.lo - 1)
    | succ k =>
        have hplace := entered_append (h.place k id hid) (e.lo - 1)
        simp only [Endless.widenLeft, hplace]
        congr 1
        omega
  value := by
    intro id x hid
    rw [Tape.valueAt, h.linked.slot_insertLeft]
    exact h.value_append (h.outside _ (by omega)) hid
  head := by
    rw [current_insertLeft]
    exact entered_append h.head _
  outside := by
    intro x hx
    simp only [Endless.widenLeft] at hx
    exact h.outside x (by omega)

/-- A cell added at the right end is the position to the right of the window. -/
theorem insertRight (h : t.Holds ids e) : t.insertRight.Holds (ids ++ [t.size]) e.widenRight where
  linked := h.linked.insertRight
  length_entered := by simp [Endless.widenRight, h.length_entered]
  width := by
    have hwidth := h.width
    simp only [Endless.widenRight, size_insertRight]
    omega
  place := by
    -- the new cell comes last, and every other cell stays in its place
    intro k id hid
    by_cases hlt : k < ids.length
    · rw [List.getElem?_append_left hlt] at hid
      exact entered_append (h.place k id hid) _
    · obtain ⟨hbound, -⟩ := List.getElem?_eq_some_iff.mp hid
      obtain rfl : k = ids.length := by
        simp only [List.length_append, List.length_singleton] at hbound
        omega
      rw [List.getElem?_concat_length] at hid
      cases hid
      have hwidth := h.width
      simp only [Endless.widenRight, h.entered_append_size, h.linked.length_eq, hwidth]
  value := by
    intro id x hid
    rw [Tape.valueAt, h.linked.slot_insertRight]
    exact h.value_append (h.outside _ (by omega)) hid
  head := by
    rw [current_insertRight]
    exact entered_append h.head _
  outside := by
    intro x hx
    simp only [Endless.widenRight] at hx
    exact h.outside x (by omega)

/-- A move to the right leaves the window exactly if it adds a cell. -/
theorem moveRight (h : t.Holds ids e) : ∃ ids', t.moveRight.Holds ids' e.moveRight := by
  rcases hnext : t.rightOf t.current with _ | next
  · have hend : e.head = e.hi := by
      have hlast := h.rightmost
      rw [← (h.linked.rightOf_eq_none_iff h.linked.onCell).mp hnext, h.head] at hlast
      exact Option.some.inj hlast
    rw [h.linked.moveRight_of_none hnext, Endless.moveRight_of_eq hend]
    exact ⟨_, h.insertRight.withCurrent (h.entered_append_size _)⟩
  · have hplace := h.rightOf h.head hnext
    have hwithin := h.within hplace
    rw [Tape.moveRight, hnext, Endless.moveRight_of_lt (by omega)]
    exact ⟨_, h.withCurrent hplace⟩

/-- A move to the left leaves the window exactly if it adds a cell. -/
theorem moveLeft (h : t.Holds ids e) : ∃ ids', t.moveLeft.Holds ids' e.moveLeft := by
  rcases hnext : t.leftOf t.current with _ | next
  · have hend : e.head = e.lo := by
      have hfirst := h.leftmost
      rw [← (h.linked.leftOf_eq_none_iff h.linked.onCell).mp hnext, h.head] at hfirst
      exact Option.some.inj hfirst
    rw [h.linked.moveLeft_of_none hnext, Endless.moveLeft_of_eq hend]
    exact ⟨_, h.insertLeft.withCurrent (h.entered_append_size _)⟩
  · have hplace := h.leftOf h.head hnext
    have hwithin := h.within hplace
    rw [Tape.moveLeft, hnext, Endless.moveLeft_of_lt (by omega)]
    exact ⟨_, h.withCurrent hplace⟩

/-! ### Ids -/

/-- A datum that names a position names the cell there. -/
theorem lookup_of_position (h : t.Holds ids e) {id : Datum} (hx : e.positionOf? id = some x) :
    ∃ a, t.lookup id = .ok a ∧ e.entered[a]? = some x := by
  unfold Endless.positionOf? at hx
  split at hx
  · rename_i n hn
    split_ifs at hx with hpos
    have hlt := h.lt_size hx
    refine ⟨n.toNat, ?_, hx⟩
    simp only [Tape.lookup, hn, Except.bind, Tape.cellId?]
    rw [if_pos ⟨hpos, by omega⟩]
    rfl
  · cases hx

/-- A datum that names no position names no cell. -/
theorem lookup_of_no_position (h : t.Holds ids e) {id : Datum} (hx : e.positionOf? id = none) :
    ∃ fault, t.lookup id = .error fault := by
  unfold Endless.positionOf? at hx
  unfold Tape.lookup
  rcases hn : id.toInt with fault | n
  · exact ⟨fault, rfl⟩
  · have hrange : ¬ (0 ≤ n ∧ n < t.size) := by
      rintro ⟨hpos, hlt⟩
      rw [hn] at hx
      simp only [hpos, if_true, List.getElem?_eq_none_iff, h.length_entered] at hx
      omega
    refine ⟨.unknownCell n, ?_⟩
    simp only [Except.bind, Tape.cellId?, if_neg hrange, Option.elim_none]

end Tape.Holds

end TapeMachine
