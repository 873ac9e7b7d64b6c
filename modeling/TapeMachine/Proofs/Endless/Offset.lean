import TapeMachine.Proofs.Endless.Window
import TapeMachine.Proofs.Tape.Identity

/-!
# Cells by their distance from the head

On a tape a cell can be named by how far to the right of the head it is (`Tape.cellAt`). A place
that no cell has been made for yet counts as zero, so there is an answer at every distance, as on an
endless tape. The two agree (`Tape.Holds.cellAt`), and every linked tape is the window of an endless
one (`Tape.Linked.holds`).
-/

namespace TapeMachine

namespace Tape

variable {t : Tape} {ids : List Nat} {e : Endless}

/-- The value so many places to the right of the head, or to the left if the number is negative. A
place without a cell counts as zero. -/
def cellAt (t : Tape) (o : Int) : Cell :=
  if 0 ≤ t.place + o then (t.order[(t.place + o).toNat]?).elim 0 t.valueAt else 0

/-- At no distance from the head is the cell under it. -/
theorem Linked.cellAt_zero (h : t.Linked ids) : t.cellAt 0 = t.read := by
  have hmem : t.current ∈ ids := h.mem_iff.mpr h.onCell
  simp [cellAt, h.order_eq, h.place_eq, List.getElem?_idxOf hmem, read]

/-- The endless tape that has the cells of a tape, the first of them at position zero. -/
def unrolled (t : Tape) : Endless where
  cells x := t.cellAt (x - t.place)
  head := t.place
  lo := 0
  hi := t.size - 1
  entered := (List.range t.size).map fun id => (t.order.idxOf id : Int)

theorem cells_unrolled (t : Tape) (x : Int) :
    t.unrolled.cells x = if 0 ≤ x then (t.order[x.toNat]?).elim 0 t.valueAt else 0 := by
  have hback : t.place + (x - t.place) = x := by omega
  simp only [unrolled, cellAt, hback]

/-- **A linked tape is the window of an endless one.** -/
theorem Linked.holds (h : t.Linked ids) : t.Holds ids t.unrolled := by
  have hentered : ∀ id, id < t.size → t.unrolled.entered[id]? = some (ids.idxOf id : Int) := by
    intro id hid
    simp [unrolled, h.order_eq, hid]
  have hindex : ∀ id, id < t.size → ids[ids.idxOf id]? = some id := by
    intro id hid
    exact List.getElem?_idxOf (h.mem_iff.mpr hid)
  refine ⟨h, by simp [unrolled], by simp [unrolled], ?_, ?_, ?_, ?_⟩
  · intro k id hk
    obtain ⟨hlt, rfl⟩ := List.getElem?_eq_some_iff.mp hk
    rw [hentered _ (h.mem_iff.mp (List.getElem_mem hlt)), h.nodup.idxOf_getElem]
    simp [unrolled]
  · intro id x hx
    have hid : id < t.size := by simpa [unrolled] using (List.getElem?_eq_some_iff.mp hx).1
    rw [hentered id hid] at hx
    cases hx
    simp [cells_unrolled, h.order_eq, hindex id hid]
  · rw [hentered _ h.onCell]
    simp [unrolled, h.place_eq]
  · intro x hx
    simp only [unrolled] at hx
    rw [cells_unrolled]
    split_ifs with hpos
    · have hbeyond : ids[x.toNat]? = none := by
        rw [List.getElem?_eq_none_iff, h.length_eq]
        omega
      rw [h.order_eq, hbeyond]
      rfl
    · rfl

/-- **Distances from the head are the same on a tape and on the endless tape that it stands for.** -/
theorem Holds.cellAt (h : t.Holds ids e) (o : Int) : t.cellAt o = e.cells (e.head + o) := by
  have hwidth := h.width
  have hhead : e.head = e.lo + t.place := by
    have hmem : t.current ∈ ids := h.linked.mem_iff.mpr h.linked.onCell
    have hplace := h.place _ _ (List.getElem?_idxOf hmem)
    rw [h.head] at hplace
    rw [Option.some.inj hplace, h.linked.place_eq]
  unfold Tape.cellAt
  split_ifs with hpos
  · rw [h.linked.order_eq]
    rcases hcell : ids[(t.place + o).toNat]? with _ | id
    · have hbeyond := List.getElem?_eq_none_iff.mp hcell
      rw [h.linked.length_eq] at hbeyond
      exact (h.outside _ (by omega)).symm
    · have hplace := h.place _ _ hcell
      have hx : e.head + o = e.lo + ((t.place + o).toNat : Int) := by omega
      rw [hx]
      exact h.value id _ hplace
  · exact (h.outside _ (by omega)).symm

end Tape

end TapeMachine
