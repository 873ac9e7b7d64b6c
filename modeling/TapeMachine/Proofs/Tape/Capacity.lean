import TapeMachine.Proofs.Session.Reachable
import TapeMachine.Proofs.Tape.Identity

/-!
# The capacity of the arena

The arena has spare slots, and how many they are decides when it is enlarged. It decides nothing
else. Two tapes are `Tape.Alike` if they differ in their spare slots at most; whatever is asked of
both, they give the same answer and are alike afterwards (`Tape.Alike.perform`), and room that is
reserved on one of them does not show (`Tape.Alike.reserve_left`).

What a deed does to the capacity depends only on whether it adds a cell
(`Tape.capacity_apply_cases`). From this the three facts about histories are derived: slots are
never given back (`Tape.Does.capacity_le`), none are added while there is room
(`Tape.Does.capacity_eq_of_room`), and by themselves they do not become more than twice the cells
(`Tape.Does.capacity_le_twice`).
-/

namespace TapeMachine

namespace Tape

/-! ### Tapes that differ in their spare slots -/

/-- Two linked tapes differ in the number of their spare slots at most. -/
structure Alike (t u : Tape) : Prop where
  size : t.size = u.size
  current : t.current = u.current
  leftmost : t.leftmost = u.leftmost
  rightmost : t.rightmost = u.rightmost
  /-- The values and the links are the same. -/
  slot : ∀ id, t.slot id = u.slot id
  linked : ∃ ids, t.Linked ids
  linked' : ∃ ids, u.Linked ids

namespace Alike

variable {t u v : Tape} {a : Nat}

theorem refl (ht : ∃ ids, t.Linked ids) : t.Alike t :=
  ⟨rfl, rfl, rfl, rfl, fun _ => rfl, ht, ht⟩

theorem symm (h : t.Alike u) : u.Alike t :=
  ⟨h.size.symm, h.current.symm, h.leftmost.symm, h.rightmost.symm, fun id => (h.slot id).symm,
    h.linked', h.linked⟩

/-! #### What is read -/

theorem valueAt (h : t.Alike u) (id : Nat) : t.valueAt id = u.valueAt id := by
  rw [Tape.valueAt, h.slot, Tape.valueAt]

theorem leftOf (h : t.Alike u) (id : Nat) : t.leftOf id = u.leftOf id := by
  rw [Tape.leftOf, h.slot, Tape.leftOf]

theorem rightOf (h : t.Alike u) (id : Nat) : t.rightOf id = u.rightOf id := by
  rw [Tape.rightOf, h.slot, Tape.rightOf]

theorem read (h : t.Alike u) : t.read = u.read := by
  rw [Tape.read, h.valueAt, h.current, Tape.read]

theorem follow (h : t.Alike u) (count : Nat) (id : Option Nat) :
    t.follow count id = u.follow count id := by
  induction count generalizing id with
  | zero => rw [Tape.follow, Tape.follow]
  | succ count ih =>
      cases id with
      | none => rfl
      | some id => rw [Tape.follow, Tape.follow, h.rightOf, ih]

theorem order (h : t.Alike u) : t.order = u.order := by
  rw [Tape.order, h.size, h.leftmost, h.follow, Tape.order]

theorem entries (h : t.Alike u) : t.entries = u.entries := by
  rw [Tape.entries, Tape.entries, h.order]
  refine List.map_congr_left fun id _ => ?_
  rw [entry, entry, h.valueAt, h.current]

theorem lookup (h : t.Alike u) (id : Datum) : t.lookup id = u.lookup id := by
  simp only [Tape.lookup, cellId?, h.size]

/-! #### What is done -/

theorem withCurrent (h : t.Alike u) (ha : a < t.size) :
    ({ t with current := a } : Tape).Alike { u with current := a } := by
  obtain ⟨ids, ht⟩ := h.linked
  obtain ⟨ids', hu⟩ := h.linked'
  have ha' : a < u.size := by rwa [← h.size]
  exact ⟨h.size, rfl, h.leftmost, h.rightmost, h.slot, ⟨_, ht.withCurrent ha⟩,
    ⟨_, hu.withCurrent ha'⟩⟩

theorem setAt (h : t.Alike u) (ha : a < t.size) (value : Cell) :
    (t.setAt a value).Alike (u.setAt a value) := by
  obtain ⟨ids, ht⟩ := h.linked
  obtain ⟨ids', hu⟩ := h.linked'
  have ha' : a < u.size := by rwa [← h.size]
  refine ⟨h.size, h.current, h.leftmost, h.rightmost, ?_, ⟨_, ht.setAt ha value⟩,
    ⟨_, hu.setAt ha' value⟩⟩
  intro id
  have hcap : a < t.capacity := Nat.lt_of_lt_of_le ha ht.room
  have hcap' : a < u.capacity := Nat.lt_of_lt_of_le ha' hu.room
  simp only [slot_setAt, hcap, hcap', h.slot id]

theorem write (h : t.Alike u) (value : Cell) : (t.write value).Alike (u.write value) := by
  obtain ⟨ids, ht⟩ := h.linked
  rw [Tape.write, Tape.write, ← h.current]
  exact h.setAt ht.onCell value

theorem increment (h : t.Alike u) : t.increment.Alike u.increment := by
  rw [Tape.increment, Tape.increment, h.read]
  exact h.write _

theorem decrement (h : t.Alike u) : t.decrement.Alike u.decrement := by
  rw [Tape.decrement, Tape.decrement, h.read]
  exact h.write _

theorem insertRight (h : t.Alike u) : t.insertRight.Alike u.insertRight := by
  obtain ⟨ids, ht⟩ := h.linked
  obtain ⟨ids', hu⟩ := h.linked'
  refine ⟨by simp [h.size], by simp [h.current], by simp [h.leftmost], by simp [h.size], ?_,
    ⟨_, ht.insertRight⟩, ⟨_, hu.insertRight⟩⟩
  intro id
  rw [ht.slot_insertRight, hu.slot_insertRight, h.leftOf, h.rightOf, h.slot, h.size, h.rightmost]

theorem insertLeft (h : t.Alike u) : t.insertLeft.Alike u.insertLeft := by
  obtain ⟨ids, ht⟩ := h.linked
  obtain ⟨ids', hu⟩ := h.linked'
  refine ⟨by simp [h.size], by simp [h.current], by simp [h.size], by simp [h.rightmost], ?_,
    ⟨_, ht.insertLeft⟩, ⟨_, hu.insertLeft⟩⟩
  intro id
  rw [ht.slot_insertLeft, hu.slot_insertLeft, h.leftOf, h.rightOf, h.slot, h.size, h.leftmost]

theorem moveRight (h : t.Alike u) : t.moveRight.Alike u.moveRight := by
  obtain ⟨ids, ht⟩ := h.linked
  obtain ⟨ids', hu⟩ := h.linked'
  rcases hnext : t.rightOf t.current with _ | next
  · have hnext' : u.rightOf u.current = none := by rwa [← h.current, ← h.rightOf]
    rw [ht.moveRight_of_none hnext, hu.moveRight_of_none hnext', ← h.size]
    exact h.insertRight.withCurrent (by simp)
  · have hnext' : u.rightOf u.current = some next := by rwa [← h.current, ← h.rightOf]
    simp only [Tape.moveRight, hnext, hnext']
    exact h.withCurrent (ht.rightOf_lt hnext)

theorem moveLeft (h : t.Alike u) : t.moveLeft.Alike u.moveLeft := by
  obtain ⟨ids, ht⟩ := h.linked
  obtain ⟨ids', hu⟩ := h.linked'
  rcases hnext : t.leftOf t.current with _ | next
  · have hnext' : u.leftOf u.current = none := by rwa [← h.current, ← h.leftOf]
    rw [ht.moveLeft_of_none hnext, hu.moveLeft_of_none hnext', ← h.size]
    exact h.insertLeft.withCurrent (by simp)
  · have hnext' : u.leftOf u.current = some next := by rwa [← h.current, ← h.leftOf]
    simp only [Tape.moveLeft, hnext, hnext']
    exact h.withCurrent (ht.leftOf_lt hnext)

/-- Room that is reserved does not show. -/
theorem reserve_left (h : t.Alike u) (extra : Int) : (t.reserve extra).Alike u := by
  obtain ⟨ids, ht⟩ := h.linked
  refine ⟨by simp [h.size], by simp [h.current], by simp [h.leftmost], by simp [h.rightmost], ?_,
    ⟨_, ht.reserve extra⟩, h.linked'⟩
  intro id
  rw [slot_reserve, h.slot]

theorem refill (h : t.Alike u) (values : List Cell) :
    (t.refill values).Alike (u.refill values) := by
  unfold Tape.refill
  split_ifs with hempty
  · exact h
  · exact .refl ⟨_, linked_row (by simpa using hempty)⟩

end Alike

/-! ### Requests -/

/-- Two answers of tapes are the same, and the tapes that they leave are alike. -/
inductive SameAnswer : Except Fault Reply × Tape → Except Fault Reply × Tape → Prop
  | same (result : Except Fault Reply) {t u : Tape} : t.Alike u →
      SameAnswer (result, t) (result, u)

/-- **Tapes that are alike give the same answers and stay alike.** -/
theorem Alike.perform {t u : Tape} (h : t.Alike u) (request : TapeRequest) :
    SameAnswer (t.perform request) (u.perform request) := by
  cases request with
  | moveRight => exact .same _ h.moveRight
  | moveLeft => exact .same _ h.moveLeft
  | increment => exact .same _ h.increment
  | decrement => exact .same _ h.decrement
  | read =>
      change SameAnswer (.ok (.number t.read.toInt), t) _
      rw [h.read]
      exact .same _ h
  | write value => exact .same _ (h.write _)
  | valueOf id =>
      simp only [perform_valueOf, h.lookup, h.valueAt]
      exact .same _ h
  | setValue id value =>
      simp only [perform_setValue, ← h.lookup]
      rcases hid : t.lookup id with fault | n
      · exact .same _ h
      · exact .same _ (h.setAt (lookup_lt hid) _)
  | insertLeft =>
      change SameAnswer (.ok (.number t.size), t.insertLeft) _
      rw [h.size]
      exact .same _ h.insertLeft
  | insertRight =>
      change SameAnswer (.ok (.number t.size), t.insertRight) _
      rw [h.size]
      exact .same _ h.insertRight
  | refill values =>
      simp only [perform_refill]
      cases values.toCells with
      | error fault => exact .same _ h
      | ok cells => exact .same _ (h.refill cells)
  | reserve extra => exact .same _ ((h.reserve_left extra).symm.reserve_left extra).symm
  | order =>
      change SameAnswer (.ok (.numbers (t.order.map fun (id : Nat) => (id : Int))), t) _
      rw [h.order]
      exact .same _ h
  | snapshot =>
      change SameAnswer (.ok (.cells t.snapshot), t) _
      rw [snapshot, h.entries]
      exact .same _ h
  | values =>
      change SameAnswer (.ok (.numbers (t.toList.map (·.toInt))), t) _
      rw [toList, h.entries]
      exact .same _ h
  | size =>
      change SameAnswer (.ok (.number t.size), t) _
      rw [h.size]
      exact .same _ h
  | render =>
      change SameAnswer (.ok (.text t.render), t) _
      rw [render, h.entries]
      exact .same _ h

/-! ### Slots -/

/-- Whether a deed reserves room. -/
def Deed.Reserves : Deed → Prop
  | .reserve _ => True
  | _ => False

variable {t u : Tape} {d : Deed} {deeds : List Deed} {ids : List Nat}

/-- The slots after reserving room for one cell. -/
theorem capacity_reserve_one (t : Tape) :
    (t.reserve 1).capacity =
      if t.size + 1 ≤ t.capacity then t.capacity else max (2 * t.capacity) (t.size + 1) := by
  unfold reserve
  by_cases hroom : t.size + 1 ≤ t.capacity
  · rw [if_pos (by omega), if_pos hroom]
  · rw [if_neg (by omega), if_neg hroom]
    simp only [capacity, Array.size_append, Array.size_replicate]
    omega

theorem capacity_moveRight (t : Tape) :
    t.moveRight.capacity =
      if t.rightOf t.current = none then (t.reserve 1).capacity else t.capacity := by
  rcases hnext : t.rightOf t.current with _ | next
  · rw [if_pos rfl, ← capacity_alloc, ← t.alloc.capacity_link t.current t.size]
    simp only [moveRight, hnext, capacity]
  · simp only [moveRight, hnext, capacity, reduceCtorEq, if_false]

theorem capacity_moveLeft (t : Tape) :
    t.moveLeft.capacity =
      if t.leftOf t.current = none then (t.reserve 1).capacity else t.capacity := by
  rcases hnext : t.leftOf t.current with _ | next
  · rw [if_pos rfl, ← capacity_alloc, ← t.alloc.capacity_link t.size t.current]
    simp only [moveLeft, hnext, capacity]
  · simp only [moveLeft, hnext, capacity, reduceCtorEq, if_false]

/-- **What a deed does to the size and the capacity**, if it is not to reserve room: nothing, or it
adds a cell and reserves room for that. -/
theorem capacity_apply_cases (t : Tape) (hd : ¬ d.Reserves) :
    ((d.apply t).size = t.size ∧ (d.apply t).capacity = t.capacity) ∨
      ((d.apply t).size = t.size + 1 ∧ (d.apply t).capacity = (t.reserve 1).capacity) := by
  cases d with
  | right =>
      rw [Deed.apply, size_moveRight, capacity_moveRight]
      split_ifs
      · exact .inr ⟨rfl, rfl⟩
      · exact .inl ⟨rfl, rfl⟩
  | left =>
      rw [Deed.apply, size_moveLeft, capacity_moveLeft]
      split_ifs
      · exact .inr ⟨rfl, rfl⟩
      · exact .inl ⟨rfl, rfl⟩
  | set id value => exact .inl ⟨rfl, capacity_setAt t id value⟩
  | insertLeft => exact .inr ⟨size_insertLeft t, capacity_insertLeft t⟩
  | insertRight => exact .inr ⟨size_insertRight t, capacity_insertRight t⟩
  | reserve extra => exact absurd trivial hd

theorem capacity_le_apply (t : Tape) (d : Deed) : t.capacity ≤ (d.apply t).capacity := by
  by_cases hd : d.Reserves
  · cases d with
    | reserve extra => exact t.capacity_le_capacity_reserve extra
    | _ => exact absurd hd id
  · have hreserve := t.capacity_le_capacity_reserve 1
    rcases t.capacity_apply_cases hd with ⟨-, hcap⟩ | ⟨-, hcap⟩ <;> omega

/-- Slots are never given back. -/
theorem Does.capacity_le (h : Does t deeds u) : t.capacity ≤ u.capacity := by
  induction h with
  | nil t => exact Nat.le_refl _
  | cons _ _ ih => exact (capacity_le_apply _ _).trans ih

theorem Does.size_le (h : Does t deeds u) : t.size ≤ u.size := by
  induction h with
  | nil t => exact Nat.le_refl _
  | cons _ _ ih => exact (size_le_apply _ _).trans ih

/-- No slots are added while there is room. -/
theorem Does.capacity_eq_of_room (h : Does t deeds u) (hdeeds : ∀ d ∈ deeds, ¬ d.Reserves)
    (hroom : u.size ≤ t.capacity) : u.capacity = t.capacity := by
  induction h with
  | nil t => rfl
  | @cons t u d deeds _ hrest ih =>
      have hd : ¬ d.Reserves := hdeeds d List.mem_cons_self
      have hsize := hrest.size_le
      have hsame : (d.apply t).capacity = t.capacity := by
        rcases t.capacity_apply_cases hd with ⟨-, hcap⟩ | ⟨hone, hcap⟩
        · exact hcap
        · rw [hcap, capacity_reserve_one, if_pos (by omega)]
      rw [ih (fun d hmem => hdeeds d (List.mem_cons_of_mem _ hmem)) (by rwa [hsame]), hsame]

/-- By themselves the slots do not become more than twice the cells, except that there are sixteen
to begin with. -/
theorem Does.capacity_le_twice (h : Does t deeds u) (hdeeds : ∀ d ∈ deeds, ¬ d.Reserves)
    (ht : ∃ ids, t.Linked ids) (hle : t.capacity ≤ max 16 (2 * t.size)) :
    u.capacity ≤ max 16 (2 * u.size) := by
  induction h with
  | nil t => exact hle
  | @cons t u d deeds hfits _ ih =>
      obtain ⟨ids, hids⟩ := ht
      obtain ⟨ids', hids', -⟩ := hids.apply hfits
      refine ih (fun d hmem => hdeeds d (List.mem_cons_of_mem _ hmem)) ⟨ids', hids'⟩ ?_
      have hroom := hids.room
      rcases t.capacity_apply_cases (hdeeds d List.mem_cons_self) with ⟨hsame, hcap⟩ | ⟨hone, hcap⟩
      · rwa [hsame, hcap]
      · -- an arena that is enlarged was full, so its double is twice the cells
        rw [hone, hcap, capacity_reserve_one]
        split_ifs <;> omega

/-- A tape starts with that many slots. -/
theorem capacity_ofCells_le (values : List Cell) :
    (ofCells values).capacity ≤ max 16 (2 * (ofCells values).size) := by
  unfold ofCells
  split_ifs <;> rw [capacity_row] <;> exact Nat.le_refl _

end Tape

end TapeMachine
