import Mathlib.Data.List.Infix
import Mathlib.Data.List.Nodup
import TapeMachine.Proofs.Tape.Linked

/-!
# The identity of cells

A driver keeps the ids of cells from one call to the next, so a cell must keep its id, its value and
its neighbours whatever grows around it. A `Tape.Deed` is one thing that is done to a tape without
replacing it, and `Tape.Does` a whole history of deeds.

`Tape.Keeps` says what a history leaves of a tape: its cells are still a block of the order, those
that were not written to have their values, and the head has moved by as many places as there were
moves to the right over moves to the left. One deed keeps this much (`Tape.keeps_apply`); places
within a block stay as far apart as they were (`Tape.idxOf_add_idxOf`), so that a history does
(`Tape.Does.keeps`).

The way out and back again is the case in which the moves cancel; it adds as many cells as the way
out lacks (`Tape.size_iterate_moveRight`, `Tape.size_iterate_moveLeft`).
-/

namespace TapeMachine

namespace Tape

/-! ### Deeds -/

/-- What can be done to a tape without replacing it. -/
inductive Deed where
  | right
  | left
  /-- An increment, a decrement or a write of the cell with the given id. -/
  | set (id : Nat) (value : Cell)
  | insertLeft
  | insertRight
  | reserve (extra : Int)
deriving DecidableEq, Repr

namespace Deed

/-- The tape after a deed. -/
def apply (t : Tape) : Deed → Tape
  | .right => t.moveRight
  | .left => t.moveLeft
  | .set id value => t.setAt id value
  | .insertLeft => t.insertLeft
  | .insertRight => t.insertRight
  | .reserve extra => t.reserve extra

/-- By how many places a deed moves the head to the right. -/
def shift : Deed → Int
  | .right => 1
  | .left => -1
  | _ => 0

/-- The cell whose value a deed may change. -/
def target? : Deed → Option Nat
  | .set id _ => some id
  | _ => none

/-- A deed changes no value but that of a cell. -/
def Fits (t : Tape) (d : Deed) : Prop :=
  ∀ id, d.target? = some id → id < t.size

end Deed

/-- The number of moves to the right less that of moves to the left. -/
def net : List Deed → Int
  | [] => 0
  | d :: deeds => d.shift + net deeds

/-- The cells whose values may have been changed. -/
def targets (deeds : List Deed) : List Nat :=
  deeds.filterMap Deed.target?

/-- Deeds that are done one after the other lead from one tape to another. -/
inductive Does : Tape → List Deed → Tape → Prop
  | nil (t : Tape) : Does t [] t
  | cons {t u : Tape} {d : Deed} {deeds : List Deed} :
      d.Fits t → Does (d.apply t) deeds u → Does t (d :: deeds) u

variable {t u v : Tape} {d : Deed} {deeds deeds' : List Deed} {ids : List Nat} {a b : Nat}

theorem Does.single (h : d.Fits t) : Does t [d] (d.apply t) :=
  .cons h (.nil _)

theorem Does.append (h : Does t deeds u) (h' : Does u deeds' v) : Does t (deeds ++ deeds') v := by
  induction h with
  | nil t => exact h'
  | cons hfits _ ih => exact .cons hfits (ih h')

/-- Deeds lead to one tape only. -/
theorem Does.unique (h : Does t deeds u) (h' : Does t deeds v) : u = v := by
  induction h with
  | nil t => cases h'; rfl
  | cons _ _ ih =>
      cases h' with
      | cons _ hrest => exact ih hrest

@[simp] theorem net_append : net (deeds ++ deeds') = net deeds + net deeds' := by
  induction deeds with
  | nil => simp [net]
  | cons d deeds ih => rw [List.cons_append, net, net, ih, Int.add_assoc]

@[simp] theorem net_replicate (n : Nat) (d : Deed) : net (List.replicate n d) = n * d.shift := by
  induction n with
  | zero => simp [net]
  | succ n ih =>
      rw [List.replicate_succ, net, ih, Int.natCast_succ, Int.add_mul, Int.one_mul, Int.add_comm]

@[simp] theorem mem_targets_append :
    a ∈ targets (deeds ++ deeds') ↔ a ∈ targets deeds ∨ a ∈ targets deeds' := by
  simp [targets]

/-! ### What one deed keeps -/

/-- A deed leaves a tape linked, and the cells from before a block of those after. -/
theorem Linked.apply (h : t.Linked ids) (hfits : d.Fits t) :
    ∃ ids', (d.apply t).Linked ids' ∧ ids <:+: ids' := by
  cases d with
  | right =>
      refine ⟨_, h.moveRight, ?_⟩
      split_ifs
      · exact (List.prefix_append ids [t.size]).isInfix
      · exact List.infix_refl ids
  | left =>
      refine ⟨_, h.moveLeft, ?_⟩
      split_ifs
      · exact (List.suffix_cons t.size ids).isInfix
      · exact List.infix_refl ids
  | set id value => exact ⟨_, h.setAt (hfits id rfl) value, List.infix_refl ids⟩
  | insertLeft => exact ⟨_, h.insertLeft, (List.suffix_cons t.size ids).isInfix⟩
  | insertRight => exact ⟨_, h.insertRight, (List.prefix_append ids [t.size]).isInfix⟩
  | reserve extra => exact ⟨_, h.reserve extra, List.infix_refl ids⟩

/-- The slots do not depend on where the head is. -/
theorem slot_withCurrent (t : Tape) (current id : Nat) :
    ({ t with current := current } : Tape).slot id = t.slot id := rfl

/-- A new cell at an end changes no value: a spare slot is zero already. -/
theorem Linked.valueAt_insertRight (h : t.Linked ids) (id : Nat) :
    t.insertRight.valueAt id = t.valueAt id := by
  rw [valueAt, h.slot_insertRight]
  rfl

theorem Linked.valueAt_insertLeft (h : t.Linked ids) (id : Nat) :
    t.insertLeft.valueAt id = t.valueAt id := by
  rw [valueAt, h.slot_insertLeft]
  rfl

/-- A move changes no value. -/
theorem Linked.valueAt_moveRight (h : t.Linked ids) (id : Nat) :
    t.moveRight.valueAt id = t.valueAt id := by
  rcases hnext : t.rightOf t.current with _ | next
  · rw [h.moveRight_of_none hnext, valueAt, slot_withCurrent]
    exact h.valueAt_insertRight id
  · rw [Tape.moveRight, hnext]
    rfl

theorem Linked.valueAt_moveLeft (h : t.Linked ids) (id : Nat) :
    t.moveLeft.valueAt id = t.valueAt id := by
  rcases hnext : t.leftOf t.current with _ | next
  · rw [h.moveLeft_of_none hnext, valueAt, slot_withCurrent]
    exact h.valueAt_insertLeft id
  · rw [Tape.moveLeft, hnext]
    rfl

/-- A deed changes no value but that of its target. -/
theorem Linked.valueAt_apply (h : t.Linked ids) (hid : d.target? ≠ some a) :
    (d.apply t).valueAt a = t.valueAt a := by
  cases d with
  | right => exact h.valueAt_moveRight a
  | left => exact h.valueAt_moveLeft a
  | set id value =>
      have hne : ¬ (id = a ∧ id < t.capacity) := fun heq => hid (congrArg some heq.1)
      rw [Deed.apply, valueAt, slot_setAt, if_neg hne]
      rfl
  | insertLeft => exact h.valueAt_insertLeft a
  | insertRight => exact h.valueAt_insertRight a
  | reserve extra => rw [Deed.apply, valueAt, slot_reserve]; rfl

/-- The right neighbour of a cell has the next place. -/
theorem Linked.idxOf_of_rightOf (h : t.Linked ids) (ha : a < t.size) (hab : t.rightOf a = some b) :
    ids.idxOf b = ids.idxOf a + 1 := by
  obtain ⟨pre, post, rfl⟩ := h.rightward.split_of_next (h.mem_iff.mpr ha) hab
  have hnodup := h.nodup
  simp only [List.nodup_append, List.nodup_cons, List.mem_cons, not_or] at hnodup
  obtain ⟨-, ⟨⟨hne, -⟩, -⟩, hdisjoint⟩ := hnodup
  have hapre : a ∉ pre := fun hmem => hdisjoint a hmem a (.inl rfl) rfl
  have hbpre : b ∉ pre := fun hmem => hdisjoint b hmem b (.inr (.inl rfl)) rfl
  rw [List.idxOf_append_of_notMem hapre, List.idxOf_append_of_notMem hbpre, List.idxOf_cons_self,
    List.idxOf_cons_ne _ hne, List.idxOf_cons_self]

/-- A new cell at the right end is right of the last one. -/
theorem Linked.rightOf_insertRight (h : t.Linked ids) :
    t.insertRight.rightOf t.rightmost = some t.size := by
  rw [rightOf, h.slot_insertRight, if_pos rfl]

/-- A new cell at the left end is left of the first one. -/
theorem Linked.leftOf_insertLeft (h : t.Linked ids) :
    t.insertLeft.leftOf t.leftmost = some t.size := by
  rw [leftOf, h.slot_insertLeft, if_pos rfl]

/-- After a move to the right the head is right of where it was. -/
theorem Linked.rightOf_moveRight (h : t.Linked ids) :
    t.moveRight.rightOf t.current = some t.moveRight.current := by
  rcases hnext : t.rightOf t.current with _ | next
  · rw [h.moveRight_of_none hnext, (h.rightOf_eq_none_iff h.onCell).mp hnext, rightOf,
      slot_withCurrent]
    exact h.rightOf_insertRight
  · rw [Tape.moveRight, hnext]
    exact hnext

/-- After a move to the left the head is left of where it was. -/
theorem Linked.leftOf_moveLeft (h : t.Linked ids) :
    t.moveLeft.leftOf t.current = some t.moveLeft.current := by
  rcases hnext : t.leftOf t.current with _ | next
  · rw [h.moveLeft_of_none hnext, (h.leftOf_eq_none_iff h.onCell).mp hnext, leftOf,
      slot_withCurrent]
    exact h.leftOf_insertLeft
  · rw [Tape.moveLeft, hnext]
    exact hnext

/-- A move to the right adds a cell where there is none. -/
theorem size_moveRight (t : Tape) :
    t.moveRight.size = if t.rightOf t.current = none then t.size + 1 else t.size := by
  rcases hnext : t.rightOf t.current with _ | next
  · simp [moveRight, hnext]
  · simp [moveRight, hnext]

/-- A move to the left adds a cell where there is none. -/
theorem size_moveLeft (t : Tape) :
    t.moveLeft.size = if t.leftOf t.current = none then t.size + 1 else t.size := by
  rcases hnext : t.leftOf t.current with _ | next
  · simp [moveLeft, hnext]
  · simp [moveLeft, hnext]

theorem size_le_apply (t : Tape) (d : Deed) : t.size ≤ (d.apply t).size := by
  cases d with
  | right =>
      rw [Deed.apply, size_moveRight]
      split_ifs <;> omega
  | left =>
      rw [Deed.apply, size_moveLeft]
      split_ifs <;> omega
  | _ => simp [Deed.apply]

/-- A deed moves the head by its shift, as places are counted afterwards. -/
theorem Linked.idxOf_apply (h : t.Linked ids) {ids' : List Nat} (h' : (d.apply t).Linked ids') :
    (ids'.idxOf (d.apply t).current : Int) = ids'.idxOf t.current + d.shift := by
  have hcell : t.current < (d.apply t).size := Nat.lt_of_lt_of_le h.onCell (t.size_le_apply d)
  cases d with
  | right =>
      have hplace := h'.idxOf_of_rightOf hcell h.rightOf_moveRight
      simp only [Deed.apply, Deed.shift] at hplace ⊢
      omega
  | left =>
      have hright := (h'.rightOf_iff_leftOf h'.onCell hcell).mpr h.leftOf_moveLeft
      have hplace := h'.idxOf_of_rightOf h'.onCell hright
      simp only [Deed.apply, Deed.shift] at hplace ⊢
      omega
  | _ => simp [Deed.apply, Deed.shift]

/-! ### Histories -/

/-- The place of the head, counted from the left end. -/
def place (t : Tape) : Nat :=
  t.order.idxOf t.current

theorem Linked.place_eq (h : t.Linked ids) : t.place = ids.idxOf t.current := by
  rw [place, h.order_eq]

/-- What a history of deeds keeps of a tape. -/
structure Keeps (t : Tape) (deeds : List Deed) (u : Tape) : Prop where
  order : t.order <:+: u.order
  size : t.size ≤ u.size
  value : ∀ id, id < t.size → id ∉ targets deeds → u.valueAt id = t.valueAt id
  head : (u.place : Int) = u.order.idxOf t.current + net deeds

/-- What one deed keeps. -/
theorem keeps_apply (h : t.Linked ids) (hfits : d.Fits t) : t.Keeps [d] (d.apply t) := by
  obtain ⟨ids', h', hblock⟩ := h.apply hfits
  refine ⟨?_, t.size_le_apply d, ?_, ?_⟩
  · rwa [h.order_eq, h'.order_eq]
  · intro id _ hid
    refine h.valueAt_apply fun htarget => hid ?_
    simp [targets, htarget]
  · rw [h'.place_eq, h'.order_eq, h.idxOf_apply h']
    simp [net]

/-- Places within a block are as far apart as they are in the block by itself. -/
theorem idxOf_add_idxOf {block whole : List Nat} (hblock : block <:+: whole) (hnodup : whole.Nodup)
    (ha : a ∈ block) (hb : b ∈ block) :
    whole.idxOf a + block.idxOf b = whole.idxOf b + block.idxOf a := by
  obtain ⟨pre, post, rfl⟩ := hblock
  have hplace : ∀ c ∈ block, (pre ++ block ++ post).idxOf c = pre.length + block.idxOf c := by
    intro c hc
    have hpre : c ∉ pre := by
      rw [List.append_assoc, List.nodup_append] at hnodup
      exact fun hmem => hnodup.2.2 c hmem c (List.mem_append_left _ hc) rfl
    rw [List.idxOf_append_of_mem (List.mem_append_right pre hc), List.idxOf_append_of_notMem hpre]
  rw [hplace a ha, hplace b hb]
  omega

theorem Keeps.trans {ids' ids'' : List Nat} (ht : t.Linked ids) (hu : u.Linked ids')
    (hv : v.Linked ids'') (h : t.Keeps deeds u) (h' : u.Keeps deeds' v) :
    t.Keeps (deeds ++ deeds') v := by
  refine ⟨h.order.trans h'.order, h.size.trans h'.size, ?_, ?_⟩
  · intro id hid htargets
    rw [mem_targets_append, not_or] at htargets
    rw [h'.value id (Nat.lt_of_lt_of_le hid h.size) htargets.2, h.value id hid htargets.1]
  · have hapart : v.order.idxOf u.current + u.order.idxOf t.current =
        v.order.idxOf t.current + u.place := by
      refine idxOf_add_idxOf h'.order (by rw [hv.order_eq]; exact hv.nodup) ?_ ?_
      · rw [hu.order_eq, hu.mem_iff]
        exact hu.onCell
      · rw [hu.order_eq, hu.mem_iff]
        exact Nat.lt_of_lt_of_le ht.onCell h.size
    have hhead := h.head
    have hhead' := h'.head
    rw [net_append]
    omega

/-- **What a history keeps**, and the tape is linked afterwards. -/
theorem Does.keeps (h : Does t deeds u) (ht : ∃ ids, t.Linked ids) :
    (∃ ids, u.Linked ids) ∧ t.Keeps deeds u := by
  induction h with
  | nil t =>
      refine ⟨ht, List.infix_refl _, Nat.le_refl _, fun _ _ _ => rfl, ?_⟩
      simp [net, place]
  | @cons t u d deeds hfits _ ih =>
      obtain ⟨ids, hids⟩ := ht
      obtain ⟨ids', hids', -⟩ := hids.apply hfits
      obtain ⟨⟨ids'', hids''⟩, hkeeps⟩ := ih ⟨ids', hids'⟩
      exact ⟨⟨ids'', hids''⟩, (keeps_apply hids hfits).trans hids hids' hids'' hkeeps⟩

/-! ### The way out and back -/

/-- The cells to the right of the head. -/
def beyond (t : Tape) : List Nat :=
  t.order.drop (t.place + 1)

theorem Linked.place_lt (h : t.Linked ids) : t.place < t.size := by
  rw [h.place_eq, ← h.length_eq, List.idxOf_lt_length_iff]
  exact h.mem_iff.mpr h.onCell

theorem Linked.length_beyond (h : t.Linked ids) : t.beyond.length = t.size - (t.place + 1) := by
  rw [beyond, h.order_eq, List.length_drop, h.length_eq]

/-- The last cell has the last place. -/
theorem Linked.idxOf_rightmost (h : t.Linked ids) : ids.idxOf t.rightmost + 1 = t.size := by
  have hmem : t.rightmost ∈ ids := List.mem_of_getLast? h.last
  have hnext := h.insertRight.idxOf_of_rightOf
    (by rw [size_insertRight]; exact Nat.lt_succ_of_lt h.rightmost_lt) h.rightOf_insertRight
  have hnew : t.size ∉ ids := fun hmem => Nat.lt_irrefl _ (h.mem_iff.mp hmem)
  rw [List.idxOf_append_of_mem hmem, List.idxOf_append_of_notMem hnew, List.idxOf_cons_self,
    h.length_eq] at hnext
  exact hnext.symm

/-- The first cell has the first place. -/
theorem Linked.idxOf_leftmost (h : t.Linked ids) : ids.idxOf t.leftmost = 0 := by
  obtain ⟨rest, rfl⟩ := List.head?_eq_some_iff.mp h.first
  exact List.idxOf_cons_self

/-- A move to the right goes to the next place, and there is a cell for it afterwards. -/
theorem Linked.place_moveRight (h : t.Linked ids) :
    t.moveRight.place = t.place + 1 ∧ t.moveRight.size = max t.size (t.place + 2) := by
  rcases hnext : t.rightOf t.current with _ | next
  · have hplace : t.place + 1 = t.size := by
      rw [h.place_eq, (h.rightOf_eq_none_iff h.onCell).mp hnext, h.idxOf_rightmost]
    have hlinked : t.moveRight.Linked (ids ++ [t.size]) := by
      simpa only [hnext, if_true] using h.moveRight
    have hcurrent : t.moveRight.current = t.moveRight.rightmost := by
      rw [h.moveRight_of_none hnext]
      rfl
    have hlast := hlinked.idxOf_rightmost
    rw [← hcurrent, ← hlinked.place_eq, size_moveRight, if_pos hnext] at hlast
    rw [size_moveRight, if_pos hnext]
    omega
  · have hone := h.idxOf_of_rightOf h.onCell hnext
    have hmoved : t.moveRight = { t with current := next } := by rw [Tape.moveRight, hnext]
    have hlinked := h.withCurrent (h.rightOf_lt hnext)
    rw [← h.place_eq, ← hlinked.place_eq, ← hmoved] at hone
    have hlt := hlinked.place_lt
    rw [← hmoved, size_moveRight, hnext, if_neg (by simp)] at hlt
    rw [size_moveRight, hnext, if_neg (by simp)]
    omega

/-- A move to the left goes to the place before, or to a new cell that has the first place. -/
theorem Linked.place_moveLeft (h : t.Linked ids) :
    t.moveLeft.place = t.place - 1 ∧ t.moveLeft.size = t.size + (1 - t.place) := by
  rcases hnext : t.leftOf t.current with _ | next
  · have hplace : t.place = 0 := by
      rw [h.place_eq, (h.leftOf_eq_none_iff h.onCell).mp hnext, h.idxOf_leftmost]
    have hlinked : t.moveLeft.Linked (t.size :: ids) := by
      simpa only [hnext, if_true] using h.moveLeft
    have hcurrent : t.moveLeft.current = t.moveLeft.leftmost := by
      rw [h.moveLeft_of_none hnext]
      rfl
    have hfirst := hlinked.idxOf_leftmost
    rw [← hcurrent, ← hlinked.place_eq] at hfirst
    rw [size_moveLeft, if_pos hnext]
    omega
  · have hright := (h.rightOf_iff_leftOf (h.leftOf_lt hnext) h.onCell).mpr hnext
    have hone := h.idxOf_of_rightOf (h.leftOf_lt hnext) hright
    have hmoved : t.moveLeft = { t with current := next } := by rw [Tape.moveLeft, hnext]
    have hlinked := h.withCurrent (h.leftOf_lt hnext)
    rw [← h.place_eq, ← hlinked.place_eq, ← hmoved] at hone
    rw [size_moveLeft, hnext, if_neg (by simp)]
    omega

/-- The way out adds the cells that it lacks. -/
theorem Linked.size_iterate_moveRight (h : t.Linked ids) (n : Nat) :
    (Tape.moveRight^[n] t).size = max t.size (t.place + n + 1) := by
  induction n generalizing t ids with
  | zero =>
      have hlt := h.place_lt
      simp only [Function.iterate_zero, id]
      omega
  | succ n ih =>
      obtain ⟨hplace, hsize⟩ := h.place_moveRight
      rw [Function.iterate_succ_apply, ih h.moveRight, hplace, hsize]
      omega

theorem Linked.size_iterate_moveLeft (h : t.Linked ids) (n : Nat) :
    (Tape.moveLeft^[n] t).size = t.size + (n - t.place) := by
  induction n generalizing t ids with
  | zero =>
      simp only [Function.iterate_zero, id]
      omega
  | succ n ih =>
      obtain ⟨hplace, hsize⟩ := h.place_moveLeft
      rw [Function.iterate_succ_apply, ih h.moveLeft, hplace, hsize]
      omega

/-- Many moves to the right. -/
theorem does_replicate_right (t : Tape) (n : Nat) :
    Does t (List.replicate n .right) (moveRight^[n] t) := by
  induction n generalizing t with
  | zero => exact .nil t
  | succ n ih => exact .cons (fun _ h => nomatch h) (ih t.moveRight)

/-- Many moves to the left. -/
theorem does_replicate_left (t : Tape) (n : Nat) :
    Does t (List.replicate n .left) (moveLeft^[n] t) := by
  induction n generalizing t with
  | zero => exact .nil t
  | succ n ih => exact .cons (fun _ h => nomatch h) (ih t.moveLeft)

/-- The way out by a number of places and back again. -/
def outAndBack (n : Nat) : List Deed :=
  List.replicate n .right ++ List.replicate n .left

theorem does_outAndBack (t : Tape) (n : Nat) :
    Does t (outAndBack n) (moveLeft^[n] (moveRight^[n] t)) :=
  (does_replicate_right t n).append (does_replicate_left _ n)

/-- **Out and back**: the head is on its cell again, no value has changed, and the cells that were
missing on the way out have been added. -/
theorem Does.outAndBack {n : Nat} (h : Does t (outAndBack n) u) (ht : t.Linked ids) :
    u.current = t.current ∧ (∀ id < t.size, u.valueAt id = t.valueAt id) ∧
      u.size = t.size + (n - t.beyond.length) := by
  obtain ⟨⟨ids', hids'⟩, hkeeps⟩ := h.keeps ⟨ids, ht⟩
  have hnet : net (Tape.outAndBack n) = 0 := by
    simp only [Tape.outAndBack, net_append, net_replicate, Deed.shift]
    omega
  have htargets : targets (Tape.outAndBack n) = [] := by
    simp [Tape.outAndBack, targets, Deed.target?]
  refine ⟨?_, ?_, ?_⟩
  · have hhead := hkeeps.head
    rw [hnet, Int.add_zero, Int.natCast_inj, place, hids'.order_eq] at hhead
    exact (List.idxOf_inj (hids'.mem_iff.mpr hids'.onCell)).mp hhead
  · intro id hid
    exact hkeeps.value id hid (by simp [htargets])
  · obtain ⟨⟨ids₁, hids₁⟩, hkeeps₁⟩ := (does_replicate_right t n).keeps ⟨ids, ht⟩
    have hplace : n ≤ (moveRight^[n] t).place := by
      have hhead := hkeeps₁.head
      simp only [net_replicate, Deed.shift] at hhead
      omega
    rw [h.unique (does_outAndBack t n), hids₁.size_iterate_moveLeft, ht.size_iterate_moveRight,
      ht.length_beyond]
    have hlt := ht.place_lt
    omega

end Tape

end TapeMachine
