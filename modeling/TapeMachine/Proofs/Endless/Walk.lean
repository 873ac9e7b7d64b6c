import Mathlib.Data.Finset.Lattice.Fold
import TapeMachine.Proofs.Endless.Machine

/-!
# The walk of the head

A text that is executed from its first character to its last, without a jump, takes the head for a
walk. Where the head is before each character is told by the moves before it (`Walk.offset`), so
everything that the text does to an endless tape can be counted: how far the head goes
(`Walk.lowest`, `Walk.highest`), where it ends (`Walk.displacement`), and by how much each cell
changes (`Walk.change`).

All counts are over the positions of the text. `Walk.displacement_concat`, `Walk.change_concat`,
`Walk.lowest_concat` and `Walk.highest_concat` say what one more character adds to them, and
`Endless.effects_concat` what it does to the tape. The two agree command by command
(`Endless.cells_effect`, `Endless.lo_effect`, `Endless.hi_effect`), hence for every text
(`Endless.effects_walks`).
-/

namespace TapeMachine

namespace Cell

/-- Wrapped numbers are added as numbers are. -/
theorem wrap_add (a b : Int) : wrap (a + b) = wrap a + wrap b :=
  Int32.ofInt_add a b

/-- Adding to a cell is adding to the number in it. -/
theorem add_wrap (c : Cell) (n : Int) : c + wrap n = wrap (c.toInt + n) := by
  rw [wrap_add, wrap_toInt]

end Cell

namespace Command

/-- By how many places a command moves the head to the right. -/
def shift : Command → Int
  | .right => 1
  | .left => -1
  | _ => 0

/-- What a command adds to the cell under the head. -/
def delta : Command → Int
  | .increment => 1
  | .decrement => -1
  | _ => 0

theorem shift_ofChar (c : Char) :
    (ofChar c).shift = (if c = '>' then 1 else 0) - (if c = '<' then 1 else 0) := by
  unfold ofChar
  split <;> simp_all [shift]

theorem delta_ofChar (c : Char) :
    (ofChar c).delta = (if c = '+' then 1 else 0) - (if c = '-' then 1 else 0) := by
  unfold ofChar
  split <;> simp_all [delta]

end Command

/-! ### Counting along a text -/

namespace Walk

/-- By how many places a text moves the head to the right, all in all. -/
def displacement (text : List Char) : Int :=
  text.count '>' - text.count '<'

/-- Where the head is before the character at a position, as seen from where it started. -/
def offset (text : List Char) (i : Nat) : Int :=
  displacement (text.take i)

/-- How many times a character is met with the head at the given place. -/
def visits (c : Char) (text : List Char) (x : Int) : Nat :=
  (List.range text.length).countP fun i => text[i]? = some c ∧ offset text i = x

/-- What a text adds to the cell at the given place. -/
def change (text : List Char) (x : Int) : Int :=
  visits '+' text x - visits '-' text x

/-- The place farthest to the left that the head comes to. -/
def lowest (text : List Char) : Int :=
  (Finset.range (text.length + 1)).inf' Finset.nonempty_range_add_one (offset text)

/-- The place farthest to the right that the head comes to. -/
def highest (text : List Char) : Int :=
  (Finset.range (text.length + 1)).sup' Finset.nonempty_range_add_one (offset text)

variable (text : List Char) (c : Char)

@[simp] theorem displacement_nil : displacement [] = 0 := rfl

@[simp] theorem change_nil (x : Int) : change [] x = 0 := rfl

@[simp] theorem lowest_nil : lowest [] = 0 := rfl

@[simp] theorem highest_nil : highest [] = 0 := rfl

theorem offset_length : offset text text.length = displacement text := by
  rw [offset, List.take_length]

/-- Up to the end of a text it does not matter what follows. -/
theorem offset_append {i : Nat} (hi : i ≤ text.length) (rest : List Char) :
    offset (text ++ rest) i = offset text i := by
  rw [offset, List.take_append_of_le_length hi, offset]

theorem displacement_concat :
    displacement (text ++ [c]) = displacement text + (Command.ofChar c).shift := by
  simp only [displacement, List.count_append, List.count_singleton, Command.shift_ofChar,
    beq_iff_eq]
  split_ifs <;> omega

/-- The last character is met where the text before it has brought the head. -/
theorem visits_concat (a : Char) (x : Int) :
    visits a (text ++ [c]) x =
      visits a text x + (if c = a ∧ displacement text = x then 1 else 0) := by
  have hbefore : (List.range text.length).countP (fun i =>
      (text ++ [c])[i]? = some a ∧ offset (text ++ [c]) i = x) = visits a text x := by
    apply List.countP_congr
    intro i hi
    have hlt : i < text.length := List.mem_range.mp hi
    rw [List.getElem?_append_left hlt, offset_append text (Nat.le_of_lt hlt)]
  have hlast : offset (text ++ [c]) text.length = displacement text := by
    rw [offset_append text (Nat.le_refl _), offset_length]
  rw [visits, List.length_append, List.length_singleton, List.range_succ, List.countP_append,
    hbefore]
  simp [hlast]

theorem change_concat (x : Int) :
    change (text ++ [c]) x =
      change text x + (if displacement text = x then (Command.ofChar c).delta else 0) := by
  simp only [change, visits_concat, Command.delta_ofChar]
  split_ifs <;> first | omega | simp_all

/-- One more character adds one more place. -/
theorem offset_concat_length :
    offset (text ++ [c]) (text.length + 1) = displacement (text ++ [c]) := by
  rw [← offset_length, List.length_append, List.length_singleton]

theorem lowest_concat :
    lowest (text ++ [c]) = min (lowest text) (displacement (text ++ [c])) := by
  have hbefore : (Finset.range (text.length + 1)).inf' Finset.nonempty_range_add_one
      (offset (text ++ [c])) = lowest text := by
    refine Finset.inf'_congr _ rfl fun i hi => ?_
    exact offset_append text (Nat.le_of_lt_succ (Finset.mem_range.mp hi)) [c]
  simp only [lowest, List.length_append, List.length_singleton, Finset.range_add_one (n := _ + 1)]
  rw [Finset.inf'_insert Finset.nonempty_range_add_one, hbefore, offset_concat_length, min_comm]
  rfl

theorem highest_concat :
    highest (text ++ [c]) = max (highest text) (displacement (text ++ [c])) := by
  have hbefore : (Finset.range (text.length + 1)).sup' Finset.nonempty_range_add_one
      (offset (text ++ [c])) = highest text := by
    refine Finset.sup'_congr _ rfl fun i hi => ?_
    exact offset_append text (Nat.le_of_lt_succ (Finset.mem_range.mp hi)) [c]
  simp only [highest, List.length_append, List.length_singleton, Finset.range_add_one (n := _ + 1)]
  rw [Finset.sup'_insert Finset.nonempty_range_add_one, hbefore, offset_concat_length, max_comm]
  rfl

/-- The walk ends between its two extremes. -/
theorem lowest_le_displacement : lowest text ≤ displacement text := by
  rw [← offset_length]
  exact Finset.inf'_le _ (Finset.self_mem_range_succ text.length)

theorem displacement_le_highest : displacement text ≤ highest text := by
  rw [← offset_length]
  exact Finset.le_sup' _ (Finset.self_mem_range_succ text.length)

end Walk

/-! ### What a text does to an endless tape -/

namespace Endless

/-- The head is inside the window. -/
def InWindow (e : Endless) : Prop :=
  e.lo ≤ e.head ∧ e.head ≤ e.hi

/-- What the commands of a text do to the tape, one after the other. -/
def effects (e : Endless) (text : List Char) : Endless :=
  text.foldl (fun e c => e.effect (Command.ofChar c)) e

theorem effects_concat (e : Endless) (text : List Char) (c : Char) :
    e.effects (text ++ [c]) = (e.effects text).effect (Command.ofChar c) := by
  rw [effects, List.foldl_append]
  rfl

section effect

variable (e : Endless) (c : Command)

/-- A move leaves the end of the window that it goes away from. -/
theorem lo_moveRight : e.moveRight.lo = e.lo := by
  unfold moveRight
  split_ifs <;> rfl

theorem hi_moveLeft : e.moveLeft.hi = e.hi := by
  unfold moveLeft
  split_ifs <;> rfl

/-- A command changes no cell but the one under the head. -/
theorem cells_effect (x : Int) :
    (e.effect c).cells x = e.cells x + Cell.wrap (if x = e.head then c.delta else 0) := by
  have hzero : Cell.wrap 0 = 0 := rfl
  cases c with
  | increment =>
      rw [effect, cells_write]
      split_ifs with hx
      · rw [hx]
        rfl
      · rw [hzero, Int32.add_zero]
  | decrement =>
      rw [effect, cells_write]
      split_ifs with hx
      · rw [hx, Command.delta, Cell.wrap, Int32.ofInt_neg, ← Int32.sub_eq_add_neg]
        rfl
      · rw [hzero, Int32.add_zero]
  | right | left => simp [effect, Command.delta, hzero]
  | print | opening | closing | comment => simp [effect, Command.delta, hzero]

theorem head_effect : (e.effect c).head = e.head + c.shift := by
  cases c <;> simp [effect, Command.shift, write, Int.sub_eq_add_neg]

variable {e}

/-- The window widens just as far as the head goes. -/
theorem lo_effect (h : e.InWindow) : (e.effect c).lo = min e.lo (e.head + c.shift) := by
  obtain ⟨hlo, hhi⟩ := h
  cases c with
  | left =>
      by_cases hend : e.head = e.lo
      · simp only [effect, moveLeft_of_eq hend, widenLeft, Command.shift]
        omega
      · simp only [effect, moveLeft_of_lt (by omega : e.lo < e.head), Command.shift]
        omega
  | right =>
      rw [effect, lo_moveRight, Command.shift]
      omega
  | _ => simp [effect, Command.shift, write, hlo]

theorem hi_effect (h : e.InWindow) : (e.effect c).hi = max e.hi (e.head + c.shift) := by
  obtain ⟨hlo, hhi⟩ := h
  cases c with
  | left =>
      rw [effect, hi_moveLeft, Command.shift]
      omega
  | right =>
      by_cases hend : e.head = e.hi
      · simp only [effect, moveRight_of_eq hend, widenRight, Command.shift]
        omega
      · simp only [effect, moveRight_of_lt (by omega : e.head < e.hi), Command.shift]
        omega
  | _ => simp [effect, Command.shift, write, hhi]

end effect

/-- The second tape is what the walk along a text makes of the first. -/
structure Walks (e : Endless) (text : List Char) (e' : Endless) : Prop where
  cells : ∀ x, e'.cells x = e.cells x + Cell.wrap (Walk.change text (x - e.head))
  head : e'.head = e.head + Walk.displacement text
  lo : e'.lo = min e.lo (e.head + Walk.lowest text)
  hi : e'.hi = max e.hi (e.head + Walk.highest text)
  entered : e.entered <+: e'.entered

theorem Walks.inWindow {e e' : Endless} {text : List Char} (h : e.Walks text e') : e'.InWindow := by
  have hlow := Walk.lowest_le_displacement text
  have hhigh := Walk.displacement_le_highest text
  rw [InWindow, h.head, h.lo, h.hi]
  omega

/-- **What a text does to an endless tape**, in closed form. -/
theorem effects_walks {e : Endless} (h : e.InWindow) (text : List Char) :
    e.Walks text (e.effects text) := by
  induction text using List.reverseRecOn with
  | nil =>
      obtain ⟨hlo, hhi⟩ := h
      refine ⟨?_, ?_, ?_, ?_, List.prefix_rfl⟩
      · intro x
        exact (Int32.add_zero _).symm
      · simp [effects]
      · simpa [effects] using hlo
      · simpa [effects] using hhi
  | append_singleton text c ih =>
      rw [effects_concat]
      refine ⟨?_, ?_, ?_, ?_, ih.entered.trans (entered_effect _ _)⟩
      · intro x
        have hplace : x = (e.effects text).head ↔ Walk.displacement text = x - e.head := by
          rw [ih.head]
          omega
        simp only [cells_effect, ih.cells, Walk.change_concat, Cell.wrap_add, Int32.add_assoc,
          hplace]
      · rw [head_effect, ih.head, Walk.displacement_concat, Int.add_assoc]
      · rw [lo_effect _ ih.inWindow, ih.head, ih.lo, Walk.lowest_concat, Walk.displacement_concat]
        omega
      · rw [hi_effect _ ih.inWindow, ih.head, ih.hi, Walk.highest_concat,
          Walk.displacement_concat]
        omega

end Endless

end TapeMachine
