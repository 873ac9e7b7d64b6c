import TapeMachine.Proofs.Endless.Stretch
import TapeMachine.Proofs.Supervisor.Unlimited

/-!
# Programs without loops

A program in which no bracket has a partner is one stretch, and a run of it goes through the stretch
once. So the outcome of the run can be written down without running it
(`Supervisor.run_of_straight_line`): the number of steps is the length of the text, and everything
else is counted along the walk of the head.
-/

namespace TapeMachine

namespace Walk

/-- The walk starts between its two extremes. -/
theorem lowest_nonpos (text : List Char) : lowest text ≤ 0 :=
  Finset.inf'_le (offset text) (Finset.mem_range.mpr text.length.succ_pos)

theorem highest_nonneg (text : List Char) : 0 ≤ highest text :=
  Finset.le_sup' (offset text) (Finset.mem_range.mpr text.length.succ_pos)

end Walk

namespace Endless

variable {text : List Char} {e : Endless}

/-- From an empty tape, the window is the range of the walk. -/
theorem Walks.window_eq (h : ({} : Endless).Walks text e) :
    e.lo = Walk.lowest text ∧ e.hi = Walk.highest text := by
  have hlow := Walk.lowest_nonpos text
  have hhigh := Walk.highest_nonneg text
  rw [h.lo, h.hi]
  simp only
  omega

/-- From an empty tape, the window shows what the walk has added to each cell. -/
theorem Walks.snapshot_eq (h : ({} : Endless).Walks text e) :
    e.snapshot = (List.range (Walk.highest text - Walk.lowest text + 1).toNat).map fun (k : Nat) =>
      (Cell.wrap (Walk.change text (Walk.lowest text + k)),
        Walk.lowest text + k == Walk.displacement text) := by
  obtain ⟨hlo, hhi⟩ := h.window_eq
  have hcells : ∀ x, e.cells x = Cell.wrap (Walk.change text x) := by
    intro x
    rw [h.cells, Int.sub_zero]
    exact Int32.zero_add _
  have hhead : e.head = Walk.displacement text := by
    rw [h.head]
    exact Int.zero_add _
  simp only [snapshot, window, List.map_map, hlo, hhi, hhead, Function.comp_def, hcells]

end Endless

namespace Supervisor

open Machine

/-- **What a program without loops does.** Let no bracket of the text have a partner. A run on a
fresh machine comes back after as many steps as the text has characters, and the program has ended.
Then

* there are as many cells as the range of the walk has places;
* the cell at each place holds what the increments there come to, less the decrements there, and the
  head is where the moves have brought it;
* for each full stop, in order, the value that the text before it has given to the cell under the
  head has been printed.
-/
theorem run_of_straight_line (text : String) (h : Bracket.pairs text.toList = []) :
    ∃ fuel t, ({ machine := Machine.load text } : Supervisor).runAtFuel fuel none =
        some (text.toList.length, t) ∧
      t.machine.terminated = true ∧
      (t.machine.tape.size : Int) = Walk.highest text.toList - Walk.lowest text.toList + 1 ∧
      t.machine.tape.snapshot =
        ((List.range (Walk.highest text.toList - Walk.lowest text.toList + 1).toNat).map
          fun (k : Nat) =>
            (Cell.wrap (Walk.change text.toList (Walk.lowest text.toList + k)),
              Walk.lowest text.toList + k == Walk.displacement text.toList)) ∧
      t.machine.output.toList =
        ((List.range text.toList.length).filter fun i => text.toList[i]? = some '.').map fun i =>
          Token.ofCell (Cell.wrap (Walk.change (text.toList.take i)
            (Walk.offset text.toList i))) := by
  have hbegins := begins_load text
  have hunpaired : ∀ j < text.toList.length, Bracket.Unpaired text.toList (0 + j) := by
    intro j _ p hp
    rw [h] at hp
    cases hp
  obtain ⟨m, hrun, hm⟩ := hbegins.at.passes text.toList.length (by simp) hunpaired
  rw [List.drop_zero, List.take_length, Nat.zero_add] at hm
  obtain ⟨⟨fuel, t, hreturns, ht⟩, -⟩ := hbegins.runs hrun hm
  have hblank : Tape.Holds (⟨Tape.blank, #[]⟩ : Config).tape [0] {} := .blank
  have hwalks : ({} : Endless).Walks text.toList (Endless.effects {} text.toList) :=
    Endless.effects_walks hblank.inWindow text.toList
  obtain ⟨⟨ids, hids⟩, houtput⟩ := hblank.performs text.toList
  obtain ⟨hlo, hhi⟩ := hwalks.window_eq
  have htape : t.machine.tape = (Config.performs ⟨Tape.blank, #[]⟩ text.toList).tape := by
    rw [ht]
    rfl
  refine ⟨fuel, t, hreturns, by rw [ht]; rfl, ?_, ?_, ?_⟩
  · have hwidth := hids.width
    rw [htape, ← hlo, ← hhi]
    omega
  · rw [htape, hids.snapshot_eq, hwalks.snapshot_eq]
  · have hprinted : t.machine.output = (Endless.printedBy {} text.toList).toArray := by
      rw [ht]
      exact houtput.trans Array.empty_append
    rw [hprinted]
    simp only [Endless.printedBy, Int32.zero_add]

/-- The brackets of this text have no partners. The head visits three cells, one of them from both
sides, and the decrement takes a zero below it. -/
theorem run_of_straight_line_from_both_sides :
    ∃ fuel t, ({ machine := Machine.load "]<-.>>++.<+.<[" } : Supervisor).runAtFuel fuel none =
        some (14, t) ∧
      t.machine.tape.snapshot = [(-1, true), (1, false), (2, false)] ∧
      t.machine.output = #["<value -1>", "<value 2>", "<value 1>"] := by
  obtain ⟨fuel, t, hreturns, -, -, hsnapshot, houtput⟩ :=
    run_of_straight_line "]<-.>>++.<+.<[" (by decide +kernel)
  refine ⟨fuel, t, hreturns, ?_, ?_⟩
  · rw [hsnapshot]
    decide +kernel
  · rw [← Array.toList_inj, houtput]
    decide +kernel

end Supervisor

end TapeMachine
