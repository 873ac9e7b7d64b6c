import TapeMachine.Proofs.Endless.Walk
import TapeMachine.Proofs.Endless.Window
import TapeMachine.Proofs.Machine.Silent
import TapeMachine.Proofs.Structured.Equivalence

/-!
# Stretches of a program without jumps

Where no bracket of a stretch has a partner, a machine goes through the stretch character by
character, and each has its effect (`Machine.At.passes`). The tape is then what the walk along the
stretch makes of the endless tape that it stands for, and what has been printed can be told from the
walk as well (`Tape.Holds.performs`).
-/

namespace TapeMachine

/-! ### The machine -/

/-- What the commands of a text do for their effect alone, one after the other. -/
def Config.performs (s : Config) (text : List Char) : Config :=
  text.foldl (fun s c => s.perform (Command.ofChar c)) s

theorem Config.performs_concat (s : Config) (text : List Char) (c : Char) :
    s.performs (text ++ [c]) = (s.performs text).perform (Command.ofChar c) := by
  rw [performs, List.foldl_append]
  rfl

/-- **Where nothing is paired, the machine goes through a stretch character by character.** -/
theorem Machine.At.passes {text : List Char} {i : Nat} {s : Config} {m : Machine}
    (h : At text i s m) (n : Nat) (hn : i + n ≤ text.length)
    (hun : ∀ j < n, Bracket.Unpaired text (i + j)) :
    ∃ m', Through Inside n m m' ∧ At text (i + n) (s.performs ((text.drop i).take n)) m' := by
  induction n with
  | zero => exact ⟨m, .refl m, h⟩
  | succ n ih =>
      obtain ⟨m', hrun, hm'⟩ := ih (by omega) fun j hj => hun j (by omega)
      have hlt : i + n < text.length := by omega
      have hc : text[i + n]? = some text[i + n] := List.getElem?_eq_getElem hlt
      have hnext : (text.drop i).take (n + 1) = (text.drop i).take n ++ [text[i + n]] := by
        rw [List.take_add_one, List.getElem?_drop, hc]
        rfl
      refine ⟨m'.step, hrun.trans (.single (hm'.inside hc)), ?_⟩
      rw [hnext, Config.performs_concat]
      exact hm'.step_of_unpaired hc (hun n (by omega))

/-! ### The output of a walk -/

namespace Endless

/-- The tokens that a text prints on its way: one for each full stop, in order. -/
def printedBy (e : Endless) (text : List Char) : List String :=
  ((List.range text.length).filter fun i => text[i]? = some '.').map fun i =>
    Token.ofCell (e.cells (e.head + Walk.offset text i) +
      Cell.wrap (Walk.change (text.take i) (Walk.offset text i)))

/-- The last character prints what the text before it has made of the cell under the head. -/
theorem printedBy_concat {e e' : Endless} {text : List Char} (h : e.Walks text e') (c : Char) :
    e.printedBy (text ++ [c]) = e.printedBy text ++ (e'.printed (Command.ofChar c)).toList := by
  have hfilter : (List.range text.length).filter (fun i => (text ++ [c])[i]? = some '.') =
      (List.range text.length).filter fun i => text[i]? = some '.' := by
    refine List.filter_congr fun i hi => ?_
    rw [List.getElem?_append_left (List.mem_range.mp hi)]
  have hread : e'.read = e.cells (e.head + Walk.displacement text) +
      Cell.wrap (Walk.change text (Walk.displacement text)) := by
    have hback : e.head + Walk.displacement text - e.head = Walk.displacement text := by omega
    rw [read, h.cells, h.head, hback]
  rw [printedBy, List.length_append, List.length_singleton, List.range_succ, List.filter_append,
    hfilter, List.map_append]
  congr 1
  · refine List.map_congr_left fun i hi => ?_
    have hle : i ≤ text.length := Nat.le_of_lt (List.mem_range.mp (List.mem_filter.mp hi).1)
    rw [Walk.offset_append text hle, List.take_append_of_le_length hle]
  · by_cases hprint : c = '.'
    · subst hprint
      rw [List.filter_cons_of_pos (by simp), List.filter_nil, List.map_singleton,
        Walk.offset_append text (Nat.le_refl _), Walk.offset_length,
        List.take_append_of_le_length (Nat.le_refl _), List.take_length, ← hread]
      rfl
    · have hsilent : Command.ofChar c ≠ .print := mt Command.ofChar_eq_print_iff.mp hprint
      rw [List.filter_cons_of_neg (by simpa using hprint), List.filter_nil, List.map_nil]
      cases hcommand : Command.ofChar c <;> first | rfl | exact absurd hcommand hsilent

end Endless

/-! ### The tape -/

namespace Tape.Holds

variable {s : Config} {ids : List Nat} {e : Endless}

theorem inWindow {t : Tape} (h : t.Holds ids e) : e.InWindow :=
  h.within h.head

/-- A command does the same to a tape and to the endless tape that it stands for. -/
theorem perform (h : s.tape.Holds ids e) (c : Command) :
    ∃ ids', (s.perform c).tape.Holds ids' (e.effect c) := by
  cases c with
  | increment | decrement =>
      simp only [Endless.effect, ← h.read]
      exact ⟨ids, h.write _⟩
  | right => exact h.moveRight
  | left => exact h.moveLeft
  | print | opening | closing | comment => exact ⟨ids, h⟩

theorem output_perform (h : s.tape.Holds ids e) (c : Command) :
    (s.perform c).output = s.output ++ e.printed c := by
  cases c with
  | print => simp only [Config.perform, Endless.printed, h.read, Array.append_singleton]
  | _ => simp only [Config.perform, Endless.printed, Array.append_empty]

/-- **A text does to a tape what its walk does to the endless tape**, and prints what it finds on
the way. -/
theorem performs (h : s.tape.Holds ids e) (text : List Char) :
    (∃ ids', (s.performs text).tape.Holds ids' (e.effects text)) ∧
      (s.performs text).output = s.output ++ (e.printedBy text).toArray := by
  induction text using List.reverseRecOn with
  | nil => exact ⟨⟨ids, h⟩, by simp [Config.performs, Endless.printedBy]⟩
  | append_singleton text c ih =>
      obtain ⟨⟨ids', hids'⟩, houtput⟩ := ih
      rw [Config.performs_concat, Endless.effects_concat]
      refine ⟨hids'.perform _, ?_⟩
      rw [hids'.output_perform, houtput,
        Endless.printedBy_concat (Endless.effects_walks h.inWindow text), ← List.append_toArray,
        Array.toArray_toList, Array.append_assoc]

end Tape.Holds

end TapeMachine
