import TapeMachine.Proofs.Bracket.Matching
import TapeMachine.Proofs.Machine.Silent
import TapeMachine.Proofs.Tape.Negation

/-!
# Negated machines

Exchange the increments and decrements of a program, and negate the tape. A program looks at the
values of cells in two places only. A closing bracket asks whether the current cell is zero, which
is the case for a cell and its negative alike; so both machines go the same way
(`Machine.Negated.step`). A printing command shows the value, so the outputs differ, but only in that
the one prints the negatives of what the other prints (`Machine.Negated.printed`).
-/

namespace TapeMachine

/-! ### Programs -/

namespace Command

/-- The command with increments and decrements exchanged. -/
def negate : Command → Command
  | .increment => .decrement
  | .decrement => .increment
  | c => c

/-- The character of a program with increments and decrements exchanged. -/
def negateChar (c : Char) : Char :=
  if c = '+' then '-' else if c = '-' then '+' else c

theorem ofChar_negateChar (c : Char) : ofChar (negateChar c) = (ofChar c).negate := by
  unfold negateChar
  split_ifs with hplus hminus
  · subst hplus
    rfl
  · subst hminus
    rfl
  · unfold ofChar
    split <;> simp_all [negate]

theorem negateChar_eq_iff {c d : Char} (hplus : d ≠ '+') (hminus : d ≠ '-') :
    negateChar c = d ↔ c = d := by
  unfold negateChar
  split_ifs with h h' <;> grind

theorem negate_eq_print_iff {c : Command} : c.negate = .print ↔ c = .print := by
  cases c <;> simp [negate]

end Command

namespace Program

variable (text : List Char) (i : Int)

theorem inside_map_negateChar :
    (ofChars (text.map Command.negateChar)).inside i = (ofChars text).inside i := by
  simp [Compiled.inside, ofChars]

/-- The brackets stay where they are. -/
theorem jumpAt?_map_negateChar :
    (ofChars (text.map Command.negateChar)).jumpAt? i = (ofChars text).jumpAt? i := by
  have hpairs : Bracket.pairs (text.map Command.negateChar) = Bracket.pairs text := by
    apply Bracket.pairsFrom_map
    · intro c
      exact Command.negateChar_eq_iff (by decide) (by decide)
    · intro c
      exact Command.negateChar_eq_iff (by decide) (by decide)
  simp only [jumpAt?, ofChars, hpairs]

theorem commandAt?_map_negateChar :
    (ofChars (text.map Command.negateChar)).commandAt? i =
      ((ofChars text).commandAt? i).map Command.negate := by
  have hofChar : Command.ofChar ∘ Command.negateChar = Command.negate ∘ Command.ofChar :=
    funext Command.ofChar_negateChar
  unfold Compiled.commandAt? Compiled.charAt?
  split_ifs
  · simp [ofChars, Option.map_map, hofChar]
  · rfl

end Program

/-! ### What is printed -/

namespace Machine

instance (m : Machine) : Decidable m.Prints :=
  inferInstanceAs (Decidable (m.program.commandAt? m.ip = some .print))

/-- The values that the next `n` steps print, in order. -/
def printed (m : Machine) : Nat → List Cell
  | 0 => []
  | n + 1 => (if m.Prints then [m.tape.read] else []) ++ m.step.printed n

/-- **The output is made of the tokens of the values that were printed.** -/
theorem output_iterate_step (m : Machine) (n : Nat) :
    (Machine.step^[n] m).output =
      m.output ++ ((m.printed n).map Token.ofCell).toArray := by
  induction n generalizing m with
  | zero => simp [printed]
  | succ n ih =>
      rw [Function.iterate_succ_apply, ih, printed]
      by_cases hprints : m.Prints
      · rw [output_step_of_prints hprints, if_pos hprints]
        simp
      · rw [output_step_of_not_prints hprints, if_neg hprints]
        rfl

/-! ### Steps -/

/-- The second machine has the program of the first with increments and decrements exchanged, and
its tape negated. The outputs are left out. -/
structure Negated (m m' : Machine) : Prop where
  program : ∃ text, m.program = Program.ofChars text ∧
    m'.program = Program.ofChars (text.map Command.negateChar)
  tape : m'.tape = m.tape.negate
  ip : m'.ip = m.ip
  terminated : m'.terminated = m.terminated
  stepCount : m'.stepCount = m.stepCount

namespace Negated

variable {m m' : Machine}

theorem inside (h : m.Negated m') : m'.inside = m.inside := by
  obtain ⟨text, hprogram, hprogram'⟩ := h.program
  rw [Machine.inside, Machine.inside, hprogram, hprogram', h.ip, Program.inside_map_negateChar]

theorem commandAt? (h : m.Negated m') :
    m'.program.commandAt? m'.ip = (m.program.commandAt? m.ip).map Command.negate := by
  obtain ⟨text, hprogram, hprogram'⟩ := h.program
  rw [hprogram, hprogram', h.ip, Program.commandAt?_map_negateChar]

theorem prints_iff (h : m.Negated m') : m'.Prints ↔ m.Prints := by
  rw [Prints, Prints, h.commandAt?, Option.map_eq_some_iff]
  simp [Command.negate_eq_print_iff]

theorem read (h : m.Negated m') : m'.tape.read = -m.tape.read := by
  rw [h.tape, Tape.read_negate]

/-- A cell and its negative are zero alike, so both machines jump or neither does. -/
theorem jump? (h : m.Negated m') (c : Command) : m'.jump? c.negate = m.jump? c := by
  obtain ⟨text, hprogram, hprogram'⟩ := h.program
  cases c with
  | closing =>
      simp only [Command.negate, Machine.jump?, h.read, Cell.neg_eq_zero_iff, h.ip, hprogram,
        hprogram', Program.jumpAt?_map_negateChar]
  | _ => rfl

theorem effect (h : m.Negated m') (c : Command) : (m.effect c).Negated (m'.effect c.negate) := by
  cases c with
  | increment =>
      refine ⟨h.program, ?_, h.ip, h.terminated, h.stepCount⟩
      simp only [Command.negate, Machine.effect, h.tape, Tape.decrement_negate]
  | decrement =>
      refine ⟨h.program, ?_, h.ip, h.terminated, h.stepCount⟩
      simp only [Command.negate, Machine.effect, h.tape, Tape.increment_negate]
  | right =>
      refine ⟨h.program, ?_, h.ip, h.terminated, h.stepCount⟩
      simp only [Command.negate, Machine.effect, h.tape, Tape.moveRight_negate]
  | left =>
      refine ⟨h.program, ?_, h.ip, h.terminated, h.stepCount⟩
      simp only [Command.negate, Machine.effect, h.tape, Tape.moveLeft_negate]
  | print => exact ⟨h.program, h.tape, h.ip, h.terminated, h.stepCount⟩
  | opening | closing | comment => exact h

theorem advance (h : m.Negated m') : m.advance.Negated m'.advance := by
  have hnext : ({ m with ip := m.ip + 1 } : Machine).Negated { m' with ip := m'.ip + 1 } :=
    ⟨h.program, h.tape, congrArg (· + 1) h.ip, h.terminated, h.stepCount⟩
  refine ⟨h.program, h.tape, hnext.ip, ?_, h.stepCount⟩
  exact congrArg₂ (fun terminated inside => terminated || !inside) h.terminated hnext.inside

/-- **A step of the negated machine is the negated step.** -/
theorem step (h : m.Negated m') : m.step.Negated m'.step := by
  have hcommand := h.commandAt?
  have hcounted : ({ m with stepCount := m.stepCount + 1 } : Machine).Negated
      { m' with stepCount := m'.stepCount + 1 } :=
    ⟨h.program, h.tape, h.ip, h.terminated, congrArg (· + 1) h.stepCount⟩
  rcases hc : m.program.commandAt? m.ip with _ | c
  · have hout : m.inside = false := (m.program.commandAt?_eq_none_iff m.ip).mp hc
    rw [step_of_outside hout, step_of_outside (h.inside.trans hout)]
    exact ⟨h.program, h.tape, h.ip, rfl, h.stepCount⟩
  rw [hc, Option.map_some] at hcommand
  have hjump := h.jump? c
  rcases hj : m.jump? c with _ | target
  · rw [step_of_fallthrough hc hj, step_of_fallthrough hcommand (hjump.trans hj)]
    exact (hcounted.effect c).advance
  · rw [step_of_jump hc hj, step_of_jump hcommand (hjump.trans hj)]
    exact ⟨h.program, h.tape, rfl, h.terminated, hcounted.stepCount⟩

theorem iterate_step (h : m.Negated m') (n : Nat) :
    (Machine.step^[n] m).Negated (Machine.step^[n] m') := by
  induction n generalizing m m' with
  | zero => exact h
  | succ n ih => exact ih h.step

/-- **The negated machine prints the negatives.** -/
theorem printed (h : m.Negated m') (n : Nat) : m'.printed n = (m.printed n).map (-·) := by
  induction n generalizing m m' with
  | zero => rfl
  | succ n ih =>
      rw [Machine.printed, Machine.printed, ih h.step, List.map_append]
      simp only [h.prints_iff, h.read]
      split_ifs <;> rfl

end Negated

/-- Loading a text and the text with increments and decrements exchanged. -/
theorem negated_load (text : String) :
    (load text).Negated (load (text.map Command.negateChar)) := by
  refine ⟨⟨text.toList, rfl, ?_⟩, Tape.negate_blank.symm, rfl, rfl, rfl⟩
  rw [load, Program.ofString, String.toList_map]

end Machine

end TapeMachine
