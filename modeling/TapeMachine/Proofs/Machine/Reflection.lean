import TapeMachine.Batch
import TapeMachine.Proofs.Bracket.Matching
import TapeMachine.Proofs.Machine.CountedRun
import TapeMachine.Proofs.Tape.Reflection

/-!
# Reflected machines

Exchanging the two moves in a program, and the two sides of the tape with them, changes nothing that
a program can notice. Characters, commands, programs and machines are reflected one after the other,
each from the one before, and a step commutes with it (`Machine.step_reflect`).

The batch loop has moves of its own, written out for either side. It is reflected separately: its
obstacles, its jumps and its effects first, then the loop (`Batch.run_reflect`). As for the tape,
no invariant is needed.
-/

namespace TapeMachine

/-! ### Programs -/

/-- The command with left and right exchanged. -/
def Command.reflect : Command → Command
  | .right => .left
  | .left => .right
  | c => c

/-- The character of a program with left and right exchanged. -/
def Command.reflectChar (c : Char) : Char :=
  if c = '<' then '>' else if c = '>' then '<' else c

theorem Command.ofChar_reflectChar (c : Char) : ofChar (reflectChar c) = (ofChar c).reflect := by
  unfold reflectChar
  split_ifs with hleft hright
  · subst hleft
    rfl
  · subst hright
    rfl
  · unfold ofChar
    split <;> simp_all [reflect]

theorem Command.reflectChar_eq_iff {c d : Char} (hleft : d ≠ '<') (hright : d ≠ '>') :
    reflectChar c = d ↔ c = d := by
  unfold reflectChar
  split_ifs with h h' <;> grind

namespace Compiled

/-- The compiled text with left and right exchanged. -/
def reflect (p : Compiled) : Compiled where
  text := p.text.map Command.reflectChar
  jumps := p.jumps

variable (p : Compiled) (i : Int)

@[simp] theorem inside_reflect : p.reflect.inside i = p.inside i := by
  simp only [inside, reflect, Array.size_map]

@[simp] theorem targetAt?_reflect : p.reflect.targetAt? i = p.targetAt? i := rfl

@[simp] theorem commandAt?_reflect :
    p.reflect.commandAt? i = (p.commandAt? i).map Command.reflect := by
  have hofChar : Command.ofChar ∘ Command.reflectChar = Command.reflect ∘ Command.ofChar :=
    funext Command.ofChar_reflectChar
  unfold commandAt? charAt?
  split_ifs
  · simp only [reflect, Array.getElem?_map, Option.map_map, hofChar]
  · rfl

end Compiled

namespace Program

/-- The brackets of a reflected text stay where they are. -/
theorem pairs_map_reflectChar (text : List Char) :
    Bracket.pairs (text.map Command.reflectChar) = Bracket.pairs text := by
  apply Bracket.pairsFrom_map
  · intro c
    exact Command.reflectChar_eq_iff (by decide) (by decide)
  · intro c
    exact Command.reflectChar_eq_iff (by decide) (by decide)

/-- The program with left and right exchanged. -/
def reflect (p : Program) : Program where
  toCompiled := p.toCompiled.reflect
  table := p.table
  table_eq := by
    rw [Compiled.reflect, Array.toList_map, pairs_map_reflectChar]
    exact p.table_eq
  jumps_eq := by
    rw [Compiled.reflect, Array.size_map]
    exact p.jumps_eq

@[simp] theorem toCompiled_reflect (p : Program) :
    p.reflect.toCompiled = p.toCompiled.reflect := rfl

@[simp] theorem jumpAt?_reflect (p : Program) (i : Int) : p.reflect.jumpAt? i = p.jumpAt? i := rfl

/-- A reflected text is a reflected program. -/
theorem ofChars_map_reflectChar (text : List Char) :
    ofChars (text.map Command.reflectChar) = (ofChars text).reflect := by
  rw [(ofChars text).reflect.eq_ofChars]
  simp [Compiled.reflect, ofChars]

end Program

/-! ### Machines -/

namespace Machine

/-- The machine with left and right exchanged, in its program and on its tape. -/
def reflect (m : Machine) : Machine where
  program := m.program.reflect
  tape := m.tape.reflect
  ip := m.ip
  output := m.output
  terminated := m.terminated
  stepCount := m.stepCount

variable (m : Machine)

/-- Loading a reflected text gives the reflected machine. -/
theorem load_reflect (text : String) :
    load (text.map Command.reflectChar) = (load text).reflect := by
  simp only [load, reflect, Program.ofString, String.toList_map, Program.ofChars_map_reflectChar,
    Tape.reflect_blank]

theorem jump?_reflect (c : Command) : m.reflect.jump? c.reflect = m.jump? c := by
  cases c with
  | closing => simp only [Command.reflect, jump?, reflect, Tape.read_reflect,
      Program.jumpAt?_reflect]
  | _ => rfl

theorem effect_reflect (c : Command) : m.reflect.effect c.reflect = (m.effect c).reflect := by
  cases c with
  | increment => simp only [Command.reflect, effect, reflect, Tape.increment_reflect]
  | decrement => simp only [Command.reflect, effect, reflect, Tape.decrement_reflect]
  | right => simp only [Command.reflect, effect, reflect, Tape.moveLeft_reflect]
  | left => simp only [Command.reflect, effect, reflect, Tape.moveRight_reflect]
  | print => simp only [Command.reflect, effect, reflect, Tape.read_reflect]
  | opening | closing | comment => rfl

theorem advance_reflect : m.reflect.advance = m.advance.reflect := by
  simp only [advance, inside, reflect, Program.toCompiled_reflect, Compiled.inside_reflect]

/-- **A step of the reflected machine is the reflected step.** -/
theorem step_reflect : m.reflect.step = m.step.reflect := by
  have hcommand : m.reflect.program.commandAt? m.reflect.ip =
      (m.program.commandAt? m.ip).map Command.reflect := m.program.commandAt?_reflect m.ip
  rcases hc : m.program.commandAt? m.ip with _ | c
  · have hout := (m.program.commandAt?_eq_none_iff m.ip).mp hc
    have hout' : m.reflect.inside = false := (m.program.inside_reflect m.ip).trans hout
    rw [step_of_outside hout, step_of_outside hout']
    rfl
  rw [hc, Option.map_some] at hcommand
  have hjump := m.jump?_reflect c
  rcases hj : m.jump? c with _ | target
  · rw [step_of_fallthrough hc hj, step_of_fallthrough hcommand (hjump.trans hj),
      ← advance_reflect, ← effect_reflect]
    rfl
  · rw [step_of_jump hc hj, step_of_jump hcommand (hjump.trans hj)]
    rfl

end Machine

/-! ### Batches -/

namespace Batch

variable (t : Tape)

/-- In the mirror, the loop moves to the right as it moves to the left. -/
theorem moveRight_reflect : moveRight t.reflect = (moveLeft t).reflect := by
  unfold moveRight moveLeft
  rw [Tape.current_reflect, Tape.rightOf_reflect]
  rcases t.leftOf t.current with _ | next
  · simp only [Tape.reflect]
    rw [Tape.map_modify (g := ({ · with right := some t.size })) _ _ Slot.reflect (by intro s; rfl),
      Array.map_setIfInBounds]
    rfl
  · rfl

theorem moveLeft_reflect : moveLeft t.reflect = (moveRight t).reflect := by
  have h := moveRight_reflect t.reflect
  rw [Tape.reflect_reflect] at h
  rw [h, Tape.reflect_reflect]

theorem obstacle?_reflect (c : Command) : obstacle? t.reflect c.reflect = obstacle? t c := by
  cases c with
  | right => simp only [Command.reflect, obstacle?, Tape.current_reflect, Tape.leftOf_reflect,
      Tape.full_reflect]
  | left => simp only [Command.reflect, obstacle?, Tape.current_reflect, Tape.rightOf_reflect,
      Tape.full_reflect]
  | _ => rfl

theorem effect_reflect (c : Command) : effect t.reflect c.reflect = (effect t c).reflect := by
  cases c with
  | increment | decrement =>
      simp only [Command.reflect, effect, Tape.read_reflect, Tape.write_reflect]
  | right => exact moveLeft_reflect t
  | left => exact moveRight_reflect t
  | print | opening | closing | comment => rfl

/-- The state of a batch with left and right exchanged. -/
def State.reflect (s : State) : State where
  ip := s.ip
  tape := s.tape.reflect

/-- What a batch leaves behind, with left and right exchanged. -/
def Outcome.reflect (o : Outcome) : Outcome where
  state := o.state.reflect
  stop := o.stop
  steps := o.steps

theorem jump?_reflect (p : Compiled) (s : State) (c : Command) :
    jump? p.reflect s.reflect c.reflect = jump? p s c := by
  cases c with
  | closing => simp only [Command.reflect, jump?, State.reflect, Tape.read_reflect,
      Compiled.targetAt?_reflect]
  | _ => rfl

/-- The loop on a reflected state is the reflected loop. -/
theorem loop_reflect (p : Compiled) (budget : Nat) (s : State) (done : Nat) :
    loop p.reflect budget s.reflect done = (loop p budget s done).reflect := by
  have hcommand (s : State) : p.reflect.commandAt? s.reflect.ip =
      (p.commandAt? s.ip).map Command.reflect := p.commandAt?_reflect s.ip
  induction budget generalizing s done with
  | zero => rfl
  | succ budget ih =>
      unfold loop
      rw [hcommand]
      rcases p.commandAt? s.ip with _ | c
      · rfl
      have hobstacle : obstacle? s.reflect.tape c.reflect = obstacle? s.tape c :=
        obstacle?_reflect s.tape c
      simp only [Option.map_some, hobstacle, jump?_reflect]
      rcases obstacle? s.tape c with _ | stop
      · rcases jump? p s c with _ | target
        · have hnext : (⟨s.reflect.ip + 1, effect s.reflect.tape c.reflect⟩ : State) =
              State.reflect ⟨s.ip + 1, effect s.tape c⟩ := by
            simp only [State.reflect, effect_reflect]
          simp only [hnext, ih]
          show (if p.reflect.inside (s.ip + 1) = true then _ else _) = _
          rw [Compiled.inside_reflect]
          split_ifs <;> rfl
        · exact ih ⟨target, s.tape⟩ (done + 1)
      · rfl

/-- **A batch on the reflected tape is the reflected batch.** -/
theorem run_reflect (p : Compiled) (s : State) (budget : Int) :
    run p.reflect s.reflect budget = (run p s budget).reflect :=
  loop_reflect p budget.toNat s 0

end Batch

end TapeMachine
