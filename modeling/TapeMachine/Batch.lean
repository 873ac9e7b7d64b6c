import TapeMachine.Program
import TapeMachine.Tape.Basic

/-!
# Batches

The batch loop executes many commands on the arena without going through `Machine.step`. It never
prints and never enlarges the arena: it stops *before* a command that would need either, and leaves
that command to its caller. It also stops when its budget is used up or the program ends.

Before each command the loop asks for an obstacle (`Batch.obstacle?`) and for a jump
(`Batch.jump?`). After a command that falls through to the next position it tests for the end of the
program; after a jump it does not, since brackets jump to a position inside. The arena, the ends and
the jumps may be arbitrary data here.

Where the loop runs on machine words, its budget is a word of 64 bits (`Batch.Word`), and everything
that it counts is bounded by its budget. Budgets are integers here. The batch driver never hands the
loop more than one batch, so if the batch size is a word then all its budgets are
(`Supervisor.RunCalls.word`); the limit of a run may be any integer.

The lemmas at the end bound what a batch does: it takes no more steps than its budget allows
(`Batch.run_steps_le`), it stops for growth only on a full arena (`Batch.run_full`), and if it took
no step it changed nothing (`Batch.run_state_of_steps_eq_zero`).
-/

namespace TapeMachine

namespace Batch

/-- Why a batch stopped. -/
inductive Stop where
  /-- The next command prints. -/
  | output
  /-- The next command needs a new cell and the arena is full. -/
  | growth
  /-- The instruction pointer is outside the program. -/
  | finish
  /-- The budget is used up. -/
  | budget
deriving DecidableEq, Repr, Inhabited

/-- The number by which a stop is reported. -/
def Stop.code : Stop → Nat
  | .output => 1
  | .growth => 2
  | .finish => 3
  | .budget => 4

/-- An integer fits a signed word of 64 bits. -/
def Word (n : Int) : Prop :=
  -9223372036854775808 ≤ n ∧ n ≤ 9223372036854775807

/-- What a batch works on. -/
structure State where
  ip : Int
  tape : Tape
deriving DecidableEq, Repr, Inhabited

/-- What a batch leaves behind. -/
structure Outcome where
  state : State
  stop : Stop
  steps : Nat
deriving DecidableEq, Repr, Inhabited

/-! ## Commands on a fixed arena -/

/-- One more, or the least cell if that would go over the greatest. -/
def incremented (c : Cell) : Cell :=
  if c.toInt + 1 > Int32.maxValue.toInt then Int32.minValue else c + 1

/-- One less, or the greatest cell if that would go under the least. -/
def decremented (c : Cell) : Cell :=
  if c.toInt - 1 < Int32.minValue.toInt then Int32.maxValue else c - 1

/-- Moves the head to the right, putting a new cell into the first spare slot if there is none. -/
def moveRight (t : Tape) : Tape :=
  match t.rightOf t.current with
  | some next => { t with current := next }
  | none =>
    { t with
      slots := (t.slots.setIfInBounds t.size { left := some t.current }).modify t.current
        ({ · with right := some t.size })
      size := t.size + 1
      current := t.size
      rightmost := if t.current = t.rightmost then t.size else t.rightmost }

/-- Moves the head to the left, putting a new cell into the first spare slot if there is none. -/
def moveLeft (t : Tape) : Tape :=
  match t.leftOf t.current with
  | some next => { t with current := next }
  | none =>
    { t with
      slots := (t.slots.setIfInBounds t.size { right := some t.current }).modify t.current
        ({ · with left := some t.size })
      size := t.size + 1
      current := t.size
      leftmost := if t.current = t.leftmost then t.size else t.leftmost }

/-- What keeps the loop from executing a command: that it prints, or that it moves to a new cell
and the arena is full. -/
def obstacle? (t : Tape) : Command → Option Stop
  | .print => some .output
  | .right => if (t.rightOf t.current).isNone && t.full then some .growth else none
  | .left => if (t.leftOf t.current).isNone && t.full then some .growth else none
  | _ => none

/-- Where a command jumps to. -/
def jump? (p : Compiled) (s : State) : Command → Option Int
  | .closing => if s.tape.read = 0 then none else p.targetAt? s.ip
  | _ => none

/-- What a command does to the tape if nothing keeps the loop from executing it. -/
def effect (t : Tape) : Command → Tape
  | .increment => t.write (incremented t.read)
  | .decrement => t.write (decremented t.read)
  | .right => moveRight t
  | .left => moveLeft t
  | .print | .opening | .closing | .comment => t

/-! ## The loop -/

/-- Executes at most `budget` commands, after `done` of them that have been executed already. -/
def loop (p : Compiled) : (budget : Nat) → State → (done : Nat) → Outcome
  | 0, s, done => ⟨s, .budget, done⟩
  | budget + 1, s, done =>
    match p.commandAt? s.ip with
    | none => ⟨s, .finish, done⟩
    | some command =>
      match obstacle? s.tape command with
      | some stop => ⟨s, stop, done⟩
      | none =>
        match jump? p s command with
        | some target => loop p budget ⟨target, s.tape⟩ (done + 1)
        | none =>
          let next : State := ⟨s.ip + 1, effect s.tape command⟩
          if p.inside next.ip then loop p budget next (done + 1) else ⟨next, .finish, done + 1⟩

/-- Executes commands until the budget is used up or the loop has to stop. A budget below zero
allows as little as zero does. -/
def run (p : Compiled) (s : State) (budget : Int) : Outcome :=
  loop p budget.toNat s 0

/-! ## What a batch can do -/

/-- Growth is an obstacle only when no slot is spare. -/
theorem full_of_obstacle?_eq_growth {t : Tape} {command : Command}
    (h : obstacle? t command = some .growth) : t.full = true := by
  cases command with
  | right | left =>
    simp only [obstacle?] at h
    split at h
    · simp_all
    · simp at h
  | _ => simp [obstacle?] at h

theorem loop_steps_ge (p : Compiled) (budget : Nat) (s : State) (done : Nat) :
    done ≤ (loop p budget s done).steps := by
  fun_induction loop p budget s done with
  | case1 => simp
  | case2 => simp
  | case3 => simp
  | case4 => omega
  | case5 => omega
  | case6 => simp

theorem loop_steps_le (p : Compiled) (budget : Nat) (s : State) (done : Nat) :
    (loop p budget s done).steps ≤ done + budget := by
  fun_induction loop p budget s done with
  | case1 => simp
  | case2 => simp
  | case3 => simp
  | case4 => omega
  | case5 => omega
  | case6 => simp

theorem loop_full (p : Compiled) (budget : Nat) (s : State) (done : Nat)
    (h : (loop p budget s done).stop = .growth) :
    (loop p budget s done).state.tape.full = true := by
  fun_induction loop p budget s done with
  | case1 => simp at h
  | case2 => simp at h
  | case3 budget s done command _ stop obstacle =>
    simp only at h
    exact full_of_obstacle?_eq_growth (h ▸ obstacle)
  | case4 _ _ _ _ _ _ _ _ ih => exact ih h
  | case5 _ _ _ _ _ _ _ _ _ ih => exact ih h
  | case6 => simp at h

theorem loop_state_of_steps_eq (p : Compiled) (budget : Nat) (s : State) (done : Nat)
    (h : (loop p budget s done).steps = done) : (loop p budget s done).state = s := by
  cases budget with
  | zero => rfl
  | succ budget =>
    rw [loop] at h ⊢
    split at h
    · rfl
    · split at h
      · rfl
      · split at h
        · rename_i target _
          have := loop_steps_ge p budget ⟨target, s.tape⟩ (done + 1)
          omega
        · simp only at h ⊢
          split at h
          · have := loop_steps_ge p budget ⟨s.ip + 1, effect s.tape ‹Command›⟩ (done + 1)
            omega
          · simp at h

/-- A batch takes no more steps than its budget allows. -/
theorem run_steps_le (p : Compiled) (s : State) (budget : Int) :
    (run p s budget).steps ≤ budget.toNat := by
  have := loop_steps_le p budget.toNat s 0
  simpa [run] using this

/-- A batch that stops for growth leaves a full arena. -/
theorem run_full {p : Compiled} {s : State} {budget : Int}
    (h : (run p s budget).stop = .growth) : (run p s budget).state.tape.full = true :=
  loop_full p budget.toNat s 0 h

/-- A batch that takes no step changes nothing. -/
theorem run_state_of_steps_eq_zero {p : Compiled} {s : State} {budget : Int}
    (h : (run p s budget).steps = 0) : (run p s budget).state = s :=
  loop_state_of_steps_eq p budget.toNat s 0 h

end Batch

end TapeMachine
