import TapeMachine.Batch
import TapeMachine.Proofs.Bracket.Matching
import TapeMachine.Proofs.Machine.CountedRun
import TapeMachine.Proofs.Tape.Slots

/-!
# The batch loop simulates single steps

The loop works on the arena itself: it has its own arithmetic, its own moves, and it never enlarges
the arena. Here each of its commands is shown to be the command of the machine
(`Batch.incremented_eq`, `Batch.moveRight_eq`, `Batch.machine_effect_eq`, …), provided that nothing
keeps the loop from executing it. Its jumps are those of the machine because the column of jumps
and the table of jumps agree (`Program.targetAt?_eq`).

From this follows what a whole batch does to a machine, one case of `Batch.Stopped` for each way of
stopping (`Batch.loop_stopped`). In every case the machine takes exactly the steps that the
batch has counted; only the mark of termination is left to the caller.
-/

namespace TapeMachine

namespace Batch

open Machine

/-! ### Arithmetic -/

/-- Saturating at the greatest cell and going on from the least is adding one. -/
theorem incremented_eq (c : Cell) : incremented c = c + 1 := by
  unfold incremented
  split_ifs with h
  · have hle := c.toInt_le
    have hmax : c.toInt = Int32.maxValue.toInt := by
      have : Int32.maxValue.toInt = 2147483647 := by decide
      omega
    rw [Int32.toInt_inj.mp hmax]
    decide
  · rfl

/-- Saturating at the least cell and going on from the greatest is subtracting one. -/
theorem decremented_eq (c : Cell) : decremented c = c - 1 := by
  unfold decremented
  split_ifs with h
  · have hle := c.le_toInt
    have hmin : c.toInt = Int32.minValue.toInt := by
      have : Int32.minValue.toInt = -2147483648 := by decide
      omega
    rw [Int32.toInt_inj.mp hmin]
    decide
  · rfl

/-! ### Moves -/

/-- Changing a slot right after it has been set is setting it to the changed contents. -/
theorem modify_setIfInBounds (slots : Array Slot) (i : Nat) (x : Slot) (g : Slot → Slot) :
    (slots.setIfInBounds i x).modify i g = slots.setIfInBounds i (g x) := by
  apply Array.ext
  · simp
  · intro j hj hj'
    have hlt : j < slots.size := by simpa using hj
    simp only [Array.getElem_modify, Array.getElem_setIfInBounds hlt]
    split_ifs <;> rfl

/-- Where no growth is needed, the loop moves to the right as the tape does. -/
theorem moveRight_eq {t : Tape} (h : obstacle? t .right = none) : moveRight t = t.moveRight := by
  unfold moveRight Tape.moveRight
  rcases hr : t.rightOf t.current with _ | next
  · have hfull : t.full = false := by simpa [obstacle?, hr] using h
    simp only [Tape.link, Tape.alloc, t.reserve_of_not_full hfull]
    have hcomm := Tape.modify_comm (t.slots.setIfInBounds t.size {}) t.current t.size
      (f := ({ · with right := some t.size })) (g := ({ · with left := some t.current }))
      fun _ => rfl
    rw [hcomm, modify_setIfInBounds]
  · rfl

/-- Where no growth is needed, the loop moves to the left as the tape does. -/
theorem moveLeft_eq {t : Tape} (h : obstacle? t .left = none) : moveLeft t = t.moveLeft := by
  unfold moveLeft Tape.moveLeft
  rcases hl : t.leftOf t.current with _ | next
  · have hfull : t.full = false := by simpa [obstacle?, hl] using h
    simp only [Tape.link, Tape.alloc, t.reserve_of_not_full hfull]
    rw [modify_setIfInBounds]
  · rfl

/-! ### Commands -/

/-- Where nothing is in its way, the loop does to the tape what the machine does. -/
theorem machine_effect_eq {m : Machine} {c : Command} (h : obstacle? m.tape c = none) :
    m.effect c = { m with tape := effect m.tape c } := by
  cases c with
  | increment => simp only [Machine.effect, effect, Tape.increment, incremented_eq]
  | decrement => simp only [Machine.effect, effect, Tape.decrement, decremented_eq]
  | right => simp only [Machine.effect, effect, moveRight_eq h]
  | left => simp only [Machine.effect, effect, moveLeft_eq h]
  | print => simp [obstacle?] at h
  | opening | closing | comment => rfl

/-- The loop jumps as the machine does: it finds in the column of jumps what the machine finds in
the table. -/
theorem jump?_eq (m : Machine) (c : Command) :
    jump? m.program ⟨m.ip, m.tape⟩ c = (m.jump? c).map fun (target : Nat) => (target : Int) := by
  cases c with
  | closing =>
      simp only [jump?, Machine.jump?, m.program.targetAt?_eq]
      split_ifs <;> rfl
  | _ => rfl

/-- The loop stops for growth only before a move to a cell that does not exist. -/
theorem growth_cases {t : Tape} {c : Command} (h : obstacle? t c = some .growth) :
    c = .right ∧ t.rightOf t.current = none ∨ c = .left ∧ t.leftOf t.current = none := by
  cases c with
  | right =>
      simp only [obstacle?] at h
      split_ifs at h with hn
      rw [Bool.and_eq_true, Option.isNone_iff_eq_none] at hn
      exact .inl ⟨rfl, hn.1⟩
  | left =>
      simp only [obstacle?] at h
      split_ifs at h with hn
      rw [Bool.and_eq_true, Option.isNone_iff_eq_none] at hn
      exact .inr ⟨rfl, hn.1⟩
  | _ => simp [obstacle?] at h

/-- Allocating enlarges a full arena by itself, so doing it before makes no difference. -/
theorem alloc_reserve (t : Tape) : (t.reserve 1).alloc = t.alloc := by
  have hroom : (t.reserve 1).full = false := by
    have room := t.size_add_le_capacity_reserve 1
    simp only [Tape.full, Tape.size_reserve, decide_eq_false_iff_not]
    omega
  simp only [Tape.alloc, Tape.reserve_of_not_full _ hroom]

/-- Enlarging the arena before a move that needs a cell only changes the moment at which it is
enlarged. -/
theorem step_reserve {m : Machine} {c : Command} (hc : m.program.commandAt? m.ip = some c)
    (h : obstacle? m.tape c = some .growth) :
    ({ m with tape := m.tape.reserve 1 } : Machine).step = m.step := by
  obtain ⟨rfl, hnone⟩ | ⟨rfl, hnone⟩ := growth_cases h
  · have hnone' : (m.tape.reserve 1).rightOf m.tape.current = none := by
      simpa [Tape.rightOf] using hnone
    rw [step_of_fallthrough hc rfl,
      step_of_fallthrough (m := { m with tape := m.tape.reserve 1 }) hc rfl]
    simp only [Machine.effect, Tape.moveRight, Tape.current_reserve, hnone, hnone', alloc_reserve,
      Tape.size_reserve, Tape.rightmost_reserve]
  · have hnone' : (m.tape.reserve 1).leftOf m.tape.current = none := by
      simpa [Tape.leftOf] using hnone
    rw [step_of_fallthrough hc rfl,
      step_of_fallthrough (m := { m with tape := m.tape.reserve 1 }) hc rfl]
    simp only [Machine.effect, Tape.moveLeft, Tape.current_reserve, hnone, hnone', alloc_reserve,
      Tape.size_reserve, Tape.leftmost_reserve]

/-! ### The loop -/

/-- The machine after a batch of `k` commands has left the given state behind. -/
def carry (m : Machine) (s : State) (k : Nat) : Machine :=
  { m with ip := s.ip, tape := s.tape, stepCount := m.stepCount + k }

/-- What a batch with the given budget can have done to a live machine, by the reason for which it
stopped: `s` is the state that it left, and `k` the number of commands that it counted. -/
def Stopped (m : Machine) (budget : Nat) (s : State) (k : Nat) : Stop → Prop
  | .budget => k = budget ∧ Through Live k m (carry m s k)
  | .output => k < budget ∧ Through Live k m (carry m s k) ∧
      m.program.commandAt? s.ip = some .print
  | .growth => k < budget ∧ Through Live k m (carry m s k) ∧
      ∃ c, m.program.commandAt? s.ip = some c ∧ obstacle? s.tape c = some .growth
  -- the step by which the machine finds out need not be one that is counted
  | .finish => ∃ j, 0 < j ∧ j ≤ budget ∧ Through Live j m { carry m s k with terminated := true }

/-- A batch may begin with a step after which the machine is still live. -/
theorem Stopped.cons {m : Machine} {next s : State} {budget k : Nat} {stop : Stop} (hm : m.Live)
    (hstep : m.step = carry m next 1) (h : Stopped m.step budget s k stop) :
    Stopped m (budget + 1) s (k + 1) stop := by
  have hcarry : carry m.step s k = carry m s (k + 1) := by
    rw [hstep]
    simp only [carry, Nat.add_assoc, Nat.add_comm 1 k]
  cases stop with
  | budget =>
      obtain ⟨rfl, hrun⟩ := h
      rw [hcarry] at hrun
      exact ⟨rfl, .step hm hrun⟩
  | output =>
      obtain ⟨hk, hrun, hc⟩ := h
      rw [hcarry] at hrun
      rw [step_program] at hc
      exact ⟨by omega, .step hm hrun, hc⟩
  | growth =>
      obtain ⟨hk, hrun, hc⟩ := h
      rw [hcarry] at hrun
      rw [step_program] at hc
      exact ⟨by omega, .step hm hrun, hc⟩
  | finish =>
      obtain ⟨j, hj, hle, hrun⟩ := h
      rw [hcarry] at hrun
      exact ⟨j + 1, by omega, by omega, .step hm hrun⟩

/-- A batch that meets an obstacle at once has counted nothing. -/
theorem stopped_of_obstacle {m : Machine} {budget : Nat} {c : Command} {stop : Stop}
    (hc : m.program.commandAt? m.ip = some c) (h : obstacle? m.tape c = some stop) :
    Stopped m (budget + 1) ⟨m.ip, m.tape⟩ 0 stop := by
  have hrun : Through Live 0 m (carry m ⟨m.ip, m.tape⟩ 0) := .refl m
  cases stop with
  | output =>
      obtain rfl : c = .print := by
        cases c <;> first | rfl | simp [obstacle?] at h
      exact ⟨by omega, hrun, hc⟩
  | growth => exact ⟨by omega, hrun, c, hc, h⟩
  | _ => cases c <;> simp [obstacle?] at h

/-- A command that the loop executes takes the machine to the state that the loop goes on with. The
machine is live afterwards if the next position is inside the program. -/
theorem step_of_no_obstacle {m : Machine} {c : Command} (hm : m.Live)
    (hc : m.program.commandAt? m.ip = some c) (hobs : obstacle? m.tape c = none)
    (hj : m.jump? c = none) :
    m.step = { carry m ⟨m.ip + 1, effect m.tape c⟩ 1 with
      terminated := !m.program.inside (m.ip + 1) } := by
  have heffect := machine_effect_eq (m := { m with stepCount := m.stepCount + 1 }) hobs
  rw [step_of_fallthrough hc hj, heffect]
  simp only [advance, Machine.inside, carry, show m.terminated = false from hm, Bool.false_or]

/-- What the loop does after a step that left the machine live, as seen from before that step. -/
theorem exists_stopped_cons {m : Machine} {next : State} {budget done : Nat} (hm : m.Live)
    (hstep : m.step = carry m next 1)
    (h : ∃ k, (loop m.step.program budget ⟨m.step.ip, m.step.tape⟩ (done + 1)).steps =
        done + 1 + k ∧
      Stopped m.step budget (loop m.step.program budget ⟨m.step.ip, m.step.tape⟩ (done + 1)).state k
        (loop m.step.program budget ⟨m.step.ip, m.step.tape⟩ (done + 1)).stop) :
    ∃ k, (loop m.program budget next (done + 1)).steps = done + k ∧
      Stopped m (budget + 1) (loop m.program budget next (done + 1)).state k
        (loop m.program budget next (done + 1)).stop := by
  obtain ⟨k, hsteps, hstop⟩ := h
  have heq : (⟨m.step.ip, m.step.tape⟩ : State) = next := by rw [hstep]; rfl
  rw [step_program, heq] at hsteps hstop
  exact ⟨k + 1, by rw [hsteps]; omega, hstop.cons hm hstep⟩

/-- **What the batch loop does to a machine.** Whatever the budget, and however many commands have
been executed before, the loop stops in one of the ways of `Stopped`. -/
theorem loop_stopped (m : Machine) (hm : m.Live) (budget done : Nat) :
    ∃ k, (loop m.program budget ⟨m.ip, m.tape⟩ done).steps = done + k ∧
      Stopped m budget (loop m.program budget ⟨m.ip, m.tape⟩ done).state k
        (loop m.program budget ⟨m.ip, m.tape⟩ done).stop := by
  induction budget generalizing m done with
  | zero => exact ⟨0, rfl, rfl, .refl m⟩
  | succ budget ih =>
      have hone : Through Live 1 m m.step := .single hm
      rcases hc : m.program.commandAt? m.ip with _ | c
      · -- nothing to execute: the machine finds out by a step that is not counted
        rw [step_of_outside ((m.program.commandAt?_eq_none_iff m.ip).mp hc)] at hone
        simp only [loop, hc]
        exact ⟨0, rfl, 1, Nat.one_pos, by omega, hone⟩
      rcases hobs : obstacle? m.tape c with _ | stop
      · rcases hj : m.jump? c with _ | target
        · have hstep := step_of_no_obstacle hm hc hobs hj
          simp only [loop, hc, hobs, jump?_eq, hj, Option.map_none]
          split_ifs with hin
          · have hnext : m.step = carry m ⟨m.ip + 1, effect m.tape c⟩ 1 := by
              rw [hstep]
              simp only [hin, Bool.not_true, carry, show m.terminated = false from hm]
            exact exists_stopped_cons hm hnext (ih m.step (by rw [hnext]; exact hm) (done + 1))
          · rw [hstep, Bool.eq_false_iff.mpr hin] at hone
            exact ⟨1, rfl, 1, Nat.one_pos, by omega, hone⟩
        · have hnext : m.step = carry m ⟨target, m.tape⟩ 1 := step_of_jump hc hj
          simp only [loop, hc, hobs, jump?_eq, hj, Option.map_some]
          exact exists_stopped_cons hm hnext (ih m.step (by rw [hnext]; exact hm) (done + 1))
      · simp only [loop, hc, hobs]
        exact ⟨0, rfl, stopped_of_obstacle hc hobs⟩

end Batch

end TapeMachine
