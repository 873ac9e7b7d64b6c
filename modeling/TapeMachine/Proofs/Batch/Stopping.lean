import TapeMachine.Proofs.Batch.Simulation
import TapeMachine.Proofs.Machine.FirstTime
import TapeMachine.Proofs.Machine.Silent

/-!
# Where a batch stops

The batch loop tests for the end of the program in two places, for its budget in another, and for
what it has to leave to its caller in between. Here it is said once and for all where it stops, in
terms of single steps. A machine is *blocked* if the loop cannot execute its next command: there is
none, or it prints, or it moves to a new cell and the arena is full (`Machine.Blocked`). A batch
executes commands up to the first blocked machine or the end of its budget, whichever comes first.

An iteration of the loop is one of two things. On a blocked machine it stops and changes nothing
(`Batch.loop_of_blocked`); otherwise it does a step of the machine, and stops if that has left the
program (`Batch.loop_of_free`). The reasons that are given for stopping follow from this by
induction on the budget (`Batch.loop_halts`).
-/

namespace TapeMachine

namespace Machine

/-- The next command moves to a cell that does not exist, and there is no spare slot for it. -/
def NeedsSlot (m : Machine) : Prop :=
  m.tape.full = true ∧
    (m.program.commandAt? m.ip = some .right ∧ m.tape.rightOf m.tape.current = none ∨
      m.program.commandAt? m.ip = some .left ∧ m.tape.leftOf m.tape.current = none)

/-- The batch loop cannot execute the next command of the machine. -/
def Blocked (m : Machine) : Prop :=
  m.inside = false ∨ m.Prints ∨ m.NeedsSlot

theorem NeedsSlot.inside {m : Machine} (h : m.NeedsSlot) : m.inside = true := by
  obtain ⟨-, ⟨hc, -⟩ | ⟨hc, -⟩⟩ := h <;> exact Compiled.inside_of_commandAt? hc

end Machine

namespace Batch

open Machine

variable {m : Machine} {c : Command} {budget k done : Nat} {stop : Stop}

/-! ### One iteration -/

/-- What the loop reports of a machine at which it stops for lack of a command that it could
execute. -/
def Pending (m : Machine) : Stop → Prop
  | .finish => m.inside = false
  | .output => m.Prints
  | .growth => m.NeedsSlot
  | .budget => False

theorem Pending.blocked (h : Pending m stop) : m.Blocked := by
  cases stop with
  | finish => exact .inl h
  | output => exact .inr (.inl h)
  | growth => exact .inr (.inr h)
  | budget => exact absurd h id

/-- An obstacle is what blocks the machine. -/
theorem pending_of_obstacle? (hc : m.program.commandAt? m.ip = some c)
    (h : obstacle? m.tape c = some stop) : Pending m stop := by
  cases stop with
  | growth =>
      refine ⟨full_of_obstacle?_eq_growth h, ?_⟩
      obtain ⟨rfl, hnone⟩ | ⟨rfl, hnone⟩ := growth_cases h
      · exact .inl ⟨hc, hnone⟩
      · exact .inr ⟨hc, hnone⟩
  | output =>
      cases c with
      | print => exact hc
      | _ => simp [obstacle?] at h
  | _ => cases c <;> simp [obstacle?] at h

/-- Without an obstacle, the machine is not blocked at its next command. -/
theorem not_blocked_of_obstacle? (hc : m.program.commandAt? m.ip = some c)
    (h : obstacle? m.tape c = none) : ¬ m.Blocked := by
  rintro (hout | hprints | ⟨hfull, ⟨hright, hnone⟩ | ⟨hleft, hnone⟩⟩)
  · rw [inside, Compiled.inside_of_commandAt? hc] at hout
    cases hout
  · rw [Prints, hc] at hprints
    cases hprints
    simp [obstacle?] at h
  · rw [hc] at hright
    cases hright
    simp [obstacle?, hfull, hnone] at h
  · rw [hc] at hleft
    cases hleft
    simp [obstacle?, hfull, hnone] at h

/-- On a blocked machine the loop stops and leaves everything as it is. -/
theorem loop_of_blocked (h : m.Blocked) (budget done : Nat) :
    ∃ stop, Pending m stop ∧
      loop m.program (budget + 1) ⟨m.ip, m.tape⟩ done = ⟨⟨m.ip, m.tape⟩, stop, done⟩ := by
  rcases hc : m.program.commandAt? m.ip with _ | c
  · exact ⟨.finish, (m.program.commandAt?_eq_none_iff m.ip).mp hc, by simp only [loop, hc]⟩
  rcases hobs : obstacle? m.tape c with _ | stop
  · exact absurd h (not_blocked_of_obstacle? hc hobs)
  · exact ⟨stop, pending_of_obstacle? hc hobs, by simp only [loop, hc, hobs]⟩

/-- On any other machine the loop does a step, and goes on if that has not left the program. -/
theorem loop_of_free (h : ¬ m.Blocked) (budget done : Nat) :
    loop m.program (budget + 1) ⟨m.ip, m.tape⟩ done =
      if m.step.inside then loop m.step.program budget ⟨m.step.ip, m.step.tape⟩ (done + 1)
      else ⟨⟨m.step.ip, m.step.tape⟩, .finish, done + 1⟩ := by
  have hin : m.inside = true := by
    by_contra hout
    exact h (.inl (Bool.eq_false_iff.mpr hout))
  obtain ⟨c, hc⟩ := Compiled.exists_commandAt? hin
  rcases hobs : obstacle? m.tape c with _ | stop
  · rcases hj : m.jump? c with _ | target
    · have heffect := machine_effect_eq (m := { m with stepCount := m.stepCount + 1 }) hobs
      have hstep := step_of_fallthrough hc hj
      rw [heffect] at hstep
      rw [hstep]
      simp only [loop, hc, hobs, jump?_eq, hj, Option.map_none]
      rfl
    · -- no test for the end follows a jump, and none is needed
      have hlands : m.program.inside target = true := by
        have hlt := lt_length_of_jump? hj
        exact (m.program.inside_eq_true_iff target).mpr (by omega)
      rw [step_of_jump hc hj]
      simp only [loop, hc, hobs, jump?_eq, hj, Option.map_some, inside, hlands, if_true]
  · exact absurd (pending_of_obstacle? hc hobs).blocked h

/-! ### The loop -/

/-- The reason that a batch gives for stopping at a machine after `k` of the commands that its
budget allows. The end of the program goes before the end of the budget, unless the budget allows
nothing at all. -/
inductive Reason (budget k : Nat) (m : Machine) : Stop → Prop
  | finish : 0 < budget → m.inside = false → Reason budget k m .finish
  | budget : k = budget → budget = 0 ∨ m.inside = true → Reason budget k m .budget
  | pending {stop : Stop} : k < budget → m.inside = true → Pending m stop → Reason budget k m stop

namespace Reason

/-- A budget that allows nothing is used up. -/
theorem of_zero (h : Reason 0 k m stop) : stop = .budget := by
  cases h with
  | finish hpos _ => exact absurd hpos (Nat.lt_irrefl 0)
  | budget _ _ => rfl
  | pending hlt _ _ => exact absurd hlt (Nat.not_lt_zero k)

/-- Outside the program a batch with a budget has found the end. -/
theorem of_outside (h : Reason budget k m stop) (hpos : 0 < budget) (hout : m.inside = false) :
    stop = .finish := by
  cases h with
  | finish _ _ => rfl
  | budget _ hin =>
      rcases hin with hzero | hin
      · omega
      · rw [hout] at hin
        cases hin
  | pending _ hin _ =>
      rw [hout] at hin
      cases hin

/-- Inside the program a batch that has reached its budget says so. -/
theorem of_reached (h : Reason budget k m stop) (hk : k = budget) (hin : m.inside = true) :
    stop = .budget := by
  cases h with
  | finish _ hout =>
      rw [hin] at hout
      cases hout
  | budget _ _ => rfl
  | pending hlt _ _ => omega

/-- Inside the program a batch with some of its budget left has met a command that it cannot
execute. -/
theorem of_left (h : Reason budget k m stop) (hk : k ≠ budget) (hin : m.inside = true) :
    m.Prints ∧ stop = .output ∨ m.NeedsSlot ∧ stop = .growth := by
  cases h with
  | finish _ hout =>
      rw [hin] at hout
      cases hout
  | budget heq _ => exact absurd heq hk
  | pending _ _ hpending =>
      cases stop with
      | output => exact .inl ⟨hpending, rfl⟩
      | growth => exact .inr ⟨hpending, rfl⟩
      | finish =>
          have hout : m.inside = false := hpending
          rw [hin] at hout
          cases hout
      | budget => exact absurd hpending id

end Reason

/-- A batch of `k` commands has stopped for the given reason where it should. -/
structure Halts (m : Machine) (budget k : Nat) (stop : Stop) : Prop where
  within : k ≤ budget
  free : ∀ i < k, ¬ (Machine.step^[i] m).Blocked
  blocked : k < budget → (Machine.step^[k] m).Blocked
  reason : Reason budget k (Machine.step^[k] m) stop

/-- A batch that finds the machine blocked has stopped where it should. -/
theorem Halts.now (hpending : Pending m stop) : Halts m (budget + 1) 0 stop := by
  refine ⟨Nat.zero_le _, fun i hi => absurd hi (Nat.not_lt_zero i), fun _ => hpending.blocked, ?_⟩
  cases stop with
  | finish => exact .finish (Nat.succ_pos budget) hpending
  | output => exact .pending (Nat.succ_pos budget) (Prints.inside hpending) hpending
  | growth => exact .pending (Nat.succ_pos budget) (NeedsSlot.inside hpending) hpending
  | budget => exact absurd hpending id

/-- A step that leaves the program is the last one of a batch. -/
theorem Halts.last (h : ¬ m.Blocked) (hout : m.step.inside = false) :
    Halts m (budget + 1) 1 .finish := by
  refine ⟨by omega, ?_, fun _ => .inl hout, .finish (Nat.succ_pos budget) hout⟩
  intro i hi
  obtain rfl : i = 0 := by omega
  exact h

/-- A batch may begin with a step that stays inside the program. -/
theorem Halts.cons (h : ¬ m.Blocked) (hin : m.step.inside = true)
    (hrest : Halts m.step budget k stop) : Halts m (budget + 1) (k + 1) stop := by
  refine ⟨Nat.succ_le_succ hrest.within, ?_, ?_, ?_⟩
  · intro i hi
    cases i with
    | zero => exact h
    | succ i =>
        rw [Function.iterate_succ_apply]
        exact hrest.free i (by omega)
  · intro hlt
    rw [Function.iterate_succ_apply]
    exact hrest.blocked (by omega)
  · rw [Function.iterate_succ_apply]
    cases hrest.reason with
    | finish _ hout => exact .finish (Nat.succ_pos budget) hout
    | pending hlt hinside hpending => exact .pending (Nat.succ_lt_succ hlt) hinside hpending
    | budget heq hlast =>
        refine .budget (congrArg Nat.succ heq) (.inr ?_)
        rcases hlast with hzero | hinside
        · -- the budget was for this one step
          subst hzero
          subst heq
          exact hin
        · exact hinside

/-- **Where the loop stops.** Whatever the budget, and however many commands have been executed
before, the loop leaves what some number of single steps leave, and it has stopped where it
should. -/
theorem loop_halts (m : Machine) (budget done : Nat) :
    ∃ k stop, Halts m budget k stop ∧
      loop m.program budget ⟨m.ip, m.tape⟩ done =
        ⟨⟨(Machine.step^[k] m).ip, (Machine.step^[k] m).tape⟩, stop, done + k⟩ := by
  induction budget generalizing m done with
  | zero =>
      refine ⟨0, .budget, ⟨Nat.le_refl 0, ?_, ?_, .budget rfl (.inl rfl)⟩, rfl⟩
      · exact fun i hi => absurd hi (Nat.not_lt_zero i)
      · exact fun hlt => absurd hlt (Nat.lt_irrefl 0)
  | succ budget ih =>
      by_cases hblocked : m.Blocked
      · obtain ⟨stop, hpending, hloop⟩ := loop_of_blocked hblocked budget done
        exact ⟨0, stop, .now hpending, hloop⟩
      · rw [loop_of_free hblocked]
        by_cases hin : m.step.inside = true
        · obtain ⟨k, stop, hhalts, hloop⟩ := ih m.step (done + 1)
          refine ⟨k + 1, stop, hhalts.cons hblocked hin, ?_⟩
          rw [if_pos hin, hloop, Function.iterate_succ_apply, Nat.add_assoc, Nat.add_comm 1 k]
        · exact ⟨1, .finish, .last hblocked (Bool.eq_false_iff.mpr hin), if_neg hin⟩

/-- **Where a batch stops, and why.** For a program built from any text, on any tape, from any
position and with any limit, let `m'` be the machine after as many single steps as the batch has
executed commands.

* The commands are as many as there are steps to the first blocked machine, but no more than the
  limit allows.
* What the batch leaves is the position of `m'` and its tape with the whole arena; the command at
  which it has stopped has had no effect.
* A limit that allows nothing is the reason given for stopping right away. Otherwise the reason is
  the end of the program if `m'` is outside of it, also when the limit has been reached; else the
  limit, if it has been reached; else the command of `m'`, which prints or needs a slot.
-/
theorem run_stops_where_blocked (text : List Char) (t : Tape) (ip limit : Int) :
    let m : Machine := { program := Program.ofChars text, tape := t, ip := ip }
    let o := run (Program.ofChars text) ⟨ip, t⟩ limit
    let m' := Machine.step^[o.steps] m
    (o.steps : ℕ∞) = min (firstTime fun k => (Machine.step^[k] m).Blocked) limit.toNat ∧
    o.state = ⟨m'.ip, m'.tape⟩ ∧
    (limit ≤ 0 → o.stop = .budget) ∧
    (0 < limit → m'.inside = false → o.stop = .finish) ∧
    (0 < limit → m'.inside = true → (o.steps : Int) = limit → o.stop = .budget) ∧
    (0 < limit → m'.inside = true → (o.steps : Int) ≠ limit →
      m'.Prints ∧ o.stop = .output ∨ m'.NeedsSlot ∧ o.stop = .growth) := by
  intro m o m'
  obtain ⟨k, stop, hhalts, hloop⟩ := loop_halts m limit.toNat 0
  have ho : o = ⟨⟨(Machine.step^[k] m).ip, (Machine.step^[k] m).tape⟩, stop, 0 + k⟩ := hloop
  have hsteps : o.steps = k := by rw [ho]; exact Nat.zero_add k
  have hstop : o.stop = stop := by rw [ho]
  have hm' : m' = Machine.step^[k] m := by rw [← hsteps]
  rw [hsteps, hstop, hm']
  refine ⟨eq_min_firstTime hhalts.within hhalts.free hhalts.blocked, by rw [ho], ?_, ?_, ?_, ?_⟩
  · intro hlimit
    have hreason := hhalts.reason
    rw [Int.toNat_of_nonpos hlimit] at hreason
    exact hreason.of_zero
  · intro hlimit hout
    exact hhalts.reason.of_outside (by omega) hout
  · intro _ hin hreached
    exact hhalts.reason.of_reached (by omega) hin
  · intro _ hin hleft
    exact hhalts.reason.of_left (by omega) hin

/-- The limit and the end of the program come together, and the end is the reason. -/
example : run (Program.ofChars ['+', '-']) ⟨0, Tape.blank⟩ 2 = ⟨⟨2, Tape.blank⟩, .finish, 2⟩ := by
  decide +kernel

end Batch

end TapeMachine
