import TapeMachine.Proofs.Machine.Silent
import TapeMachine.Proofs.Supervisor.LoopCalls

/-!
# The contract of a turn

A turn of the batch driver calls the batch loop, enlarges the arena and calls it again as often as
needed, executes the command at which the loop stopped if that prints, and tells how it ended and
how many commands it has executed. `Machine.Turns` lists what can come of this for a live machine:
silent steps up to the end of the budget, silent steps up to the end of the program, silent steps
and then one that prints, or nothing at all where the program has been left before. That nothing
else can is `Supervisor.batchLoop_turns`; enlarging the arena does not show, because it comes right
before a step that would have done it (`Supervisor.turns_of_grow`).

From these four cases every clause of the contract is read off (`Machine.TurnContract`): the number
of steps, the machine, the output, and which reason is given when. Turns that have nothing to do
keep it too, so it holds for every turn of every session (`Supervisor.batchStep_contract`).
-/

namespace TapeMachine

namespace Machine

/-! ### What a turn can do -/

/-- What a turn with the given budget can make of a live machine, with the reason that it gives and
the number of commands that it reports. -/
inductive Turns (m : Machine) (budget : Nat) : Batch.Stop → Nat → Machine → Prop
  /-- The program has been left before. -/
  | outside : m.inside = false → Turns m budget .finish 0 { m with terminated := true }
  | exhausted {u : Machine} : Through Silent budget m u → u.Live → Turns m budget .budget budget u
  | ended {u : Machine} {k : Nat} : 0 < k → k ≤ budget → Through Silent k m u →
      u.terminated = true → Turns m budget .finish k u
  /-- The command that prints may also be the last one of the program. -/
  | printed {u : Machine} {k : Nat} : k < budget → Through Silent k m u → u.Live → u.Prints →
      Turns m budget (if u.step.terminated then .finish else .output) (k + 1) u.step

namespace Turns

variable {m u m' : Machine} {budget j k : Nat} {stop : Batch.Stop}

/-- Silent steps may come first. -/
theorem prepend (hrun : Through Silent j m u) (hu : u.Inside) (h : Turns u budget stop k m') :
    Turns m (j + budget) stop (j + k) m' := by
  cases h with
  | outside hout =>
      rw [Inside, hout] at hu
      cases hu
  | exhausted hrest hlive => exact .exhausted (hrun.trans hrest) hlive
  | ended hk hle hrest hterm => exact .ended (by omega) (by omega) (hrun.trans hrest) hterm
  | @printed u i hlt hrest hlive hprints =>
      have hlt' : j + i < j + budget := by omega
      exact .printed hlt' (hrun.trans hrest) hlive hprints

end Turns

/-! ### The contract -/

/-- One token more has been printed. -/
def PrintsOneMore (m m' : Machine) : Prop :=
  ∃ token, m'.output = m.output.push token

/-- What a turn with a limit promises about the reason that it gives, the number of commands that it
reports, and the machine that it leaves. -/
structure TurnContract (m : Machine) (limit : Int) (stop : Batch.Stop) (taken : Nat)
    (m' : Machine) : Prop where
  taken_le : (taken : Int) ≤ max 0 limit
  stepCount_eq : m'.stepCount = m.stepCount + taken
  /-- The commands are those of single steps. Only where there was none to begin with is the end
  found out by a step that does not count. -/
  machine_eq : m' =
    if m.inside = false ∧ 1 ≤ limit then { Machine.step^[taken] m with terminated := true }
    else Machine.step^[taken] m
  output_eq : m'.output = m.output ∨ m.PrintsOneMore m'
  printed_iff : m.PrintsOneMore m' ↔
    1 ≤ taken ∧ (Machine.step^[taken - 1] m).instruction? = some '.'
  finish_iff : stop = .finish ↔ m'.terminated = true
  output_iff : stop = .output ↔ m.PrintsOneMore m' ∧ m'.terminated = false
  budget_iff : stop = .budget ↔
    (taken : Int) = max 0 limit ∧ ¬ m.PrintsOneMore m' ∧ m'.terminated = false
  stop_ne_growth : stop ≠ .growth

section contract

variable {m u m' : Machine} {limit : Int} {k : Nat} {stop : Batch.Stop}

theorem not_printsOneMore (h : m'.output = m.output) : ¬ m.PrintsOneMore m' := by
  rintro ⟨token, htoken⟩
  have hsize := congrArg Array.size (h.symm.trans htoken)
  rw [Array.size_push] at hsize
  omega

/-- A turn that has nothing to do, on a terminated machine or without a budget. -/
theorem turnContract_idle (h : m.terminated = true ∨ limit ≤ 0) :
    TurnContract m limit (if m.terminated then .finish else .budget) 0 m := by
  have hprints := not_printsOneMore (rfl : m.output = m.output)
  refine ⟨Int.le_max_left 0 limit, rfl, ?_, .inl rfl, ?_, ?_, ?_, ?_, ?_⟩
  · split_ifs with hout
    · have hterm : m.terminated = true := h.resolve_right (by omega)
      simp [← hterm]
    · rfl
  · exact iff_of_false hprints (by omega)
  · by_cases hterm : m.terminated = true <;> simp [hterm]
  · by_cases hterm : m.terminated = true <;> simp [hterm, hprints]
  · by_cases hterm : m.terminated = true
    · simp [hterm]
    · have hlimit := h.resolve_left hterm
      simp [hterm, hprints, Int.max_eq_left hlimit]
  · by_cases hterm : m.terminated = true <;> simp [hterm]

/-- A turn of silent steps, which has come to the end of the program or of its budget. -/
theorem turnContract_of_silent (hk : 0 < k) (hle : (k : Int) ≤ limit) (hrun : Through Silent k m u)
    (hall : u.terminated = false → (k : Int) = limit) :
    TurnContract m limit (if u.terminated then .finish else .budget) k u := by
  have hin : m.inside = true := (hrun.along 0 hk).inside
  have hprints := not_printsOneMore hrun.output_of_silent
  have hlimit : max 0 limit = limit := Int.max_eq_right (by omega)
  refine ⟨by omega, hrun.stepCount_of_silent, ?_, .inl hrun.output_of_silent, ?_, ?_, ?_, ?_, ?_⟩
  · rw [if_neg (by simp [hin])]
    exact hrun.eq_iterate
  · refine iff_of_false hprints ?_
    rintro ⟨-, hlast⟩
    exact (hrun.along (k - 1) (by omega)).not_prints (prints_iff.mpr hlast)
  · by_cases hterm : u.terminated = true <;> simp [hterm]
  · by_cases hterm : u.terminated = true <;> simp [hterm, hprints]
  · by_cases hterm : u.terminated = true
    · simp [hterm]
    · simp [hterm, hprints, hlimit, hall (Bool.eq_false_iff.mpr hterm)]
  · by_cases hterm : u.terminated = true <;> simp [hterm]

/-- A turn of silent steps and one that prints. -/
theorem turnContract_of_printed (hlt : (k : Int) < limit) (hrun : Through Silent k m u)
    (hprints : u.Prints) :
    TurnContract m limit (if u.step.terminated then .finish else .output) (k + 1) u.step := by
  have hu : u = Machine.step^[k] m := hrun.eq_iterate
  have hin : m.inside = true := by
    cases hrun with
    | refl => exact hprints.inside
    | step hfirst _ => exact hfirst.inside
  have hmore : m.PrintsOneMore u.step := by
    refine ⟨Token.ofCell u.tape.read, ?_⟩
    rw [output_step_of_prints hprints, hrun.output_of_silent]
  refine ⟨by omega, ?_, ?_, .inr hmore, ?_, ?_, ?_, ?_, ?_⟩
  · rw [stepCount_step_of_inside hprints.inside, hrun.stepCount_of_silent, Nat.add_assoc]
  · rw [if_neg (by simp [hin]), Function.iterate_succ_apply', ← hu]
  · refine iff_of_true hmore ⟨by omega, ?_⟩
    rw [Nat.add_sub_cancel, ← hu]
    exact prints_iff.mp hprints
  · by_cases hterm : u.step.terminated = true <;> simp [hterm]
  · by_cases hterm : u.step.terminated = true <;> simp [hterm, hmore]
  · by_cases hterm : u.step.terminated = true <;> simp [hterm, hmore]
  · by_cases hterm : u.step.terminated = true <;> simp [hterm]

/-- A turn on a live machine outside the program, which only finds out that it is there. -/
theorem turnContract_of_outside (hlimit : 1 ≤ limit) (hout : m.inside = false) :
    TurnContract m limit .finish 0 { m with terminated := true } := by
  have hprints : ¬ m.PrintsOneMore { m with terminated := true } := not_printsOneMore rfl
  refine ⟨Int.le_max_left 0 limit, rfl, ?_, .inl rfl, ?_, ?_, ?_, ?_, ?_⟩
  · rw [if_pos ⟨hout, hlimit⟩]
    rfl
  · exact iff_of_false hprints (by omega)
  · simp
  · simp
  · simp
  · simp

/-- **What a turn can do keeps the contract.** -/
theorem Turns.contract (hlimit : 1 ≤ limit) (h : Turns m limit.toNat stop k m') :
    TurnContract m limit stop k m' := by
  cases h with
  | outside hout => exact turnContract_of_outside hlimit hout
  | exhausted hrun hlive =>
      have hall : (limit.toNat : Int) = limit := by omega
      have hcontract := turnContract_of_silent (by omega) (by omega) hrun fun _ => hall
      rwa [if_neg (Bool.eq_false_iff.mp hlive)] at hcontract
  | ended hk hle hrun hterm =>
      have hwithin : (k : Int) ≤ limit := by omega
      have hcontract := turnContract_of_silent hk hwithin hrun (by simp [hterm])
      rwa [if_pos hterm] at hcontract
  | printed hlt hrun _ hprints => exact turnContract_of_printed (by omega) hrun hprints

end contract

end Machine

namespace Supervisor

open Machine

variable {s : Supervisor} {remaining k : Nat} {stop : Batch.Stop} {m' : Machine}

/-- Enlarging the arena before a move that needs a cell does not show in a turn. -/
theorem turns_of_grow {c : Command} (hs : s.machine.Live)
    (hc : s.machine.program.commandAt? s.machine.ip = some c)
    (hobs : Batch.obstacle? s.machine.tape c = some .growth) (hpos : 0 < remaining)
    (h : Turns s.grow.machine remaining stop k m') : Turns s.machine remaining stop k m' := by
  have hin : s.machine.Inside := Compiled.inside_of_commandAt? hc
  have hmoves : ¬ s.machine.Prints := by
    intro hprints
    rw [Prints, hc] at hprints
    obtain ⟨rfl, -⟩ | ⟨rfl, -⟩ := Batch.growth_cases hobs <;> cases hprints
  have hsilent : s.machine.Silent := ⟨hs, hin, hmoves⟩
  cases h with
  | outside hout =>
      have hin' : s.grow.machine.inside = true := hin
      rw [hout] at hin'
      cases hin'
  | exhausted hrest hlive => exact .exhausted (through_grow hsilent hc hobs hpos hrest) hlive
  | ended hk hle hrest hterm => exact .ended hk hle (through_grow hsilent hc hobs hk hrest) hterm
  | @printed u j hlt hrest hlive hprints =>
      by_cases hj : j = 0
      · -- the command that the arena was enlarged for is a move
        subst hj
        cases hrest
        exact absurd hprints hmoves
      · exact .printed hlt (through_grow hsilent hc hobs (by omega) hrest) hlive hprints

/-- **What a turn does**, in one of four cases. -/
theorem batchLoop_turns (s : Supervisor) (remaining taken : Nat) (hs : s.machine.Live)
    (hpos : 0 < remaining) :
    ∃ k, (s.batchLoop remaining taken).1.2 = taken + k ∧
      Turns s.machine remaining (s.batchLoop remaining taken).1.1 k
        (s.batchLoop remaining taken).2.machine := by
  fun_induction batchLoop s remaining taken with
  | case1 => omega
  | case2 s remaining taken _ o hstop ih =>
      have hbatch : Batch.Stopped s.machine remaining o.state o.steps o.stop :=
        run_stopped s hs remaining
      rw [hstop] at hbatch
      obtain ⟨hlt, hrun, c, hc, hobs⟩ := hbatch
      have hend : (s.absorb o).machine.Inside := Compiled.inside_of_commandAt? hc
      have hsilent := hrun.silent (hrun.inside_of_inside hs hend) rfl
      obtain ⟨k, hk, hturns⟩ := ih hs (by omega)
      have hrest := turns_of_grow (s := s.absorb o) hs hc hobs (by omega) hturns
      have hall := hrest.prepend hsilent hend
      rw [Nat.add_sub_of_le (Nat.le_of_lt hlt)] at hall
      exact ⟨o.steps + k, by omega, hall⟩
  | case3 s remaining taken _ o hstop absorbed stepped =>
      have hbatch : Batch.Stopped s.machine remaining o.state o.steps o.stop :=
        run_stopped s hs remaining
      rw [hstop] at hbatch
      obtain ⟨hlt, hrun, hc⟩ := hbatch
      have hprints : absorbed.machine.Prints := hc
      have hsilent := hrun.silent (hrun.inside_of_inside hs hprints.inside) rfl
      exact ⟨o.steps + 1, rfl, .printed hlt hsilent hs hprints⟩
  | case4 s remaining taken _ o hstop =>
      have hbatch : Batch.Stopped s.machine remaining o.state o.steps o.stop :=
        run_stopped s hs remaining
      rw [hstop] at hbatch
      obtain ⟨j, hj, hle, hrun⟩ := hbatch
      refine ⟨o.steps, rfl, ?_⟩
      by_cases hin : s.machine.inside = true
      · have hsilent := hrun.silent hin rfl
        have hcount : s.machine.stepCount + o.steps = s.machine.stepCount + j :=
          hsilent.stepCount_of_silent
        rw [show o.steps = j by omega]
        exact .ended hj hle hsilent rfl
      · have hout := Bool.eq_false_iff.mpr hin
        have heq : (s.absorb o).terminate.machine = { s.machine with terminated := true } :=
          hrun.eq_of_outside hj hout
        have hcount : s.machine.stepCount + o.steps = s.machine.stepCount :=
          congrArg Machine.stepCount heq
        rw [heq, show o.steps = 0 by omega]
        exact .outside hout
  | case5 s remaining taken _ o hstop =>
      have hbatch : Batch.Stopped s.machine remaining o.state o.steps o.stop :=
        run_stopped s hs remaining
      rw [hstop] at hbatch
      obtain ⟨hall, hrun⟩ := hbatch
      have hsilent : Through Silent o.steps s.machine (s.absorb o).machine :=
        hrun.silent (hrun.inside_of_live (by omega) hs) rfl
      refine ⟨o.steps, rfl, ?_⟩
      rw [hall] at hsilent ⊢
      exact .exhausted hsilent hs

/-! ### Stops for growth -/

/-- In a turn the loop stops for growth on the state of `u`, and it is called again on the state of
`v` with what is left of the budget. -/
structure Resumes (u : Supervisor) (budget : Nat) (v : Supervisor) (budget' : Nat) : Prop where
  stop : (Batch.run u.machine.program u.batchState budget).stop = .growth
  next : v = (u.absorb (Batch.run u.machine.program u.batchState budget)).grow
  left : budget' = budget - (Batch.run u.machine.program u.batchState budget).steps

/-- A call after a stop for growth does not stop for growth before it has executed a command. -/
theorem Resumes.steps_pos {u v : Supervisor} {budget budget' : Nat} (h : u.Resumes budget v budget')
    (hstop : (Batch.run v.machine.program v.batchState budget').stop = .growth) :
    0 < (Batch.run v.machine.program v.batchState budget').steps := by
  by_contra hzero
  -- the batch has changed nothing and left a full arena, but it started with a spare slot
  have hsame := Batch.run_state_of_steps_eq_zero (Nat.eq_zero_of_not_pos hzero)
  have hfull := Batch.run_full hstop
  rw [hsame] at hfull
  have hroom : v.machine.tape.full = false := by
    rw [h.next]
    exact full_grow _
  have hfull : v.machine.tape.full = true := hfull
  rw [hroom] at hfull
  cases hfull

/-- A turn that resumes the loop calls it there. -/
theorem LoopCalls.resumes {s u v : Supervisor} {remaining budget budget' : Nat}
    (h : s.LoopCalls remaining u budget) (hs : s.machine.Live)
    (hresumes : u.Resumes budget v budget') : s.LoopCalls remaining v budget' := by
  induction h with
  | @now s remaining hne =>
      have hbatch := run_stopped s hs remaining
      rw [hresumes.stop] at hbatch
      refine .resumed hne rfl hresumes.stop ?_
      rw [hresumes.next, hresumes.left]
      exact .now (by have := hbatch.1; omega)
  | resumed hne hrun hstop _ ih => exact .resumed hne hrun hstop (ih hs hresumes)

/-! ### Every turn -/

/-- **The contract of a turn.** Whatever the state of a session is, wherever the instruction pointer
has been moved to, and with every limit, a turn of the batch driver comes back with a reason, a
number of commands, and a supervisor whose machine is as the contract says; nothing else has changed
but the log. After each stop for growth the loop is called again, and it does not stop
for growth a second time before it has executed a command. -/
theorem batchStep_contract (s : Supervisor) (limit : Int) :
    (∃ stop taken s', s.batchStep limit = ((stop, taken), s') ∧
      s.machine.TurnContract limit stop taken s'.machine ∧
      s' = { s with machine := s'.machine, log := s'.log }) ∧
    ∀ u budget v budget', s.TurnCalls limit u budget → u.Resumes budget v budget' →
      s.TurnCalls limit v budget' ∧
      ((Batch.run v.machine.program v.batchState budget').stop = .growth →
        0 < (Batch.run v.machine.program v.batchState budget').steps) := by
  refine ⟨⟨(s.batchStep limit).1.1, (s.batchStep limit).1.2, (s.batchStep limit).2, rfl, ?_⟩, ?_⟩
  · by_cases hidle : s.machine.terminated = true ∨ limit ≤ 0
    · rw [s.batchStep_of_idle hidle]
      exact ⟨turnContract_idle hidle, rfl⟩
    · have hlive : s.machine.Live := Bool.eq_false_iff.mpr fun h => hidle (.inl h)
      have hlimit : 1 ≤ limit := by omega
      have hloop : s.batchStep limit = s.batchLoop limit.toNat 0 := by
        rw [batchStep, if_neg fun h => hidle (.inl h)]
      obtain ⟨k, hk, hturns⟩ := s.batchLoop_turns limit.toNat 0 hlive (by omega)
      rw [Nat.zero_add] at hk
      rw [← hk, ← hloop] at hturns
      exact ⟨hturns.contract hlimit, (batchStep_advances hlive hlimit).frame⟩
  · rintro u budget v budget' ⟨hlive, hcalls⟩ hresumes
    exact ⟨⟨hlive, hcalls.resumes hlive hresumes⟩, hresumes.steps_pos⟩

/-- A loop that always moves to a new cell, entered by moving the instruction pointer: the turn
executes all of its hundred commands, and the arena is enlarged on the way. -/
theorem batchStep_contract_across_growth :
    ∃ s s' u : Supervisor, s.Reachable ∧ s.machine.ip = 1 ∧
      s.batchStep 100 = ((.budget, 100), s') ∧
      s.machine.TurnContract 100 .budget 100 s'.machine ∧
      ∃ left, s.TurnCalls 100 s 100 ∧ s.Resumes 100 u left ∧ s.TurnCalls 100 u left := by
  let start : Supervisor := { machine := Machine.load "+[>+]." }
  let s := start.withMachine { start.machine with ip := 1 }
  have hstart : start.Reachable :=
    .start (show Supervisor.ofDatum (.text "+[>+].") none = .ok start from rfl)
  have hs : s.Reachable :=
    .request hstart (show start.performAtFuel 0 (.setIp 1) = some (.ok .done, s) from rfl)
  obtain ⟨⟨stop, taken, s', hturn, hcontract, -⟩, hcalls⟩ := batchStep_contract s 100
  have hreport : (s.batchStep 100).1 = (.budget, 100) := by decide +kernel
  rw [hturn] at hreport
  cases hreport
  have hgrowth : (Batch.run s.machine.program s.batchState (100 : Nat)).stop = .growth := by
    decide +kernel
  have hfirst : s.TurnCalls 100 s 100 := ⟨rfl, .now (by decide)⟩
  have hresumes : s.Resumes 100 _ _ := ⟨hgrowth, rfl, rfl⟩
  exact ⟨s, s', _, hs, rfl, hturn, hcontract, _, hfirst, hresumes,
    (hcalls _ _ _ _ hfirst hresumes).1⟩

end Supervisor

end TapeMachine
