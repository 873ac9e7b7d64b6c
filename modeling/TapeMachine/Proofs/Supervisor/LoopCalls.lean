import TapeMachine.Proofs.Batch.Checked
import TapeMachine.Proofs.Bracket.Matching
import TapeMachine.Proofs.Session.Reachable

/-!
# The calls of the batch loop

The batch loop is called from one place, `Supervisor.batchLoop`, but many times: again after each
stop for growth, and by the batch driver in turn after turn. `Supervisor.LoopCalls`,
`Supervisor.TurnCalls` and `Supervisor.RunCalls` are the calls that are made by the loop with its
follow-up work, by a single turn and by a whole run, which need not come to an end.

What a call needs to stay in bounds is kept between all of them (`Machine.Sound`). So no access is
out of bounds in any call, whether it is made directly or by a session in any state that it can be
in (`Batch.inBounds_of_reachable`). And no call is given a greater budget than was asked for, so a
limit or a batch size of 64 bits makes for budgets of 64 bits (`Supervisor.TurnCalls.word`,
`Supervisor.RunCalls.word`), whatever the limit of a run is.
-/

namespace TapeMachine

/-- A program has one jump per character. -/
theorem Program.size_jumps (p : Program) : p.jumps.size = p.text.size := by
  rw [p.jumps_eq, Bracket.size_spread]

namespace Supervisor

/-! ### Calls -/

/-- While `s.batchLoop remaining` is at work, the loop is called on the state of `u` with the given
budget. -/
inductive LoopCalls :
    (s : Supervisor) → (remaining : Nat) → (u : Supervisor) → (budget : Nat) → Prop
  | now {s : Supervisor} {remaining : Nat} : remaining ≠ 0 → LoopCalls s remaining s remaining
  | resumed {s u : Supervisor} {remaining budget : Nat} {o : Batch.Outcome} : remaining ≠ 0 →
      Batch.run s.machine.program s.batchState remaining = o → o.stop = .growth →
      LoopCalls (s.absorb o).grow (remaining - o.steps) u budget → LoopCalls s remaining u budget

/-- While `s.batchStep limit` is at work, the loop is called on the state of `u` with the given
budget. -/
def TurnCalls (s : Supervisor) (limit : Int) (u : Supervisor) (budget : Nat) : Prop :=
  s.machine.terminated = false ∧ LoopCalls s limit.toNat u budget

/-- While the batch driver is at work, in a run that started at the given step count, the loop is
called on the state of `u` with the given budget. -/
inductive RunCalls (limit : Option Int) (batchSize : Int) (start : Nat) :
    (s : Supervisor) → (u : Supervisor) → (budget : Nat) → Prop
  | turn {s u : Supervisor} {budget : Nat} : s.running = true → s.machine.terminated = false →
      reached? limit (s.machine.stepCount - start) = none →
      s.TurnCalls (batchBudget limit batchSize (s.machine.stepCount - start)) u budget →
      RunCalls limit batchSize start s u budget
  | later {s t u : Supervisor} {budget taken : Nat} {stop : Batch.Stop} : s.running = true →
      s.machine.terminated = false → reached? limit (s.machine.stepCount - start) = none →
      s.batchStep (batchBudget limit batchSize (s.machine.stepCount - start)) =
        ((stop, taken), t) → stop ≠ .finish →
      RunCalls limit batchSize start t.notify u budget → RunCalls limit batchSize start s u budget

/-- A call on a sound machine stays in bounds. -/
theorem inBounds_of_sound {s : Supervisor} (h : s.machine.Sound) (budget : Int) :
    Batch.InBounds s.machine.program s.batchState budget :=
  Batch.inBounds_of_linked s.machine.program.size_jumps h.tape budget

/-- What is taken over from a batch that stopped for growth is sound, and stays so when the arena is
enlarged. -/
theorem sound_grow {s : Supervisor} (h : s.machine.Sound) (remaining : Int) :
    (s.absorb (Batch.run s.machine.program s.batchState remaining)).grow.machine.Sound := by
  obtain ⟨ids, hids⟩ :=
    Batch.exists_linked_loop s.machine.program remaining.toNat s.batchState 0 h.tape
  exact ⟨ids, hids.reserve 1⟩

/-- Every call is made on a sound machine. -/
theorem LoopCalls.sound {s u : Supervisor} {remaining budget : Nat}
    (h : s.LoopCalls remaining u budget) (hs : s.machine.Sound) : u.machine.Sound := by
  induction h with
  | now => exact hs
  | @resumed s u remaining budget o _ hrun _ _ ih =>
      apply ih
      rw [← hrun]
      exact sound_grow hs remaining

/-- Every call of a run is made on a sound machine. -/
theorem RunCalls.sound {limit : Option Int} {batchSize : Int} {start budget : Nat}
    {s u : Supervisor} (h : RunCalls limit batchSize start s u budget) (hs : s.machine.Sound) :
    u.machine.Sound := by
  induction h with
  | turn _ _ _ hcalls => exact hcalls.2.sound hs
  | @later s t u budget taken stop _ _ _ hturn _ _ ih =>
      have hleads := s.batchStep_leads (batchBudget limit batchSize (s.machine.stepCount - start))
      rw [hturn] at hleads
      apply ih
      rw [notify_machine]
      exact hleads.sound hs

/-! ### Budgets -/

/-- A call is given no more than the loop was asked for. -/
theorem LoopCalls.budget_le {s u : Supervisor} {remaining budget : Nat}
    (h : s.LoopCalls remaining u budget) : budget ≤ remaining := by
  induction h with
  | now => exact Nat.le_refl _
  | resumed _ _ _ _ ih => omega

/-- **A turn with a limit of 64 bits calls the loop with budgets of 64 bits.** -/
theorem TurnCalls.word {s u : Supervisor} {limit : Int} {budget : Nat}
    (h : s.TurnCalls limit u budget) (hlimit : Batch.Word limit) : Batch.Word budget := by
  have hle := h.2.budget_le
  unfold Batch.Word at hlimit ⊢
  omega

/-- **A run with batches of 64 bits calls the loop with budgets of 64 bits**, whatever its limit. -/
theorem RunCalls.word {limit : Option Int} {batchSize : Int} {start budget : Nat} {s u : Supervisor}
    (h : RunCalls limit batchSize start s u budget) (hsize : Batch.Word batchSize) :
    Batch.Word budget := by
  induction h with
  | @turn s u budget _ _ _ hcalls =>
      have hle := hcalls.2.budget_le
      have hbatch : batchBudget limit batchSize (s.machine.stepCount - start) ≤ batchSize := by
        unfold batchBudget
        split
        · exact Int.le_refl _
        · exact Int.min_le_left _ _
      unfold Batch.Word at hsize ⊢
      omega
  | later _ _ _ _ _ _ ih => exact ih

end Supervisor

/-! ### Safety -/

/-- **The batch loop never leaves its arrays.** Every access of every iteration is in bounds and
every value that is stored fits a cell, for a program built from any text, on every reachable tape,
from any position and with any budget; and so it is in every call that a turn or a run of the batch
driver makes from any reachable session. -/
theorem Batch.inBounds_of_reachable :
    (∀ (text : List Char) (t : Tape), t.Reachable → ∀ ip budget : Int,
      Batch.InBounds (Program.ofChars text) ⟨ip, t⟩ budget) ∧
    ∀ s : Supervisor, s.Reachable →
      (∀ limit u budget, s.TurnCalls limit u budget →
        Batch.InBounds u.machine.program u.batchState budget) ∧
      ∀ limit batchSize u budget,
        Supervisor.RunCalls limit batchSize s.machine.stepCount { s with running := true } u
          budget →
        Batch.InBounds u.machine.program u.batchState budget := by
  refine ⟨?_, ?_⟩
  · intro text t ht ip budget
    exact inBounds_of_linked (Program.ofChars text).size_jumps ht.linked budget
  · intro s hs
    have hsound := hs.sound
    refine ⟨?_, ?_⟩
    · intro limit u budget hcall
      exact Supervisor.inBounds_of_sound (hcall.2.sound hsound) budget
    · intro limit batchSize u budget hcall
      exact Supervisor.inBounds_of_sound (hcall.sound hsound) budget

/-- A call from far outside a program, and the first calls of a session: one of a turn and one of a
run whose batches are small. -/
theorem Batch.inBounds_of_session :
    Batch.InBounds (Program.ofString ">+[<]") ⟨-5, Tape.blank⟩ 7 ∧
    Supervisor.TurnCalls { machine := Machine.load ">+[<]" } 100 { machine := Machine.load ">+[<]" }
      100 ∧
    Batch.InBounds (Program.ofString ">+[<]") ⟨0, Tape.blank⟩ 100 ∧
    Supervisor.RunCalls (some 5) 3 0 { machine := Machine.load ">+[<]", running := true }
      { machine := Machine.load ">+[<]", running := true } 3 ∧
    Batch.InBounds (Program.ofString ">+[<]") ⟨0, Tape.blank⟩ 3 := by
  have hs : ({ machine := Machine.load ">+[<]" } : Supervisor).Reachable :=
    .start (show Supervisor.ofDatum (.text ">+[<]") none = .ok _ from rfl)
  have hturn : Supervisor.TurnCalls { machine := Machine.load ">+[<]" } 100
      { machine := Machine.load ">+[<]" } 100 := ⟨rfl, .now (by decide)⟩
  have hrun : Supervisor.RunCalls (some 5) 3 0 { machine := Machine.load ">+[<]", running := true }
      { machine := Machine.load ">+[<]", running := true } 3 :=
    .turn rfl rfl rfl ⟨rfl, .now (by decide)⟩
  exact ⟨inBounds_of_reachable.1 _ _ (.ofCells []) (-5) 7,
    hturn, (inBounds_of_reachable.2 _ hs).1 _ _ _ hturn,
    hrun, (inBounds_of_reachable.2 _ hs).2 _ _ _ _ hrun⟩

end TapeMachine
