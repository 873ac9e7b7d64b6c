import TapeMachine.Proofs.Endless.Refinement
import TapeMachine.Proofs.Machine.Reflection
import TapeMachine.Proofs.Session.Reachable

/-!
# Reflected sessions

Two sessions are held side by side: one with a program, the other with the program in which the two
moves are exchanged. The first is asked to take steps, in batches or one by one, and to add cells at
either end; the second is asked for the same with the ends exchanged. A request to the second does
what the reflected request does to the first, and gets the same reply
(`Supervisor.performAtFuel_reflect`). Hence after any history each is the reflection of the other
(`Supervisor.Performs.eq_reflect`), and `Supervisor.reflected_session` lists what this means for all
that can be seen of the two.
-/

namespace TapeMachine

/-! ### Supervisors -/

namespace Supervisor

/-- The supervisor with left and right exchanged. What its watch has seen does not change. -/
def reflect (s : Supervisor) : Supervisor :=
  s.withMachine s.machine.reflect

variable (s : Supervisor)

theorem withTape_reflect (t : Tape) :
    s.reflect.withMachine { s.reflect.machine with tape := t.reflect } =
      (s.withMachine { s.machine with tape := t }).reflect :=
  rfl

theorem notify_reflect : s.reflect.notify = s.notify.reflect := by
  obtain ⟨machine, running, watch, visited, log⟩ := s
  cases watch <;> rfl

theorem step_reflect : s.reflect.step = s.step.reflect := by
  have hmachine : ({ s.reflect with machine := s.reflect.machine.step } : Supervisor) =
      reflect { s with machine := s.machine.step } := by
    show s.withMachine s.machine.reflect.step = s.withMachine s.machine.step.reflect
    rw [Machine.step_reflect]
  rw [step, hmachine, notify_reflect, step]

theorem absorb_reflect (o : Batch.Outcome) : s.reflect.absorb o.reflect = (s.absorb o).reflect :=
  rfl

theorem grow_reflect : s.reflect.grow = s.grow.reflect := by
  have hreserve : s.reflect.machine.tape.reserve 1 = (s.machine.tape.reserve 1).reflect :=
    s.machine.tape.reserve_reflect 1
  simp only [grow, hreserve, Tape.capacity_reflect]
  rfl

/-- What follows a batch that has left `o` behind, by the reason for which it has stopped. -/
def afterBatch (remaining taken : Nat) (o : Batch.Outcome) :
    Batch.Stop → (Batch.Stop × Nat) × Supervisor
  | .growth => batchLoop (s.absorb o).grow (remaining - o.steps) (taken + o.steps)
  | .output =>
    let m := (s.absorb o).machine.step
    ((if m.terminated then .finish else .output, taken + o.steps + 1), (s.absorb o).withMachine m)
  | .finish => ((.finish, taken + o.steps), (s.absorb o).terminate)
  | .budget => ((.budget, taken + o.steps), s.absorb o)

/-- One turn of the batch loop: a batch and what follows it. -/
theorem batchLoop_eq {remaining : Nat} (h : remaining ≠ 0) (taken : Nat) {o : Batch.Outcome}
    {stop : Batch.Stop} (ho : Batch.run s.machine.program s.batchState remaining = o)
    (hstop : o.stop = stop) :
    s.batchLoop remaining taken = s.afterBatch remaining taken o stop := by
  subst ho hstop
  fun_cases batchLoop s remaining taken with
  | case1 hzero => exact absurd hzero h
  | case2 _ o hstop | case3 _ o hstop | case4 _ o hstop | case5 _ o hstop =>
      simp only [o] at hstop ⊢
      rw [hstop]
      rfl

/-- The batch loop with its follow-up work stops for the same reason and after as many steps, and
leaves the reflected supervisor. -/
theorem batchLoop_reflect (remaining taken : Nat) :
    s.reflect.batchLoop remaining taken =
      ((s.batchLoop remaining taken).1, (s.batchLoop remaining taken).2.reflect) := by
  have hrun (s : Supervisor) (budget : Nat) :
      Batch.run s.reflect.machine.program s.reflect.batchState budget =
        (Batch.run s.machine.program s.batchState budget).reflect :=
    Batch.run_reflect s.machine.program s.batchState budget
  fun_induction batchLoop s remaining taken with
  | case1 s taken => rw [batchLoop, if_pos rfl]
  | case2 s remaining taken hremaining o hstop ih =>
      rw [batchLoop_eq _ hremaining _ (hrun s remaining) hstop, ← ih, ← grow_reflect,
        ← absorb_reflect]
      rfl
  | case3 s remaining taken hremaining o hstop absorbed stepped =>
      have hstep : (s.reflect.absorb o.reflect).machine.step = stepped.machine.reflect :=
        absorbed.machine.step_reflect
      have ho : Batch.run s.reflect.machine.program s.reflect.batchState remaining = o.reflect :=
        hrun s remaining
      rw [batchLoop_eq _ hremaining _ ho hstop]
      simp only [afterBatch, hstep]
      rfl
  | case4 s remaining taken hremaining o hstop =>
      rw [batchLoop_eq _ hremaining _ (hrun s remaining) hstop]
      rfl
  | case5 s remaining taken hremaining o hstop =>
      rw [batchLoop_eq _ hremaining _ (hrun s remaining) hstop]
      rfl

/-- A batch with its follow-up work on the reflected supervisor. -/
theorem batchStep_reflect (limit : Int) :
    s.reflect.batchStep limit = ((s.batchStep limit).1, (s.batchStep limit).2.reflect) := by
  have hterminated : s.reflect.machine.terminated = s.machine.terminated := rfl
  unfold batchStep
  rw [hterminated]
  split_ifs
  · rfl
  · exact s.batchLoop_reflect limit.toNat 0

end Supervisor

/-! ### Requests -/

/-- A request to a session to take steps or to add a cell at an end. -/
inductive Stride where
  | step
  /-- A step that the watch sees. -/
  | watchedStep
  /-- Steps that are left to the batch loop, up to a limit. -/
  | batchStep (limit : Int)
  | insertLeft
  | insertRight

namespace Stride

def request : Stride → SessionRequest
  | .step => .step
  | .watchedStep => .watchedStep
  | .batchStep limit => .batchStep limit
  | .insertLeft => .tape .insertLeft
  | .insertRight => .tape .insertRight

/-- The request with the two ends exchanged. -/
def reflect : Stride → Stride
  | .insertLeft => .insertRight
  | .insertRight => .insertLeft
  | stride => stride

end Stride

namespace Supervisor

/-- **A reflected request to a reflected session** gets the same reply, and leaves the reflected
session. Like the request itself it is answered whatever the fuel is. -/
theorem performAtFuel_reflect (s : Supervisor) (stride : Stride) :
    ∃ result t, ∀ fuel, s.performAtFuel fuel stride.request = some (result, t) ∧
      s.reflect.performAtFuel fuel stride.reflect.request = some (result, t.reflect) := by
  cases stride with
  | step =>
      refine ⟨_, _, fun fuel => ⟨rfl, ?_⟩⟩
      show some (_, s.withMachine s.machine.reflect.step) = _
      rw [Machine.step_reflect]
      rfl
  | watchedStep =>
      refine ⟨_, _, fun fuel => ⟨rfl, ?_⟩⟩
      show some (Except.ok (Reply.flag !s.reflect.step.machine.terminated), s.reflect.step) = _
      rw [step_reflect]
      rfl
  | batchStep limit =>
      refine ⟨.ok (.stopped (s.batchStep limit).1.1 (s.batchStep limit).1.2),
        (s.batchStep limit).2, fun fuel => ⟨rfl, ?_⟩⟩
      simp only [Stride.reflect, Stride.request, performAtFuel, batchStep_reflect]
  | insertLeft =>
      refine ⟨_, _, fun fuel => ⟨rfl, ?_⟩⟩
      rw [← withTape_reflect, ← Tape.insertRight_reflect]
      rfl
  | insertRight =>
      refine ⟨_, _, fun fuel => ⟨rfl, ?_⟩⟩
      rw [← withTape_reflect, ← Tape.insertLeft_reflect]
      rfl

/-- A history of requests can be gone through. -/
theorem exists_performs_strides (s : Supervisor) (strides : List Stride) :
    ∃ t, Performs s (strides.map Stride.request) t := by
  induction strides generalizing s with
  | nil => exact ⟨s, .nil s⟩
  | cons stride strides ih =>
      obtain ⟨result, u, hrequest⟩ := s.performAtFuel_reflect stride
      obtain ⟨t, ht⟩ := ih u
      exact ⟨t, .request (hrequest 0).1 ht⟩

/-- **After the reflected history the session is reflected.** -/
theorem Performs.eq_reflect {s t t' : Supervisor} {strides : List Stride}
    (h : Performs s (strides.map Stride.request) t)
    (h' : Performs s.reflect ((strides.map Stride.reflect).map Stride.request) t') :
    t' = t.reflect := by
  induction strides generalizing s with
  | nil =>
      cases h
      cases h'
      rfl
  | cons stride strides ih =>
      obtain ⟨result, u, hrequest⟩ := s.performAtFuel_reflect stride
      cases h with
      | @request _ v _ fuel _ _ _ hv hrest =>
          cases h' with
          | @request _ v' _ fuel' _ _ _ hv' hrest' =>
              rw [(hrequest fuel).1] at hv
              rw [(hrequest fuel').2] at hv'
              cases hv
              cases hv'
              exact ih hrest hrest'

/-- The machine of a session stays sound through a history of requests. -/
theorem Performs.sound {s t : Supervisor} {requests : List SessionRequest}
    (h : Performs s requests t) (hs : s.machine.Sound) : t.machine.Sound := by
  induction h with
  | nil => exact hs
  | request hrequest _ ih => exact ih ((performAtFuel_changes hrequest).sound hs)

/-- **Left and right can be exchanged.** Take any program, and the program with `<` and `>`
exchanged. From fresh sessions on, ask for steps, in batches or one by one, and for cells at either
end, in any order, and ask the second session for the same with the ends exchanged. Then both
answer every request, and afterwards the second session has

* the same instruction pointer, mark of termination, step count and output;
* the same head, number of cells, number of slots and values;
* the links to the left and to the right exchanged, the two ends exchanged, and the cells in the
  reverse order.
-/
theorem reflected_session (text : String) (watch : Option (Nat → Bool)) (strides : List Stride) :
    let start : Supervisor := { machine := Machine.load text, watch := watch }
    let start' : Supervisor :=
      { machine := Machine.load (text.map Command.reflectChar), watch := watch }
    let requests := strides.map Stride.request
    let requests' := (strides.map Stride.reflect).map Stride.request
    (∃ s, Performs start requests s) ∧ (∃ s', Performs start' requests' s') ∧
    ∀ s s', Performs start requests s → Performs start' requests' s' →
      s'.machine.ip = s.machine.ip ∧ s'.machine.terminated = s.machine.terminated ∧
      s'.machine.stepCount = s.machine.stepCount ∧ s'.machine.output = s.machine.output ∧
      s'.machine.tape.current = s.machine.tape.current ∧
      s'.machine.tape.size = s.machine.tape.size ∧
      s'.machine.tape.capacity = s.machine.tape.capacity ∧
      s'.machine.tape.values = s.machine.tape.values ∧
      s'.machine.tape.lefts = s.machine.tape.rights ∧
      s'.machine.tape.rights = s.machine.tape.lefts ∧
      s'.machine.tape.leftmost = s.machine.tape.rightmost ∧
      s'.machine.tape.rightmost = s.machine.tape.leftmost ∧
      s'.machine.tape.order = s.machine.tape.order.reverse := by
  intro start start' requests requests'
  have hstart : start' = start.reflect := by
    show ({ machine := _, watch := watch } : Supervisor) = _
    rw [Machine.load_reflect]
    rfl
  refine ⟨start.exists_performs_strides strides,
    start'.exists_performs_strides (strides.map Stride.reflect), ?_⟩
  intro s s' hs hs'
  rw [hstart] at hs'
  obtain rfl := hs.eq_reflect hs'
  have hsound : start.machine.Sound := ⟨Tape.exists_linked_ofCells []⟩
  obtain ⟨ids, hids⟩ := (hs.sound hsound).tape
  obtain ⟨hvalues, hlefts, hrights⟩ := s.machine.tape.columns_reflect
  exact ⟨rfl, rfl, rfl, rfl, rfl, rfl, s.machine.tape.capacity_reflect, hvalues, hlefts, hrights,
    rfl, rfl, hids.order_reflect⟩

/-- A program that runs to the left, with a cell added at the right end between two batches. -/
theorem reflected_session_to_the_left :
    ∃ s s' : Supervisor,
      Performs { machine := Machine.load ">+[>+]" }
        ([.batchStep 40, .insertLeft, .step, .batchStep 30].map Stride.request) s ∧
      Performs { machine := Machine.load "<+[<+]" }
        ([.batchStep 40, .insertRight, .step, .batchStep 30].map Stride.request) s' ∧
      s'.machine.stepCount = s.machine.stepCount ∧
      s'.machine.tape.lefts = s.machine.tape.rights ∧
      s'.machine.tape.order = s.machine.tape.order.reverse := by
  have htext : ">+[>+]".map Command.reflectChar = "<+[<+]" := by decide +kernel
  obtain ⟨⟨s, hs⟩, ⟨s', hs'⟩, hreflected⟩ :=
    reflected_session ">+[>+]" none [.batchStep 40, .insertLeft, .step, .batchStep 30]
  obtain ⟨-, -, hcount, -, -, -, -, -, hlefts, -, -, -, horder⟩ := hreflected s s' hs hs'
  rw [htext] at hs'
  exact ⟨s, s', hs, hs', hcount, hlefts, horder⟩

end Supervisor

end TapeMachine
