import TapeMachine.Proofs.Endless.Window
import TapeMachine.Proofs.Machine.CountedRun
import TapeMachine.Proofs.Session.Action

/-!
# Sessions on an endless tape

A machine on an arena that grows mirrors the machine on the endless tape: after a step
(`EndlessMachine.Mirrors.step`), hence after a request that takes a step, adds a cell or writes to
one (`Supervisor.performAtFuel_touch`), hence after any history of such requests
(`Supervisor.Performs.mirrors`).

On the endless tape it does not matter how wide the window is. So cells that are added at the ends
are not noticed by a program, as long as what is done afterwards is the same on the endless tape
(`Supervisor.Unnoticed.of_acts`). That holds for requests which name no cell that was added later
(`Supervisor.session_refines_endless`). It fails for others, since an added cell takes the id that
the next one would have had (`Supervisor.added_cell_takes_next_id`).
-/

namespace TapeMachine

/-! ### Machines -/

/-- The machines agree in all that they share, and the tape of the second is the window of the
first one's. -/
structure EndlessMachine.Mirrors (r : EndlessMachine) (m : Machine) : Prop where
  program : r.program = m.program
  tape : ∃ ids, m.tape.Holds ids r.tape
  ip : r.ip = m.ip
  output : r.output = m.output
  terminated : r.terminated = m.terminated
  stepCount : r.stepCount = m.stepCount

namespace EndlessMachine.Mirrors

variable {r : EndlessMachine} {m : Machine}

/-- Fresh machines agree. -/
theorem load (text : String) : (EndlessMachine.load text).Mirrors (Machine.load text) :=
  ⟨rfl, ⟨_, .blank⟩, rfl, rfl, rfl, rfl⟩

theorem read_eq (h : r.Mirrors m) : r.tape.read = m.tape.read := by
  obtain ⟨ids, hids⟩ := h.tape
  exact hids.read.symm

/-- A command does the same to both tapes. -/
theorem effect (h : r.Mirrors m) (c : Command) :
    ∃ ids, (m.effect c).tape.Holds ids (r.tape.effect c) := by
  obtain ⟨ids, hids⟩ := h.tape
  cases c with
  | increment | decrement =>
      simp only [Endless.effect, ← hids.read]
      exact ⟨ids, hids.write _⟩
  | right => exact hids.moveRight
  | left => exact hids.moveLeft
  | print | opening | closing | comment => exact ⟨ids, hids⟩

/-- A command prints the same on both machines. -/
theorem printed (h : r.Mirrors m) (c : Command) :
    r.output ++ r.tape.printed c = (m.effect c).output := by
  cases c with
  | print =>
      simp only [Endless.printed, Machine.effect, h.output, h.read_eq, Array.append_singleton]
  | _ => simp only [Endless.printed, Machine.effect, h.output, Array.append_empty]

theorem jump?_eq (h : r.Mirrors m) (c : Command) : r.jump? c = m.jump? c := by
  cases c with
  | closing => rw [EndlessMachine.jump?, Machine.jump?, h.read_eq, h.program, h.ip]
  | _ => rfl

/-- The tape of a machine may be exchanged together with that of the other. -/
theorem withTape (h : r.Mirrors m) {t : Tape} {e : Endless} (ht : ∃ ids, t.Holds ids e) :
    ({ r with tape := e } : EndlessMachine).Mirrors { m with tape := t } :=
  ⟨h.program, ht, h.ip, h.output, h.terminated, h.stepCount⟩

/-- **A step keeps the machines in agreement.** -/
theorem step (h : r.Mirrors m) : r.step.Mirrors m.step := by
  have hcommand : r.program.commandAt? r.ip = m.program.commandAt? m.ip := by
    rw [h.program, h.ip]
  rcases hc : m.program.commandAt? m.ip with _ | c
  · rw [EndlessMachine.step_of_outside (hcommand.trans hc),
      Machine.step_of_outside ((m.program.commandAt?_eq_none_iff m.ip).mp hc)]
    exact ⟨h.program, h.tape, h.ip, h.output, rfl, h.stepCount⟩
  have hjump := h.jump?_eq c
  rcases hj : m.jump? c with _ | target
  · rw [EndlessMachine.step_of_fallthrough (hcommand.trans hc) (hjump.trans hj),
      Machine.step_of_fallthrough hc hj]
    have hcounted : ({ r with stepCount := r.stepCount + 1 } : EndlessMachine).Mirrors
        { m with stepCount := m.stepCount + 1 } :=
      ⟨h.program, h.tape, h.ip, h.output, h.terminated, by simp only [h.stepCount]⟩
    refine ⟨?_, hcounted.effect c, ?_, hcounted.printed c, ?_, ?_⟩
    · simp [Machine.advance, h.program]
    · simp [Machine.advance, h.ip]
    · simp [Machine.advance, Machine.inside, h.terminated, h.program, h.ip]
    · simp [Machine.advance, h.stepCount]
  · rw [EndlessMachine.step_of_jump (hcommand.trans hc) (hjump.trans hj),
      Machine.step_of_jump hc hj]
    refine ⟨h.program, h.tape, rfl, h.output, h.terminated, ?_⟩
    simp only [h.stepCount]

end EndlessMachine.Mirrors

/-! ### Requests -/

namespace Supervisor

/-- **A request is answered, and does to the machine what its act does on the endless tape.** -/
theorem performAtFuel_touch {s : Supervisor} {r : EndlessMachine} (h : r.Mirrors s.machine)
    (touch : Touch) (fuel : Nat) :
    ∃ result t, s.performAtFuel fuel touch.request = some (result, t) ∧
      (r.receive touch).Mirrors t.machine := by
  obtain ⟨ids, hids⟩ := h.tape
  cases touch with
  | step => exact ⟨_, _, rfl, h.step⟩
  | insertLeft => exact ⟨_, _, rfl, h.withTape ⟨_, hids.insertLeft⟩⟩
  | insertRight => exact ⟨_, _, rfl, h.withTape ⟨_, hids.insertRight⟩⟩
  | write value => exact ⟨_, _, rfl, h.withTape ⟨_, hids.write value.toCell⟩⟩
  | setValue id value =>
      rcases hposition : r.tape.positionOf? id with _ | x
      · obtain ⟨fault, hlookup⟩ := hids.lookup_of_no_position hposition
        refine ⟨.error fault, s, ?_, ?_⟩
        · simp only [Touch.request, performAtFuel, Tape.perform_setValue, hlookup]
          rfl
        · simp only [EndlessMachine.receive, Touch.act?, hposition]
          exact h
      · obtain ⟨a, hlookup, ha⟩ := hids.lookup_of_position hposition
        refine ⟨.ok .done,
          s.withMachine { s.machine with tape := s.machine.tape.setAt a value.toCell }, ?_, ?_⟩
        · simp only [Touch.request, performAtFuel, Tape.perform_setValue, hlookup]
        · simp only [EndlessMachine.receive, Touch.act?, hposition]
          exact h.withTape ⟨_, hids.setAt ha value.toCell⟩

/-- Requests that are made one after the other lead from one session to another. -/
inductive Performs : Supervisor → List SessionRequest → Supervisor → Prop
  | nil (s : Supervisor) : Performs s [] s
  | request {s u t : Supervisor} {fuel : Nat} {request : SessionRequest}
      {result : Except Fault Reply} {rest : List SessionRequest} :
      s.performAtFuel fuel request = some (result, u) → Performs u rest t →
      Performs s (request :: rest) t

/-- Histories can be put together. -/
theorem Performs.append {s u t : Supervisor} {first second : List SessionRequest}
    (h : Performs s first u) (h' : Performs u second t) : Performs s (first ++ second) t := by
  induction h with
  | nil s => exact h'
  | request hrequest _ ih => exact .request hrequest (ih h')

/-- A history can be gone through, however long it is. -/
theorem exists_performs {s : Supervisor} {r : EndlessMachine} (h : r.Mirrors s.machine)
    (touches : List Touch) : ∃ t, Performs s (touches.map Touch.request) t := by
  induction touches generalizing s r with
  | nil => exact ⟨s, .nil s⟩
  | cons touch touches ih =>
      obtain ⟨result, u, hrequest, hu⟩ := performAtFuel_touch h touch 0
      obtain ⟨t, ht⟩ := ih hu
      exact ⟨t, .request hrequest ht⟩

/-- **After a whole history the machines still agree.** -/
theorem Performs.mirrors {s t : Supervisor} {r : EndlessMachine} {touches : List Touch}
    (h : Performs s (touches.map Touch.request) t) (hr : r.Mirrors s.machine) :
    (r.after (r.acts touches)).Mirrors t.machine := by
  induction touches generalizing s r with
  | nil =>
      cases h
      exact hr
  | cons touch touches ih =>
      cases h with
      | @request _ u _ fuel _ result _ hrequest hrest =>
          obtain ⟨result', u', hrequest', hu'⟩ := performAtFuel_touch hr touch fuel
          rw [hrequest] at hrequest'
          cases hrequest'
          rw [EndlessMachine.after_acts_cons]
          exact ih hrest hu'

/-! ### Added cells -/

/-- A program cannot tell the sessions apart: they agree in the instruction pointer, the output, the
mark of termination and the step count. -/
structure Unnoticed (s s' : Supervisor) : Prop where
  ip : s.machine.ip = s'.machine.ip
  output : s.machine.output = s'.machine.output
  terminated : s.machine.terminated = s'.machine.terminated
  stepCount : s.machine.stepCount = s'.machine.stepCount

/-- Histories that amount to the same acts on the endless tape, widenings apart, lead to sessions
that a program cannot tell apart. -/
theorem Unnoticed.of_acts {s t t' : Supervisor} {r : EndlessMachine} {touches touches' : List Touch}
    (hr : r.Mirrors s.machine) (h : Performs s (touches.map Touch.request) t)
    (h' : Performs s (touches'.map Touch.request) t')
    (hacts : (r.acts touches).filter EndlessMachine.Act.counts =
      (r.acts touches').filter EndlessMachine.Act.counts) : Unnoticed t t' := by
  have hmirrors := h.mirrors hr
  have hmirrors' := h'.mirrors hr
  have halike := EndlessMachine.Alike.after r hacts
  refine ⟨?_, ?_, ?_, ?_⟩
  · rw [← hmirrors.ip, halike.ip, hmirrors'.ip]
  · rw [← hmirrors.output, halike.output, hmirrors'.output]
  · rw [← hmirrors.terminated, halike.terminated, hmirrors'.terminated]
  · rw [← hmirrors.stepCount, halike.stepCount, hmirrors'.stepCount]

/-- **Added cells are not noticed**, if no request names a cell that was not there before. -/
theorem Unnoticed.of_below {s t t' : Supervisor} {r : EndlessMachine}
    {touches touches' : List Touch} (hr : r.Mirrors s.machine)
    (h : Performs s (touches.map Touch.request) t)
    (h' : Performs s (touches'.map Touch.request) t')
    (hsame : touches.filter Touch.counts = touches'.filter Touch.counts)
    (hbelow : ∀ touch ∈ touches, touch.Below s.machine.tape.size) : Unnoticed t t' := by
  obtain ⟨ids, hids⟩ := hr.tape
  rw [← hids.length_entered] at hbelow
  -- requests for cells name none, and the other requests are the same in both histories
  have hbelow' : ∀ touch ∈ touches', touch.Below r.tape.entered.length := by
    intro touch htouch
    by_cases hcounts : touch.counts = true
    · have hmem := List.mem_filter.mpr ⟨htouch, hcounts⟩
      rw [← hsame] at hmem
      exact hbelow touch (List.mem_filter.mp hmem).1
    · cases touch with
      | insertLeft | insertRight => trivial
      | _ => exact absurd rfl hcounts
  apply Unnoticed.of_acts hr h h'
  rw [EndlessMachine.filter_counts_acts List.prefix_rfl hbelow,
    EndlessMachine.filter_counts_acts List.prefix_rfl hbelow', hsame]

/-- **An arena that grows is an endless tape.** Whatever the program, and however steps, cells added
at the ends and writes to cells are mixed, from a fresh session on:

* the session answers every request, and what it then shows is the window of the endless tape, with
  nothing but zeros around it, while instruction pointer, output, mark of termination and step count
  are those of the machine on the endless tape;
* of two histories that do the same to the endless tape but for cells added at the ends, a program
  notices no difference;
* and so it is with the same requests before and after, but for cells added at the ends, if the
  later ones name by id no other cells than those that were there at the time.
-/
theorem session_refines_endless (text : String) (watch : Option (Nat → Bool)) :
    (∀ touches : List Touch, ∃ s,
      Performs { machine := Machine.load text, watch := watch } (touches.map Touch.request) s) ∧
    (∀ (touches : List Touch) (s : Supervisor) (r : EndlessMachine),
      Performs { machine := Machine.load text, watch := watch } (touches.map Touch.request) s →
      r = (EndlessMachine.load text).after ((EndlessMachine.load text).acts touches) →
      s.machine.tape.snapshot = r.tape.snapshot ∧
      (∀ x, x < r.tape.lo ∨ r.tape.hi < x → r.tape.cells x = 0) ∧
      (r.tape.lo ≤ r.tape.head ∧ r.tape.head ≤ r.tape.hi) ∧
      s.machine.ip = r.ip ∧ s.machine.output = r.output ∧
      s.machine.terminated = r.terminated ∧ s.machine.stepCount = r.stepCount) ∧
    (∀ (touches touches' : List Touch) (s s' : Supervisor),
      Performs { machine := Machine.load text, watch := watch } (touches.map Touch.request) s →
      Performs { machine := Machine.load text, watch := watch } (touches'.map Touch.request) s' →
      ((EndlessMachine.load text).acts touches).filter EndlessMachine.Act.counts =
        ((EndlessMachine.load text).acts touches').filter EndlessMachine.Act.counts →
      s.machine.ip = s'.machine.ip ∧ s.machine.output = s'.machine.output ∧
      s.machine.terminated = s'.machine.terminated ∧
      s.machine.stepCount = s'.machine.stepCount) ∧
    (∀ (before after after' : List Touch) (u s s' : Supervisor),
      Performs { machine := Machine.load text, watch := watch } (before.map Touch.request) u →
      Performs u (after.map Touch.request) s → Performs u (after'.map Touch.request) s' →
      after.filter Touch.counts = after'.filter Touch.counts →
      (∀ touch ∈ after, touch.Below u.machine.tape.size) →
      s.machine.ip = s'.machine.ip ∧ s.machine.output = s'.machine.output ∧
      s.machine.terminated = s'.machine.terminated ∧
      s.machine.stepCount = s'.machine.stepCount) := by
  have hstart := EndlessMachine.Mirrors.load text
  refine ⟨?_, ?_, ?_, ?_⟩
  · intro touches
    exact exists_performs hstart touches
  · rintro touches s r hs rfl
    have hmirrors := hs.mirrors hstart
    obtain ⟨ids, hids⟩ := hmirrors.tape
    exact ⟨hids.snapshot_eq, hids.outside, hids.within hids.head, hmirrors.ip.symm,
      hmirrors.output.symm, hmirrors.terminated.symm, hmirrors.stepCount.symm⟩
  · intro touches touches' s s' hs hs' hacts
    have hsame := Unnoticed.of_acts hstart hs hs' hacts
    exact ⟨hsame.ip, hsame.output, hsame.terminated, hsame.stepCount⟩
  · intro before after after' u s s' hu hs hs' hfilter hbelow
    have hsame := Unnoticed.of_below (hu.mirrors hstart) hs hs' hfilter hbelow
    exact ⟨hsame.ip, hsame.output, hsame.terminated, hsame.stepCount⟩

/-- The same steps and writes with and without cells that are added in between. One of the writes
names by id the cell that the first step has added. -/
theorem session_refines_endless_around_growth :
    ∃ u s s' : Supervisor,
      Performs { machine := Machine.load "<+>-." } ([.step].map Touch.request) u ∧
      Performs u
        ([.insertRight, .setValue (.int 1) (.int 7), .insertLeft, .step, .step, .write (.int (-1)),
          .step, .step].map Touch.request) s ∧
      Performs u
        ([.setValue (.int 1) (.int 7), .step, .step, .write (.int (-1)), .step,
          .step].map Touch.request) s' ∧
      s.machine.tape.snapshot = [(0, false), (8, false), (-2, true), (0, false)] ∧
      s'.machine.tape.snapshot = [(8, false), (-2, true)] ∧
      s.machine.ip = s'.machine.ip ∧ s.machine.output = s'.machine.output ∧
      s.machine.stepCount = s'.machine.stepCount := by
  obtain ⟨hanswers, hshows, hacts, hrequests⟩ := session_refines_endless "<+>-." none
  obtain ⟨u, hu⟩ := hanswers [.step]
  have hmirrors := hu.mirrors (.load "<+>-.")
  obtain ⟨s, hs⟩ := exists_performs hmirrors [.insertRight, .setValue (.int 1) (.int 7),
    .insertLeft, .step, .step, .write (.int (-1)), .step, .step]
  obtain ⟨s', hs'⟩ := exists_performs hmirrors [.setValue (.int 1) (.int 7), .step, .step,
    .write (.int (-1)), .step, .step]
  have hwhole := hu.append hs
  have hwhole' := hu.append hs'
  rw [← List.map_append] at hwhole hwhole'
  have hsize : u.machine.tape.size = 2 := by
    obtain ⟨ids, hids⟩ := hmirrors.tape
    rw [← hids.length_entered]
    decide +kernel
  obtain ⟨-, houtput, -, hcount⟩ := hrequests _ _ _ u s s' hu hs hs' rfl
    (by simp [Touch.Below, Datum.toInt, hsize])
  refine ⟨u, s, s', hu, hs, hs', ?_, ?_, (hacts _ _ s s' hwhole hwhole' (by decide +kernel)).1,
    houtput, hcount⟩
  · rw [(hshows _ s _ hwhole rfl).1]
    decide +kernel
  · rw [(hshows _ s' _ hwhole' rfl).1]
    decide +kernel

/-- **An added cell takes the next id.** A write to the cell that the first step adds goes to
another cell if one was added before, and then the program prints something else. -/
theorem added_cell_takes_next_id :
    ∃ s s' : Supervisor,
      Performs { machine := Machine.load ">." }
        ([.step, .setValue (.int 1) (.int 65), .step].map Touch.request) s ∧
      Performs { machine := Machine.load ">." }
        ([.insertLeft, .step, .setValue (.int 1) (.int 65), .step].map Touch.request) s' ∧
      s.machine.output = #["A"] ∧ s'.machine.output = #["<NUL>"] := by
  have hstart := EndlessMachine.Mirrors.load ">."
  obtain ⟨s, hs⟩ := exists_performs (s := { machine := Machine.load ">." }) hstart
    [.step, .setValue (.int 1) (.int 65), .step]
  obtain ⟨s', hs'⟩ := exists_performs (s := { machine := Machine.load ">." }) hstart
    [.insertLeft, .step, .setValue (.int 1) (.int 65), .step]
  refine ⟨s, s', hs, hs', ?_, ?_⟩
  · rw [← (hs.mirrors hstart).output]
    decide +kernel
  · rw [← (hs'.mirrors hstart).output]
    decide +kernel

end Supervisor

end TapeMachine
