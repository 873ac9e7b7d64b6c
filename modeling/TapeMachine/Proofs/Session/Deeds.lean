import TapeMachine.Proofs.Batch.Stopping
import TapeMachine.Proofs.Session.Reachable
import TapeMachine.Proofs.Tape.Identity

/-!
# What requests, steps and batches do to a tape

Everything that can be asked of a tape, short of replacing it, comes down to deeds. A request to the
tape is a deed or none (`Tape.does_of_perform`); a step of a machine does what its command says
(`Machine.does_deeds`); and whatever drives a machine, with or without batches, does what as many
commands do as it has counted (`Machine.Leads.does`). `Tape.Becomes` puts these together, in any
order, and `Tape.Becomes.does` is the history of deeds that is behind it.

So all that is known about deeds holds of sessions: cells keep their identity
(`Tape.cells_keep_identity`).
-/

namespace TapeMachine

/-! ### The deeds -/

/-- Whether a request replaces the tape. -/
def TapeRequest.Rebuilds : TapeRequest → Prop
  | .refill _ => True
  | _ => False

/-- Whether a request to a session replaces the tape. -/
def SessionRequest.Rebuilds : SessionRequest → Prop
  | .reset | .loadOpcodes _ => True
  | .tape request => request.Rebuilds
  | _ => False

/-- What a request does to a tape that it does not replace. -/
def TapeRequest.deeds (t : Tape) : TapeRequest → List Tape.Deed
  | .moveRight => [.right]
  | .moveLeft => [.left]
  | .increment => [.set t.current (t.read + 1)]
  | .decrement => [.set t.current (t.read - 1)]
  | .write value => [.set t.current value.toCell]
  | .setValue id value =>
    match t.lookup id with
    | .ok id => [.set id value.toCell]
    | .error _ => []
  | .insertLeft => [.insertLeft]
  | .insertRight => [.insertRight]
  | .reserve extra => [.reserve extra]
  | .read | .valueOf _ | .refill _ | .order | .snapshot | .values | .size | .render => []

/-- What a command does to a tape. -/
def Command.deeds (t : Tape) : Command → List Tape.Deed
  | .increment => [.set t.current (t.read + 1)]
  | .decrement => [.set t.current (t.read - 1)]
  | .right => [.right]
  | .left => [.left]
  | .print | .opening | .closing | .comment => []

/-- What the next steps of a machine do to its tape. -/
def Machine.deeds (m : Machine) : Nat → List Tape.Deed
  | 0 => []
  | count + 1 =>
    (m.program.commandAt? m.ip).elim [] (Command.deeds m.tape) ++ m.step.deeds count

/-- What a request does to the tape of a session that it leads from one state to another. If it is
not for the tape itself, these are the deeds of the commands that have been counted. -/
def SessionRequest.deeds (s s' : Supervisor) : SessionRequest → List Tape.Deed
  | .tape request => request.deeds s.machine.tape
  | _ => s.machine.deeds (s'.machine.stepCount - s.machine.stepCount)

/-- The later tapes that requests to the tape, requests to a session it belongs to, and batches on
it can lead to, in any order, and what has been done to it. None of them replaces the tape. -/
inductive Tape.Becomes (t : Tape) : List Tape.Deed → Tape → Prop
  | same : Becomes t [] t
  | request {u u' : Tape} {deeds : List Tape.Deed} {request : TapeRequest}
      {result : Except Fault Reply} :
      Becomes t deeds u → u.perform request = (result, u') → ¬ request.Rebuilds →
      Becomes t (deeds ++ request.deeds u) u'
  | session {s s' : Supervisor} {deeds : List Tape.Deed} {fuel : Nat} {request : SessionRequest}
      {result : Except Fault Reply} : Becomes t deeds s.machine.tape →
      s.performAtFuel fuel request = some (result, s') → ¬ request.Rebuilds →
      Becomes t (deeds ++ request.deeds s s') s'.machine.tape
  | batch {u : Tape} {deeds : List Tape.Deed} {text : List Char} {ip limit : Int}
      {o : Batch.Outcome} : Becomes t deeds u →
      Batch.run (Program.ofChars text) ⟨ip, u⟩ limit = o →
      Becomes t (deeds ++ ({ program := Program.ofChars text, tape := u, ip := ip } : Machine).deeds
        o.steps) o.state.tape

/-! ### They are what happens -/

section
open Tape

variable {t u : Tape} {m m' : Machine} {deeds : List Deed}

/-- A cell that the head is on can be written to. -/
theorem Tape.Linked.does_set_current {ids : List Nat} (h : t.Linked ids) (v : Cell) :
    Does t [.set t.current v] (t.write v) := by
  refine .single fun id hid => ?_
  cases hid
  exact h.onCell

/-- A request to a tape does its deeds; if it is refused, there are none. -/
theorem Tape.does_of_perform {ids : List Nat} {request : TapeRequest} {result : Except Fault Reply}
    (h : t.Linked ids) (hrebuilds : ¬ request.Rebuilds)
    (hrequest : t.perform request = (result, u)) : Does t (request.deeds t) u := by
  cases request with
  | moveRight | moveLeft | insertLeft | insertRight | reserve _ =>
      cases hrequest
      exact .single fun _ hid => nomatch hid
  | increment | decrement | write _ =>
      cases hrequest
      exact h.does_set_current _
  | setValue id value =>
      rw [perform_setValue] at hrequest
      rcases hlookup : t.lookup id with fault | n
      · rw [hlookup] at hrequest
        cases hrequest
        simp only [TapeRequest.deeds, hlookup]
        exact .nil t
      · rw [hlookup] at hrequest
        cases hrequest
        simp only [TapeRequest.deeds, hlookup]
        refine .single fun id' hid => ?_
        cases hid
        exact lookup_lt hlookup
  | valueOf id =>
      rw [perform_valueOf] at hrequest
      cases hrequest
      exact .nil t
  | refill values => exact absurd trivial hrebuilds
  | read | order | snapshot | values | size | render =>
      cases hrequest
      exact .nil t

/-- A command does its deeds. -/
theorem Machine.does_effect {ids : List Nat} (h : m.tape.Linked ids) (c : Command) :
    Does m.tape (c.deeds m.tape) (m.effect c).tape := by
  cases c with
  | increment | decrement => exact h.does_set_current _
  | right | left => exact .single fun _ hid => nomatch hid
  | print | opening | closing | comment => exact .nil _

/-- A step does the deeds of its command. -/
theorem Machine.does_step {ids : List Nat} (h : m.tape.Linked ids) :
    Does m.tape ((m.program.commandAt? m.ip).elim [] (Command.deeds m.tape)) m.step.tape := by
  rcases hc : m.program.commandAt? m.ip with _ | c
  · rw [step_of_outside ((m.program.commandAt?_eq_none_iff m.ip).mp hc)]
    exact .nil _
  rcases hj : m.jump? c with _ | target
  · rw [step_of_fallthrough hc hj]
    exact does_effect (m := { m with stepCount := m.stepCount + 1 }) h c
  · rw [step_of_jump hc hj]
    cases c with
    | closing => exact .nil _
    | _ => cases hj

/-- Any number of steps does the deeds of its commands. -/
theorem Machine.does_deeds (hm : ∃ ids, m.tape.Linked ids) (count : Nat) :
    Does m.tape (m.deeds count) (Machine.step^[count] m).tape := by
  induction count generalizing m with
  | zero => exact .nil _
  | succ count ih =>
      obtain ⟨ids, hids⟩ := hm
      rw [Function.iterate_succ_apply]
      exact (does_step hids).append (ih (m.step_edits.linked ⟨ids, hids⟩))

/-- Outside the program nothing is counted and the tape stays. -/
theorem Machine.Leads.of_outside (h : m.Leads m') (hout : m.inside = false) :
    m'.tape = m.tape ∧ m'.stepCount = m.stepCount := by
  obtain ⟨k, rfl⟩ := h
  induction k generalizing m with
  | zero => exact ⟨rfl, rfl⟩
  | succ k ih =>
      rw [Function.iterate_succ_apply, step_of_outside hout]
      exact ih (m := { m with terminated := true }) hout

/-- As many steps as have been counted lead to the same tape: the others have found nothing to
execute. -/
theorem Machine.tape_iterate_counted (m : Machine) (k : Nat) :
    (Machine.step^[(Machine.step^[k] m).stepCount - m.stepCount] m).tape =
      (Machine.step^[k] m).tape := by
  induction k generalizing m with
  | zero => simp
  | succ k ih =>
      by_cases hin : m.inside = true
      · have hcount := stepCount_step_of_inside hin
        have hle : m.step.stepCount ≤ (Machine.step^[k] m.step).stepCount :=
          Leads.stepCount_le ⟨k, rfl⟩
        have hsplit : (Machine.step^[k] m.step).stepCount - m.stepCount =
            (Machine.step^[k] m.step).stepCount - m.step.stepCount + 1 := by omega
        rw [Function.iterate_succ_apply, hsplit, Function.iterate_succ_apply, ih m.step]
      · have hleads : m.Leads (Machine.step^[k + 1] m) := ⟨k + 1, rfl⟩
        obtain ⟨htape, hcount⟩ := hleads.of_outside (Bool.eq_false_iff.mpr hin)
        rw [hcount, Nat.sub_self, htape]
        rfl

/-- **Whatever drives a machine does the deeds of the commands that it counts.** -/
theorem Machine.Leads.does (h : m.Leads m') (hm : ∃ ids, m.tape.Linked ids) :
    Does m.tape (m.deeds (m'.stepCount - m.stepCount)) m'.tape := by
  obtain ⟨k, rfl⟩ := h
  rw [← tape_iterate_counted m k]
  exact does_deeds hm _

/-- A request to a session does its deeds. -/
theorem Supervisor.does_of_performAtFuel {s s' : Supervisor} {fuel : Nat}
    {request : SessionRequest} {result : Except Fault Reply}
    (hs : ∃ ids, s.machine.tape.Linked ids) (hrebuilds : ¬ request.Rebuilds)
    (h : s.performAtFuel fuel request = some (result, s')) :
    Does s.machine.tape (request.deeds s s') s'.machine.tape := by
  cases request with
  | reset | loadOpcodes _ => exact absurd trivial hrebuilds
  | setIp ip =>
      cases h
      simp only [SessionRequest.deeds, withMachine, Nat.sub_self]
      exact .nil _
  | tape request =>
      obtain ⟨ids, hids⟩ := hs
      cases h
      exact does_of_perform hids hrebuilds rfl
  | _ => exact (performAtFuel_leads h trivial).does hs

/-- A batch does the deeds of the commands that it counts. -/
theorem Batch.does_run {text : List Char} (ip limit : Int) (ht : ∃ ids, t.Linked ids) :
    Does t (({ program := Program.ofChars text, tape := t, ip := ip } : Machine).deeds
        (Batch.run (Program.ofChars text) ⟨ip, t⟩ limit).steps)
      (Batch.run (Program.ofChars text) ⟨ip, t⟩ limit).state.tape := by
  let m : Machine := { program := Program.ofChars text, tape := t, ip := ip }
  obtain ⟨k, stop, -, hloop⟩ := loop_halts m limit.toNat 0
  have hrun : Batch.run (Program.ofChars text) ⟨ip, t⟩ limit =
      ⟨⟨(Machine.step^[k] m).ip, (Machine.step^[k] m).tape⟩, stop, k⟩ := by
    rw [Nat.zero_add] at hloop
    exact hloop
  rw [hrun]
  exact Machine.does_deeds (m := m) ht k

/-- **Every history comes down to deeds.** -/
theorem Tape.Becomes.does (h : t.Becomes deeds u) (ht : ∃ ids, t.Linked ids) :
    Does t deeds u := by
  induction h with
  | same => exact .nil t
  | request _ hrequest hrebuilds ih =>
      obtain ⟨ids, hids⟩ := (ih.keeps ht).1
      exact ih.append (does_of_perform hids hrebuilds hrequest)
  | session _ hrequest hrebuilds ih =>
      exact ih.append (Supervisor.does_of_performAtFuel (ih.keeps ht).1 hrebuilds hrequest)
  | batch _ hrun ih =>
      subst hrun
      exact ih.append (Batch.does_run _ _ (ih.keeps ht).1)

/-- Moves to the right can be asked for at any time. -/
theorem Tape.Becomes.replicate_right (h : t.Becomes deeds u) (n : Nat) :
    t.Becomes (deeds ++ List.replicate n .right) (moveRight^[n] u) := by
  induction n with
  | zero =>
      rw [List.replicate_zero, List.append_nil]
      exact h
  | succ n ih =>
      rw [List.replicate_succ', ← List.append_assoc, Function.iterate_succ_apply']
      exact ih.request (show (moveRight^[n] u).perform .moveRight = (.ok _, _) from rfl) id

/-- Moves to the left can be asked for at any time. -/
theorem Tape.Becomes.replicate_left (h : t.Becomes deeds u) (n : Nat) :
    t.Becomes (deeds ++ List.replicate n .left) (moveLeft^[n] u) := by
  induction n with
  | zero =>
      rw [List.replicate_zero, List.append_nil]
      exact h
  | succ n ih =>
      rw [List.replicate_succ', ← List.append_assoc, Function.iterate_succ_apply']
      exact ih.request (show (moveLeft^[n] u).perform .moveLeft = (.ok _, _) from rfl) id

end

/-! ### Cells keep their identity -/

namespace Tape

/-- **Cells keep their identity.** Whatever a reachable tape is asked for, and whatever steps and
batches are executed on it, as long as it is not replaced:

* its order is a block of the later one, and the new ids are those from its size on;
* a cell that was not written to has its value;
* counted by places of the later order, the head stands as far to the right of the cell it was on
  as there were moves to the right over moves to the left.

So on every way out by some number of places and back again, the head comes to the cell it left from
and no value changes; as many cells are added as there are too few beyond the head.
-/
theorem cells_keep_identity (t : Tape) (ht : t.Reachable) :
    (∀ (deeds : List Deed) (u : Tape), t.Becomes deeds u →
      t.order <:+: u.order ∧
      (∀ id, id ∈ u.order ∧ id ∉ t.order ↔ t.size ≤ id ∧ id < u.size) ∧
      (∀ id ∈ t.order, id ∉ targets deeds → u.valueAt id = t.valueAt id) ∧
      u.current ∈ u.order ∧
      (u.order.idxOf u.current : Int) = u.order.idxOf t.current + net deeds) ∧
    ∀ n : Nat,
      t.Becomes (outAndBack n) (moveLeft^[n] (moveRight^[n] t)) ∧
      ∀ u, t.Becomes (outAndBack n) u →
        u.current = t.current ∧ (∀ id ∈ t.order, u.valueAt id = t.valueAt id) ∧
        u.size = t.size + (n - t.beyond.length) := by
  obtain ⟨ids, hids⟩ := ht.linked
  have hmem : ∀ id, id ∈ t.order ↔ id < t.size := fun id => by rw [hids.order_eq, hids.mem_iff]
  refine ⟨?_, fun n => ⟨(Becomes.same.replicate_right n).replicate_left n, ?_⟩⟩
  · intro deeds u h
    obtain ⟨⟨ids', hids'⟩, hkeeps⟩ := (h.does ⟨ids, hids⟩).keeps ⟨ids, hids⟩
    have hmem' : ∀ id, id ∈ u.order ↔ id < u.size := fun id => by rw [hids'.order_eq, hids'.mem_iff]
    refine ⟨hkeeps.order, ?_, ?_, (hmem' _).mpr hids'.onCell, hkeeps.head⟩
    · intro id
      rw [hmem, hmem', Nat.not_lt, and_comm]
    · intro id hid
      exact hkeeps.value id ((hmem id).mp hid)
  · intro u h
    obtain ⟨hcurrent, hvalues, hsize⟩ := (h.does ⟨ids, hids⟩).outAndBack hids
    exact ⟨hcurrent, fun id hid => hvalues id ((hmem id).mp hid), hsize⟩

/-- A cell is added at the right end, and a batch adds one at each end: the two cells from before
are side by side, the one that was not written to has its value, and the head is right of the cell
it was on. -/
theorem cells_keep_identity_across_batch :
    ∃ (t u : Tape) (deeds : List Deed), t.Reachable ∧ t.Becomes deeds u ∧
      t.order = [0, 1] ∧ u.order = [2, 0, 1, 3] ∧ net deeds = 2 ∧ targets deeds = [2, 1] ∧
      u.valueAt 0 = t.valueAt 0 ∧ u.order.idxOf u.current = u.order.idxOf t.current + 2 ∧
      (moveLeft^[5] (moveRight^[5] t)).current = t.current ∧
      (moveLeft^[5] (moveRight^[5] t)).size = t.size + 4 := by
  let start : Supervisor := { machine := Machine.load "<+>>+>" }
  let s := start.withMachine { start.machine with tape := Tape.blank.insertRight }
  let s' := (s.batchStep 100).2
  have hstart : start.Reachable :=
    .start (show Supervisor.ofDatum (.text "<+>>+>") none = .ok start from rfl)
  have hs : s.Reachable :=
    .request hstart (show start.performAtFuel 0 (.tape .insertRight) = some (.ok _, s) from rfl)
  have hreachable : s.machine.tape.Reachable := .ofSession hs
  have hbatch : s.machine.tape.Becomes _ s'.machine.tape :=
    .session .same (show s.performAtFuel 0 (.batchStep 100) = some (.ok _, s') from rfl) id
  obtain ⟨hkeeps, hreturns⟩ := cells_keep_identity s.machine.tape hreachable
  obtain ⟨-, -, hvalue, -, hhead⟩ := hkeeps _ _ hbatch
  obtain ⟨hway, hback⟩ := hreturns 5
  obtain ⟨hcurrent, -, hsize⟩ := hback _ hway
  have hnet : net ([] ++ SessionRequest.deeds s s' (.batchStep 100)) = 2 := by decide +kernel
  refine ⟨_, _, _, hreachable, hbatch, by decide +kernel, by decide +kernel, hnet,
    by decide +kernel, hvalue 0 (by decide +kernel) (by decide +kernel), ?_, hcurrent, ?_⟩
  · rw [hnet] at hhead
    exact_mod_cast hhead
  · rw [hsize]
    decide +kernel

end Tape

end TapeMachine
