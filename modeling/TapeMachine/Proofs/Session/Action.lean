import TapeMachine.Session

/-!
# Actions

An action may change the state and then end in a fault. That a fault leaves the state as it was is
therefore a property of an action (`Action.Atomic`) and not of the type. It depends on the order of
things: an action is atomic if it only reads (`Action.Reads`) for as long as it may still fail
(`Action.Reads.bind`), and does not fail any more (`Action.Sure`) once it has begun to change
something.

The requests to a tape are of this kind (`Tape.atomic_serve`), and so is loading the opcodes of a
program (`Machine.atomic_loadOpcodes`). What the requests that may be refused come to is said by one
equation each (`Tape.perform_setValue`, …), and what they can leave behind by one case analysis
(`Tape.perform_refill_cases`, `Supervisor.performAtFuel_loadOpcodes_cases`), so that nothing else
has to look into an action.
-/

namespace TapeMachine

namespace Action

variable {σ α β : Type}

/-! ### Performing an action -/

@[simp] theorem perform_pure (a : α) (s : σ) : (pure a : Action σ α).perform s = (.ok a, s) := rfl

@[simp] theorem perform_get (s : σ) : (get : Action σ σ).perform s = (.ok s, s) := rfl

@[simp] theorem perform_modify (f : σ → σ) (s : σ) :
    (modify f : Action σ Unit).perform s = (.ok (), f s) := rfl

/-- What was found out before fails as the action, or is its result. -/
@[simp] theorem perform_lift (result : Except Fault α) (s : σ) :
    (liftM result : Action σ α).perform s = (result, s) := rfl

/-- A fault of the first action is one of both, and then the second is not performed. -/
theorem perform_bind (x : Action σ α) (f : α → Action σ β) (s : σ) :
    (x >>= f).perform s =
      match x.perform s with
      | (.ok a, s) => (f a).perform s
      | (.error fault, s) => (.error fault, s) := by
  simp only [perform, ExceptT.run_bind, StateT.run_bind]
  rcases (ExceptT.run x).run s with ⟨fault | a, s'⟩ <;> rfl

theorem perform_bind_of_ok {x : Action σ α} {f : α → Action σ β} {s s' : σ} {a : α}
    (h : x.perform s = (.ok a, s')) : (x >>= f).perform s = (f a).perform s' := by
  rw [perform_bind, h]

theorem perform_bind_of_error {x : Action σ α} {f : α → Action σ β} {s s' : σ} {fault : Fault}
    (h : x.perform s = (.error fault, s')) : (x >>= f).perform s = (.error fault, s') := by
  rw [perform_bind, h]

/-! ### Faults that leave the state as it was -/

/-- A fault in the action leaves the state in which the action was begun. -/
def Atomic (x : Action σ α) : Prop :=
  ∀ s fault s', x.perform s = (.error fault, s') → s' = s

/-- The action leaves every state as it is. -/
def Reads (x : Action σ α) : Prop :=
  ∀ s, (x.perform s).2 = s

/-- The action does not fail. -/
def Sure (x : Action σ α) : Prop :=
  ∀ s, ∃ a s', x.perform s = (.ok a, s')

theorem Sure.bind {x : Action σ α} {f : α → Action σ β} (hx : x.Sure) (hf : ∀ a, (f a).Sure) :
    (x >>= f).Sure := by
  intro s
  obtain ⟨a, s', ha⟩ := hx s
  rw [perform_bind_of_ok ha]
  exact hf a s'

/-- **Reading before changing.** An atomic action stays atomic if something is read before it,
whether or not the reading may fail. -/
theorem Reads.bind {x : Action σ α} {f : α → Action σ β} (hx : x.Reads) (hf : ∀ a, (f a).Atomic) :
    (x >>= f).Atomic := by
  intro s fault s' hfault
  rcases hread : x.perform s with ⟨unread | a, u⟩
  · have hu : u = s := by simpa [hread] using hx s
    rw [perform_bind_of_error hread] at hfault
    cases hfault
    exact hu
  · have hu : u = s := by simpa [hread] using hx s
    rw [perform_bind_of_ok hread, hu] at hfault
    exact hf a s fault s' hfault

/-- Changing something and reading then is not atomic. -/
example : ¬ (do modify (· + 1); liftM (.error .unsuitable : Except Fault Unit) :
    Action Nat Unit).Atomic := by
  intro h
  exact absurd (h 0 .unsuitable 1 rfl) (by decide)

end Action

/-! ### Requests to a tape -/

namespace Tape

variable (t : Tape)

/-- What becomes of a request for the value of a cell, by what becomes of its name. -/
theorem perform_valueOf (id : Datum) :
    t.perform (.valueOf id) =
      ((t.lookup id).map fun n => .number (t.valueAt n).toInt, t) := by
  simp only [perform, serve, Action.perform_bind, Action.perform_get, Action.perform_lift]
  rcases t.lookup id with fault | n <;> rfl

/-- What becomes of a request to write to a cell, by what becomes of its name. -/
theorem perform_setValue (id value : Datum) :
    t.perform (.setValue id value) =
      match t.lookup id with
      | .ok n => (.ok .done, t.setAt n value.toCell)
      | .error fault => (.error fault, t) := by
  simp only [perform, serve, Action.perform_bind, Action.perform_get, Action.perform_lift]
  rcases t.lookup id with fault | n <;> rfl

/-- What becomes of a request to fill the tape, by what becomes of the values. -/
theorem perform_refill (values : Datum) :
    t.perform (.refill values) =
      match values.toCells with
      | .ok cells => (.ok .done, t.refill cells)
      | .error fault => (.error fault, t) := by
  simp only [perform, serve, Action.perform_bind, Action.perform_lift]
  rcases values.toCells with fault | cells <;> rfl

/-- A request to fill the tape leaves it as it is or fills it with some cells. -/
theorem perform_refill_cases {t t' : Tape} {values : Datum} {result : Except Fault Reply}
    (h : t.perform (.refill values) = (result, t')) :
    t' = t ∨ ∃ cells, t' = t.refill cells := by
  rw [perform_refill] at h
  rcases hcells : values.toCells with fault | cells
  · rw [hcells] at h
    cases h
    exact .inl rfl
  · rw [hcells] at h
    cases h
    exact .inr ⟨cells, rfl⟩

end Tape

/-! ### Opcodes -/

namespace Machine

/-- What becomes of loading the opcodes, by what becomes of the table. -/
theorem perform_loadOpcodes (table : Datum) (m : Machine) :
    (loadOpcodes table).perform m =
      match table.opcodes m.program.text.toList with
      | .ok cells => (.ok (), { m with tape := m.tape.refill cells })
      | .error fault => (.error fault, m) := by
  simp only [loadOpcodes, Action.perform_bind, Action.perform_get, Action.perform_lift]
  rcases table.opcodes m.program.text.toList with fault | cells <;> rfl

end Machine

/-- Loading the opcodes leaves the machine as it is or fills its tape with some cells. -/
theorem Supervisor.performAtFuel_loadOpcodes_cases {s s' : Supervisor} {fuel : Nat} {table : Datum}
    {result : Except Fault Reply}
    (h : s.performAtFuel fuel (.loadOpcodes table) = some (result, s')) :
    s'.machine = s.machine ∨
      ∃ cells, s'.machine = { s.machine with tape := s.machine.tape.refill cells } := by
  simp only [performAtFuel, Machine.perform_loadOpcodes] at h
  rcases hcells : table.opcodes s.machine.program.text.toList with fault | cells
  · rw [hcells] at h
    cases h
    exact .inl rfl
  · rw [hcells] at h
    cases h
    exact .inr ⟨cells, rfl⟩

end TapeMachine
