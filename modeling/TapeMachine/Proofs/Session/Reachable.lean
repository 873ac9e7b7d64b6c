import TapeMachine.Proofs.Session.Action
import TapeMachine.Proofs.Supervisor.Turn
import TapeMachine.Proofs.Tape.WellFormed

/-!
# Reachable tapes and sessions

A session starts with a program and is asked for one thing after the other; a tape may also stand
alone. `Supervisor.Reachable` and `Tape.Reachable` are the states that any sequence of requests can
lead to.

A request has few kinds of effect. On a tape it is one of `Tape.Edits`, and on the machine of a
session one of `Machine.Changes`: some steps, a reset, a move of the instruction pointer, or an edit
of the tape. A move of the pointer is what only one request asks for; all others let the machine
proceed (`Machine.Proceeds`). Every kind keeps the tape linked (`Tape.Edits.linked`,
`Machine.Changes.sound`), so every reachable tape is well-formed (`Tape.wellFormed_of_reachable`).
-/

namespace TapeMachine

/-! ### What a request can do -/

/-- What a request can make of a tape. -/
inductive Tape.Edits (t : Tape) : Tape → Prop
  | same : Edits t t
  | moveRight : Edits t t.moveRight
  | moveLeft : Edits t t.moveLeft
  | write (v : Cell) : Edits t (t.write v)
  | setAt {id : Nat} (v : Cell) : id < t.size → Edits t (t.setAt id v)
  | insertLeft : Edits t t.insertLeft
  | insertRight : Edits t t.insertRight
  | refill (values : List Cell) : Edits t (t.refill values)
  | reserve (extra : Int) : Edits t (t.reserve extra)

/-- What a request can make of the machine of a session. -/
inductive Machine.Changes (m : Machine) : Machine → Prop
  | steps {m' : Machine} : m.Leads m' → Changes m m'
  | reset : Changes m m.reset
  | setIp (ip : Int) : Changes m { m with ip := ip }
  | edit {t : Tape} : m.tape.Edits t → Changes m { m with tape := t }

/-- What a request that leaves the instruction pointer to the program can make of the machine. -/
inductive Machine.Proceeds (m : Machine) : Machine → Prop
  | steps {m' : Machine} : m.Leads m' → Proceeds m m'
  | reset : Proceeds m m.reset
  | edit {t : Tape} : m.tape.Edits t → Proceeds m { m with tape := t }

/-- Proceeding is a change. -/
theorem Machine.Proceeds.changes {m m' : Machine} (h : m.Proceeds m') : m.Changes m' := by
  cases h with
  | steps hleads => exact .steps hleads
  | reset => exact .reset
  | edit hedit => exact .edit hedit

/-- Whether a request moves the instruction pointer by itself. -/
def SessionRequest.Steers : SessionRequest → Prop
  | .setIp _ => True
  | _ => False

/-- Whether a request makes the machine take steps, if any, and does nothing else to it. -/
def SessionRequest.Drives : SessionRequest → Prop
  | .reset | .loadOpcodes _ | .setIp _ | .tape _ => False
  | _ => True

/-- An id that a datum names is that of a cell. -/
theorem Tape.lookup_lt {t : Tape} {id : Datum} {n : Nat} (h : t.lookup id = .ok n) :
    n < t.size := by
  unfold Tape.lookup at h
  cases hid : id.toInt with
  | error fault =>
      rw [hid] at h
      cases h
  | ok k =>
      rw [hid] at h
      simp only [Except.bind, Tape.cellId?] at h
      split_ifs at h with hk
      · cases h
        omega
      · cases h

/-- A request to a tape edits it. -/
theorem Tape.perform_edits {t t' : Tape} {request : TapeRequest} {result : Except Fault Reply}
    (h : t.perform request = (result, t')) : t.Edits t' := by
  cases request with
  | moveRight => cases h; exact .moveRight
  | moveLeft => cases h; exact .moveLeft
  | increment => cases h; exact .write _
  | decrement => cases h; exact .write _
  | write value => cases h; exact .write _
  | insertLeft => cases h; exact .insertLeft
  | insertRight => cases h; exact .insertRight
  | reserve extra => cases h; exact .reserve extra
  | valueOf id =>
      rw [perform_valueOf] at h
      cases h
      exact .same
  | setValue id value =>
      rw [perform_setValue] at h
      rcases hid : t.lookup id with _ | n
      · rw [hid] at h
        cases h
        exact .same
      · rw [hid] at h
        cases h
        exact .setAt _ (Tape.lookup_lt hid)
  | refill values =>
      obtain rfl | ⟨cells, rfl⟩ := perform_refill_cases h
      · exact .same
      · exact .refill cells
  | _ => cases h; exact .same

/-- A request that drives the machine makes it take steps. -/
theorem Supervisor.performAtFuel_leads {s s' : Supervisor} {fuel : Nat} {request : SessionRequest}
    {result : Except Fault Reply} (h : s.performAtFuel fuel request = some (result, s'))
    (hdrives : request.Drives) : s.machine.Leads s'.machine := by
  cases request with
  | step => cases h; exact .of_step (.refl _)
  | trace count => cases h; exact ⟨count, (s.machine.getLast?_trace count).symm⟩
  | watchedStep =>
      cases h
      rw [step_machine]
      exact .of_step (.refl _)
  | run limit delay =>
      obtain ⟨⟨steps, t⟩, hrun, hout⟩ := Option.map_eq_some_iff.mp h
      cases hout
      exact runPacedAtFuel_leads hrun
  | batchStep limit => cases h; exact s.batchStep_leads limit
  | runBatches limit batchSize =>
      obtain ⟨⟨steps, t⟩, hrun, hout⟩ := Option.map_eq_some_iff.mp h
      cases hout
      exact runBatchesAtFuel_leads hrun
  | pause => cases h; exact .refl _
  | outputText => cases h; exact .refl _
  | reset | loadOpcodes _ | setIp _ | tape _ => exact absurd hdrives id

/-- A request to a session that does not move the instruction pointer lets the machine proceed. -/
theorem Supervisor.performAtFuel_proceeds {s s' : Supervisor} {fuel : Nat}
    {request : SessionRequest} {result : Except Fault Reply} (hsteers : ¬ request.Steers)
    (h : s.performAtFuel fuel request = some (result, s')) :
    s.machine.Proceeds s'.machine := by
  cases request with
  | reset => cases h; exact .reset
  | loadOpcodes table =>
      obtain hsame | ⟨cells, hfilled⟩ := performAtFuel_loadOpcodes_cases h
      · rw [hsame]
        exact .steps (.refl _)
      · rw [hfilled]
        exact .edit (.refill cells)
  | setIp ip => exact absurd trivial hsteers
  | tape request =>
      cases h
      exact .edit (Tape.perform_edits rfl)
  | _ => exact .steps (performAtFuel_leads h trivial)

/-- A request to a session changes its machine in one of the ways of `Machine.Changes`. -/
theorem Supervisor.performAtFuel_changes {s s' : Supervisor} {fuel : Nat} {request : SessionRequest}
    {result : Except Fault Reply} (h : s.performAtFuel fuel request = some (result, s')) :
    s.machine.Changes s'.machine := by
  by_cases hsteers : request.Steers
  · cases request with
    | setIp ip => cases h; exact .setIp ip
    | _ => exact absurd hsteers id
  · exact (performAtFuel_proceeds hsteers h).changes

/-- What comes back from a request also comes back with more fuel. -/
theorem Supervisor.performAtFuel_succ {s : Supervisor} {fuel : Nat} {request : SessionRequest}
    {outcome : Except Fault Reply × Supervisor} (h : s.performAtFuel fuel request = some outcome) :
    s.performAtFuel (fuel + 1) request = some outcome := by
  cases request with
  | run limit delay =>
      obtain ⟨r, hr, hout⟩ := Option.map_eq_some_iff.mp h
      exact Option.map_eq_some_iff.mpr ⟨r, runPacedAtFuel_succ hr, hout⟩
  | runBatches limit batchSize =>
      obtain ⟨r, hr, hout⟩ := Option.map_eq_some_iff.mp h
      exact Option.map_eq_some_iff.mpr ⟨r, runBatchesAtFuel_succ hr, hout⟩
  | _ => exact h

/-! ### What every request keeps -/

/-- An edit leaves a linked tape linked. -/
theorem Tape.Edits.linked {t t' : Tape} (h : t.Edits t') (ht : ∃ ids, t.Linked ids) :
    ∃ ids, t'.Linked ids := by
  obtain ⟨ids, hids⟩ := ht
  cases h with
  | same => exact ⟨_, hids⟩
  | moveRight => exact ⟨_, hids.moveRight⟩
  | moveLeft => exact ⟨_, hids.moveLeft⟩
  | write v => exact ⟨_, hids.write v⟩
  | setAt v hid => exact ⟨_, hids.setAt hid v⟩
  | insertLeft => exact ⟨_, hids.insertLeft⟩
  | insertRight => exact ⟨_, hids.insertRight⟩
  | reserve extra => exact ⟨_, hids.reserve extra⟩
  | refill values =>
      unfold Tape.refill
      split_ifs with hempty
      · exact ⟨_, hids⟩
      · exact ⟨_, Tape.linked_row (by simpa using hempty)⟩

/-- A command edits the tape. -/
theorem Machine.effect_edits (m : Machine) (c : Command) : m.tape.Edits (m.effect c).tape := by
  cases c with
  | increment | decrement => exact .write _
  | right => exact .moveRight
  | left => exact .moveLeft
  | print | opening | closing | comment => exact .same

/-- A step edits the tape. -/
theorem Machine.step_edits (m : Machine) : m.tape.Edits m.step.tape := by
  rcases hc : m.program.commandAt? m.ip with _ | c
  · rw [step_of_outside ((m.program.commandAt?_eq_none_iff m.ip).mp hc)]
    exact .same
  · rcases hj : m.jump? c with _ | target
    · rw [step_of_fallthrough hc hj]
      exact effect_edits { m with stepCount := m.stepCount + 1 } c
    · rw [step_of_jump hc hj]
      exact .same

/-- The tape of a machine is linked. -/
structure Machine.Sound (m : Machine) : Prop where
  tape : ∃ ids, m.tape.Linked ids

/-- A step leaves a machine sound. -/
theorem Machine.Sound.step {m : Machine} (hm : m.Sound) : m.step.Sound :=
  ⟨m.step_edits.linked hm.tape⟩

/-- Any number of steps leaves a machine sound. -/
theorem Machine.Leads.sound {m m' : Machine} (h : m.Leads m') (hm : m.Sound) : m'.Sound := by
  apply h.invariant ?_ hm
  intro n hn
  exact hn.step

/-- A request to a session leaves its machine sound. -/
theorem Machine.Changes.sound {m m' : Machine} (h : m.Changes m') (hm : m.Sound) : m'.Sound := by
  cases h with
  | steps hleads => exact hleads.sound hm
  | reset => exact ⟨Tape.exists_linked_ofCells []⟩
  | setIp ip => exact ⟨hm.tape⟩
  | edit hedit => exact ⟨hedit.linked hm.tape⟩

/-! ### Reachable states -/

/-- A session that some sequence of requests has led to. -/
inductive Supervisor.Reachable : Supervisor → Prop
  | start {program : Datum} {watch : Option (Nat → Bool)} {s : Supervisor} :
      Supervisor.ofDatum program watch = .ok s → Reachable s
  | request {s s' : Supervisor} {fuel : Nat} {request : SessionRequest}
      {result : Except Fault Reply} : Reachable s →
      s.performAtFuel fuel request = some (result, s') → Reachable s'

/-- A tape that some sequence of requests has led to. It may have been built from values of its own,
or be that of a session. -/
inductive Tape.Reachable : Tape → Prop
  | ofCells (values : List Cell) : Reachable (Tape.ofCells values)
  | ofSession {s : Supervisor} : s.Reachable → Reachable s.machine.tape
  | request {t t' : Tape} {request : TapeRequest} {result : Except Fault Reply} : Reachable t →
      t.perform request = (result, t') → Reachable t'

/-- The machine of a reachable session is sound. -/
theorem Supervisor.Reachable.sound {s : Supervisor} (h : s.Reachable) : s.machine.Sound := by
  induction h with
  | @start program watch s hstart =>
      rcases htext : program.programText with fault | text
      · rw [Supervisor.ofDatum, htext] at hstart
        cases hstart
      · rw [Supervisor.ofDatum, htext] at hstart
        cases hstart
        exact ⟨Tape.exists_linked_ofCells []⟩
  | request _ hrequest ih => exact (Supervisor.performAtFuel_changes hrequest).sound ih

/-- A reachable tape is linked. -/
theorem Tape.Reachable.linked {t : Tape} (h : t.Reachable) : ∃ ids, t.Linked ids := by
  induction h with
  | ofCells values => exact Tape.exists_linked_ofCells values
  | ofSession hs => exact hs.sound.tape
  | request _ hrequest ih => exact (Tape.perform_edits hrequest).linked ih

/-- **Every reachable tape is well-formed**, whether it stands alone or belongs to a session, and
whatever it has been asked for: its links are symmetric, they end at its two ends, and the walk from
one end to the other meets every cell once. -/
theorem Tape.wellFormed_of_reachable (t : Tape) (h : t.Reachable) : t.WellFormed := by
  obtain ⟨ids, hids⟩ := h.linked
  exact hids.wellFormed

/-- The tape of a session after a batch that has to enlarge the arena, and a move of its own. -/
theorem Tape.wellFormed_after_batch :
    (({ machine := Machine.load "+[>+]" } : Supervisor).batchStep
        200).2.machine.tape.moveLeft.Reachable ∧
      (({ machine := Machine.load "+[>+]" } : Supervisor).batchStep
        200).2.machine.tape.moveLeft.WellFormed := by
  have hbatch : ∀ s : Supervisor, s.Reachable → (s.batchStep 200).2.Reachable := fun s hs =>
    .request hs (show s.performAtFuel 0 (.batchStep 200) = some (.ok _, _) from rfl)
  have hmove : ∀ t : Tape, t.Reachable → t.moveLeft.Reachable := fun t ht =>
    .request ht (show t.perform .moveLeft = (.ok _, _) from rfl)
  have hstart : ({ machine := Machine.load "+[>+]" } : Supervisor).Reachable :=
    .start (show Supervisor.ofDatum (.text "+[>+]") none = .ok _ from rfl)
  have h := hmove _ (.ofSession (hbatch _ hstart))
  exact ⟨h, wellFormed_of_reachable _ h⟩

end TapeMachine
