import TapeMachine.Proofs.Session.Deeds
import TapeMachine.Proofs.Session.Dialogue
import TapeMachine.Proofs.Supervisor.Alike

/-!
# Room that is reserved in a session

Room can be reserved on a tape at any time. It must not show in anything but the capacity, and the
capacity must be what it was reserved for. The first is a fact about dialogues: tapes and sessions
that differ in their spare slots answer alike (`Tape.Alike.perform`,
`Supervisor.Alike.performAtFuel`), so requests to reserve room are hidden
(`Tape.hides_reserve`, `Supervisor.hides_reserve`). The second is a fact about histories of deeds
(`Tape.Does.capacity_le`, `Tape.Does.capacity_eq_of_room`, `Tape.Does.capacity_le_twice`), of which
it remains to be said that only a request to reserve room has such a deed
(`SessionRequest.not_reserves_of_mem_deeds`).
-/

namespace TapeMachine

/-- Whether a request reserves room. -/
def TapeRequest.reserves : TapeRequest → Bool
  | .reserve _ => true
  | _ => false

/-- Whether a request to a session reserves room on its tape. -/
def SessionRequest.reserves : SessionRequest → Bool
  | .tape request => request.reserves
  | _ => false

/-! ### Dialogues -/

/-- A tape answers a request. -/
def Tape.Answers (t : Tape) (request : TapeRequest) (result : Except Fault Reply) (u : Tape) :
    Prop :=
  t.perform request = (result, u)

/-- A session answers a request, with some amount of fuel. -/
def Supervisor.Answers (s : Supervisor) (request : SessionRequest) (result : Except Fault Reply)
    (t : Supervisor) : Prop :=
  ∃ fuel, s.performAtFuel fuel request = some (result, t)

/-- Requests to reserve room on a tape are hidden. -/
theorem Tape.hides_reserve :
    Dialogue.Hides Tape.Answers (fun request => !request.reserves) Eq Tape.Alike where
  unique := by
    intro s t u request result result' h h'
    exact Prod.mk.inj (h.symm.trans h')
  follow := by
    intro s t u request result halike h
    have hsame := halike.perform request
    rw [show s.perform request = (result, u) from h] at hsame
    generalize ht : t.perform request = answer at hsame
    cases hsame with
    | same _ hv => exact ⟨_, _, ht, rfl, hv⟩
  skip := by
    intro s t u request result hcounts halike h
    cases request with
    | reserve extra =>
        cases h
        exact halike.reserve_left extra
    | _ => cases hcounts
  insert := by
    intro s t request hcounts halike
    cases request with
    | reserve extra => exact ⟨_, _, rfl, (halike.symm.reserve_left extra).symm⟩
    | _ => cases hcounts

/-- What comes back from a request comes back with more fuel. -/
theorem Supervisor.performAtFuel_mono {s : Supervisor} {fuel fuel' : Nat}
    {request : SessionRequest} {outcome : Except Fault Reply × Supervisor} (hle : fuel ≤ fuel')
    (h : s.performAtFuel fuel request = some outcome) :
    s.performAtFuel fuel' request = some outcome := by
  induction hle with
  | refl => exact h
  | step _ ih => exact performAtFuel_succ ih

/-- Room that is reserved on the tape of a session does not show. -/
theorem Supervisor.Alike.reserve_left {s t : Supervisor} (h : s.Alike t) (extra : Int) :
    (s.withMachine { s.machine with tape := s.machine.tape.reserve extra }).Alike t :=
  h.withMachine (h.machine.withTape (h.machine.tape.reserve_left extra))

/-- Requests to reserve room on the tape of a session are hidden. -/
theorem Supervisor.hides_reserve :
    Dialogue.Hides Supervisor.Answers (fun request => !request.reserves) Supervisor.SameResult
      Supervisor.Alike where
  unique := by
    rintro s t u request result result' ⟨fuel, h⟩ ⟨fuel', h'⟩
    have hmax := performAtFuel_mono (Nat.le_max_left fuel fuel') h
    have hmax' := performAtFuel_mono (Nat.le_max_right fuel fuel') h'
    exact Prod.mk.inj (Option.some.inj (hmax.symm.trans hmax'))
  follow := by
    rintro s t u request result halike ⟨fuel, h⟩
    have hsame := halike.performAtFuel fuel request
    rw [h] at hsame
    generalize ht : t.performAtFuel fuel request = outcome at hsame
    cases hsame with
    | some hboth => exact ⟨_, _, ⟨fuel, ht⟩, hboth⟩
  skip := by
    rintro s t u request result hcounts halike ⟨fuel, h⟩
    cases request with
    | tape request =>
        cases request with
        | reserve extra =>
            cases h
            exact halike.reserve_left extra
        | _ => cases hcounts
    | _ => cases hcounts
  insert := by
    intro s t request hcounts halike
    cases request with
    | tape request =>
        cases request with
        | reserve extra => exact ⟨_, _, ⟨0, rfl⟩, (halike.symm.reserve_left extra).symm⟩
        | _ => cases hcounts
    | _ => cases hcounts

/-! ### Histories -/

/-- Only a request to reserve room has such a deed. -/
theorem TapeRequest.not_reserves_of_mem_deeds {t : Tape} {request : TapeRequest}
    (h : request.reserves = false) : ∀ d ∈ request.deeds t, ¬ d.Reserves := by
  cases request with
  | reserve extra => cases h
  | setValue id value =>
      simp only [TapeRequest.deeds]
      split <;> simp [Tape.Deed.Reserves]
  | _ => simp [TapeRequest.deeds, Tape.Deed.Reserves]

/-- No command reserves room. -/
theorem Command.not_reserves_of_mem_deeds (t : Tape) (c : Command) :
    ∀ d ∈ c.deeds t, ¬ d.Reserves := by
  cases c <;> simp [Command.deeds, Tape.Deed.Reserves]

theorem Machine.not_reserves_of_mem_deeds (m : Machine) (count : Nat) :
    ∀ d ∈ m.deeds count, ¬ d.Reserves := by
  induction count generalizing m with
  | zero => simp [Machine.deeds]
  | succ count ih =>
      intro d hd
      rcases List.mem_append.mp hd with hnext | hrest
      · rcases hc : m.program.commandAt? m.ip with _ | c
        · rw [hc] at hnext
          cases hnext
        · rw [hc] at hnext
          exact c.not_reserves_of_mem_deeds m.tape d hnext
      · exact ih m.step d hrest

/-- Only a request to reserve room on the tape of a session has such a deed. -/
theorem SessionRequest.not_reserves_of_mem_deeds {s s' : Supervisor} {request : SessionRequest}
    (h : request.reserves = false) : ∀ d ∈ request.deeds s s', ¬ d.Reserves := by
  cases request with
  | tape request => exact TapeRequest.not_reserves_of_mem_deeds h
  | _ => exact Machine.not_reserves_of_mem_deeds _ _

/-- A session in which no room has ever been reserved by a request. The tape may have been
replaced. -/
inductive Supervisor.Unreserved : Supervisor → Prop
  | start {program : Datum} {watch : Option (Nat → Bool)} {s : Supervisor} :
      Supervisor.ofDatum program watch = .ok s → Unreserved s
  | request {s s' : Supervisor} {fuel : Nat} {request : SessionRequest}
      {result : Except Fault Reply} : Unreserved s → request.reserves = false →
      s.performAtFuel fuel request = some (result, s') → Unreserved s'

/-- A tape on which no room has ever been reserved by a request, by itself or in a session. -/
inductive Tape.Unreserved : Tape → Prop
  | ofCells (values : List Cell) : Unreserved (Tape.ofCells values)
  | ofSession {s : Supervisor} : s.Unreserved → Unreserved s.machine.tape
  | request {t t' : Tape} {request : TapeRequest} {result : Except Fault Reply} : Unreserved t →
      request.reserves = false → t.perform request = (result, t') → Unreserved t'

theorem Supervisor.Unreserved.reachable {s : Supervisor} (h : s.Unreserved) : s.Reachable := by
  induction h with
  | start hstart => exact .start hstart
  | request _ _ hrequest ih => exact .request ih hrequest

theorem Tape.Unreserved.reachable {t : Tape} (h : t.Unreserved) : t.Reachable := by
  induction h with
  | ofCells values => exact .ofCells values
  | ofSession hs => exact .ofSession hs.reachable
  | request _ _ hrequest ih => exact .request ih hrequest

/-- A tape that is replaced has no more slots than a tape has to begin with. -/
theorem Tape.capacity_refill_le {t : Tape} (h : t.capacity ≤ max 16 (2 * t.size))
    (values : List Cell) :
    (t.refill values).capacity ≤ max 16 (2 * (t.refill values).size) := by
  unfold Tape.refill
  split_ifs
  · exact h
  · rw [capacity_row]
    exact Nat.le_refl _

theorem Tape.capacity_perform_le {t u : Tape} {request : TapeRequest} {result : Except Fault Reply}
    (ht : ∃ ids, t.Linked ids) (h : t.capacity ≤ max 16 (2 * t.size))
    (hreserves : request.reserves = false) (hrequest : t.perform request = (result, u)) :
    u.capacity ≤ max 16 (2 * u.size) := by
  by_cases hrebuilds : request.Rebuilds
  · cases request with
    | refill values =>
        obtain rfl | ⟨cells, rfl⟩ := perform_refill_cases hrequest
        · exact h
        · exact capacity_refill_le h cells
    | _ => exact absurd hrebuilds id
  · obtain ⟨ids, hids⟩ := ht
    have hdoes := does_of_perform hids hrebuilds hrequest
    exact hdoes.capacity_le_twice (TapeRequest.not_reserves_of_mem_deeds hreserves) ⟨ids, hids⟩ h

theorem Supervisor.capacity_performAtFuel_le {s s' : Supervisor} {fuel : Nat}
    {request : SessionRequest} {result : Except Fault Reply}
    (hs : ∃ ids, s.machine.tape.Linked ids)
    (h : s.machine.tape.capacity ≤ max 16 (2 * s.machine.tape.size))
    (hreserves : request.reserves = false)
    (hrequest : s.performAtFuel fuel request = some (result, s')) :
    s'.machine.tape.capacity ≤ max 16 (2 * s'.machine.tape.size) := by
  by_cases hrebuilds : request.Rebuilds
  · cases request with
    | reset => cases hrequest; exact Tape.capacity_ofCells_le []
    | loadOpcodes table =>
        obtain hsame | ⟨cells, hfilled⟩ := performAtFuel_loadOpcodes_cases hrequest
        · rw [hsame]
          exact h
        · rw [hfilled]
          exact Tape.capacity_refill_le h cells
    | tape request =>
        cases hrequest
        exact Tape.capacity_perform_le hs h hreserves rfl
    | _ => exact absurd hrebuilds id
  · have hdoes := does_of_performAtFuel hs hrebuilds hrequest
    exact hdoes.capacity_le_twice (SessionRequest.not_reserves_of_mem_deeds hreserves) hs h

/-- **Without a request for room, the slots are no more than sixteen or twice the cells.** -/
theorem Supervisor.Unreserved.capacity_le {s : Supervisor} (h : s.Unreserved) :
    s.machine.tape.capacity ≤ max 16 (2 * s.machine.tape.size) := by
  induction h with
  | @start program watch s hstart =>
      rcases htext : program.programText with fault | text
      · rw [ofDatum, htext] at hstart
        cases hstart
      · rw [ofDatum, htext] at hstart
        cases hstart
        exact Tape.capacity_ofCells_le []
  | request hs hreserves hrequest ih =>
      exact capacity_performAtFuel_le hs.reachable.sound.tape ih hreserves hrequest

theorem Tape.Unreserved.capacity_le {t : Tape} (h : t.Unreserved) :
    t.capacity ≤ max 16 (2 * t.size) := by
  induction h with
  | ofCells values => exact capacity_ofCells_le values
  | ofSession hs => exact hs.capacity_le
  | request ht hreserves hrequest ih =>
      exact capacity_perform_le ht.reachable.linked ih hreserves hrequest

/-! ### The contract -/

/-- **Room that is reserved does not show, and it is there.** In every session and on every tape
that can be reached:

* Two dialogues that differ only in requests to reserve room, for any number of cells, both come
  back or both do not; every other request has the same result in both, runs and turns of the batch
  driver with their counts of steps among them; and at the end the two are alike, with the same
  cells and links, instruction pointer, output, mark of termination and step count.
* After room has been reserved, that many more cells have slots.
* The number of slots never becomes less while the tape is not replaced. It stays while no more
  cells are added than room has been reserved for, and no more room is reserved.
* Where no room has ever been reserved by a request, there are at most sixteen slots or twice as
  many as cells.
-/
theorem capacity_contract (s : Supervisor) (hs : s.Reachable) (t : Tape) (ht : t.Reachable) :
    Dialogue.Invisible Supervisor.Answers (fun request => !request.reserves)
      Supervisor.SameResult Supervisor.Alike s ∧
    Dialogue.Invisible Tape.Answers (fun request => !request.reserves) Eq Tape.Alike t ∧
    (∀ extra : Int, t.size + extra ≤ (t.reserve extra).capacity) ∧
    (∀ (deeds : List Tape.Deed) (u : Tape), t.Becomes deeds u → t.capacity ≤ u.capacity) ∧
    (∀ (extra : Int) (deeds : List Tape.Deed) (u : Tape), (t.reserve extra).Becomes deeds u →
      (∀ d ∈ deeds, ¬ d.Reserves) → (u.size : Int) ≤ t.size + extra →
      u.capacity = (t.reserve extra).capacity) ∧
    (t.Unreserved → t.capacity ≤ max 16 (2 * t.size)) := by
  obtain ⟨ids, hids⟩ := ht.linked
  refine ⟨?_, ?_, t.size_add_le_capacity_reserve, ?_, ?_, Tape.Unreserved.capacity_le⟩
  · exact Supervisor.hides_reserve.invisible (.refl hs.sound)
  · exact Tape.hides_reserve.invisible (.refl ⟨ids, hids⟩)
  · intro deeds u h
    exact (h.does ⟨ids, hids⟩).capacity_le
  · intro extra deeds u h hdeeds hsize
    have hroom := t.size_add_le_capacity_reserve extra
    exact (h.does ⟨ids, hids.reserve extra⟩).capacity_eq_of_room hdeeds (by omega)

/-- A turn of a hundred commands, by itself and between requests for room: it is stopped for growth
at other places, and gives the same result. On a tape of its own, twenty cells fit into the room
that has been reserved for them. -/
theorem capacity_contract_across_growth :
    ∃ (s s₁ s₂ : Supervisor) (exchanges : List (SessionRequest × Except Fault Reply)),
      s.Reachable ∧
      Dialogue Supervisor.Answers s [(.batchStep 100, .ok (.stopped .budget 100))] s₁ ∧
      Dialogue Supervisor.Answers s exchanges s₂ ∧
      exchanges.map Prod.fst = [.tape (.reserve 50), .batchStep 100, .tape (.reserve (-3))] ∧
      s₁.machine.Alike s₂.machine ∧
      Tape.blank.capacity ≤ (Tape.moveRight^[20] (Tape.blank.reserve 20)).capacity ∧
      (Tape.moveRight^[20] (Tape.blank.reserve 20)).capacity = 32 ∧
      Tape.blank.capacity ≤ max 16 (2 * Tape.blank.size) := by
  let s : Supervisor := { machine := Machine.load "+[>+]" }
  have hs : s.Reachable :=
    .start (show Supervisor.ofDatum (.text "+[>+]") none = .ok s from rfl)
  have hblank : Tape.blank.Reachable := .ofCells []
  obtain ⟨hsessions, -, -, hgrows, hfits, hbound⟩ := capacity_contract s hs Tape.blank hblank
  have hreport : (s.batchStep 100).1 = (.budget, 100) := by decide +kernel
  have hturn : Dialogue Supervisor.Answers s [(.batchStep 100, .ok (.stopped .budget 100))]
      (s.batchStep 100).2 := by
    refine .cons ⟨0, ?_⟩ (.nil _)
    simp only [Supervisor.performAtFuel, hreport]
  obtain ⟨hcomes, hsame⟩ := hsessions _ _ hturn
  obtain ⟨exchanges, s₂, hexchanges, hrequests⟩ :=
    hcomes [.tape (.reserve 50), .batchStep 100, .tape (.reserve (-3))] rfl
  obtain ⟨-, halike⟩ := hsame _ _ hexchanges (by rw [hrequests]; rfl)
  have hreserved : Tape.blank.Becomes [.reserve 20] (Tape.blank.reserve 20) :=
    .request .same (show Tape.blank.perform (.reserve 20) = (.ok _, _) from rfl) id
  have hcapacity := hfits 20 _ _ (Tape.Becomes.same.replicate_right 20)
    (by simp [Tape.Deed.Reserves]) (by decide +kernel)
  refine ⟨s, _, s₂, exchanges, hs, hturn, hexchanges, hrequests, halike.machine,
    hgrows _ _ (hreserved.replicate_right 20), ?_, hbound (.ofCells [])⟩
  rw [hcapacity]
  decide +kernel

end TapeMachine
