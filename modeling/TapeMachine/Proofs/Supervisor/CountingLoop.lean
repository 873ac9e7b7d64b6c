import TapeMachine.Proofs.Bracket.Dyck
import TapeMachine.Proofs.Endless.Offset
import TapeMachine.Proofs.Endless.Stretch
import TapeMachine.Proofs.Supervisor.Unlimited

/-!
# Counting loops

A loop whose body comes back to where it starts and takes one off the cell there counts that cell
down to zero. A closing bracket looks at the cell after the body, never before it. So the body is
executed at least once, and a cell that holds zero is counted all the way round through both limits
(`Cell.rounds`).

* **The tape.** Going round changes no cell but by a multiple of what the body changes
  (`Endless.goesRound`).
* **The machine.** It goes round as long as the cell under the head is not zero at the closing
  bracket (`Machine.At.goesRound`).
* **The session.** `Supervisor.run_of_counting_loop` says what both drivers come back with.
-/

namespace TapeMachine

/-! ### Counting down -/

namespace Cell

theorem wrap_eq_zero_iff (n : Int) : wrap n = 0 ↔ (Int32.size : Int) ∣ n := by
  rw [← Int32.toInt_inj, toInt_wrap]
  exact Int.dvd_iff_bmod_eq_zero.symm

/-- How many times one is taken off a cell until it holds zero, if it is done at least once. -/
def rounds (v : Cell) : Nat :=
  if v = 0 then Int32.size else (v.toInt % Int32.size).toNat

/-- After all the rounds the cell holds zero. -/
theorem size_dvd_sub_rounds (v : Cell) : (Int32.size : Int) ∣ v.toInt - v.rounds := by
  unfold rounds
  split_ifs with hzero
  · subst hzero
    exact ⟨-1, rfl⟩
  · have hpos : 0 ≤ v.toInt % Int32.size := Int.emod_nonneg _ (by decide)
    rw [Int.toNat_of_nonneg hpos]
    exact Int.dvd_self_sub_emod

theorem rounds_pos (v : Cell) : 0 < v.rounds := by
  unfold rounds
  split_ifs with hzero
  · decide
  · have hpos : 0 ≤ v.toInt % Int32.size := Int.emod_nonneg _ (by decide)
    have hne : v.toInt % Int32.size ≠ 0 := by
      intro hmod
      apply hzero
      rw [← wrap_toInt v, wrap_eq_zero_iff]
      exact Int.dvd_of_emod_eq_zero hmod
    omega

theorem rounds_le (v : Cell) : v.rounds ≤ Int32.size := by
  unfold rounds
  split_ifs with hzero
  · exact Nat.le_refl _
  · have hlt : v.toInt % Int32.size < Int32.size := Int.emod_lt_of_pos _ (by decide)
    omega

/-- Before the last round the cell does not hold zero. -/
theorem add_wrap_neg_eq_zero_iff {v : Cell} {j : Nat} (hpos : 0 < j) (hle : j ≤ v.rounds) :
    v + wrap (-j) = 0 ↔ j = v.rounds := by
  have hall := v.size_dvd_sub_rounds
  have hbound := v.rounds_le
  rw [add_wrap, wrap_eq_zero_iff]
  constructor
  · intro hzero
    have hrest : (Int32.size : Int) ∣ v.rounds - j := by
      have hsub := Int.dvd_sub hzero hall
      rwa [show v.toInt + -(j : Int) - (v.toInt - v.rounds) = v.rounds - j by omega] at hsub
    have hnone : (v.rounds : Int) - j = 0 :=
      Int.eq_zero_of_dvd_of_nonneg_of_lt (by omega) (by omega) hrest
    omega
  · rintro rfl
    exact hall

end Cell

/-! ### Going round on an endless tape -/

namespace Endless

/-- What so many rounds along a text do to the tape. -/
def repeats (e : Endless) (text : List Char) : Nat → Endless
  | 0 => e
  | k + 1 => (e.repeats text k).effects text

/-- The second tape is the first, but for what so many rounds along a text add to its cells. -/
structure GoesRound (e : Endless) (text : List Char) (k : Nat) (e' : Endless) : Prop where
  inWindow : e'.InWindow
  head : e'.head = e.head
  cells : ∀ x, e'.cells x = e.cells x + Cell.wrap (k * Walk.change text (x - e.head))
  entered : e.entered <+: e'.entered

/-- **Rounds change the cells by multiples of what one round changes.** -/
theorem goesRound {e : Endless} (h : e.InWindow) {text : List Char}
    (hback : Walk.displacement text = 0) (k : Nat) : e.GoesRound text k (e.repeats text k) := by
  induction k with
  | zero =>
      refine ⟨h, rfl, ?_, List.prefix_rfl⟩
      intro x
      rw [Int.natCast_zero, Int.zero_mul]
      exact (Int32.add_zero _).symm
  | succ k ih =>
      have hwalks := effects_walks ih.inWindow text
      refine ⟨hwalks.inWindow, ?_, ?_, ih.entered.trans hwalks.entered⟩
      · rw [repeats, hwalks.head, ih.head, hback, Int.add_zero]
      · intro x
        rw [repeats, hwalks.cells, ih.cells, ih.head, Int32.add_assoc, ← Cell.wrap_add,
          Int.natCast_succ, Int.add_mul, Int.one_mul]

/-- A text without full stops prints nothing. -/
theorem printedBy_eq_nil {text : List Char} (h : '.' ∉ text) (e : Endless) :
    e.printedBy text = [] := by
  rw [printedBy, List.map_eq_nil_iff, List.filter_eq_nil_iff]
  intro i _ hstop
  exact h (List.mem_of_getElem? (of_decide_eq_true hstop))

end Endless

/-- What so many rounds along a text do for their effect alone. -/
def Config.repeats (s : Config) (text : List Char) : Nat → Config
  | 0 => s
  | k + 1 => (s.repeats text k).performs text

/-- **Rounds do to a tape what they do to the endless tape.** -/
theorem Tape.Holds.repeats {s : Config} {ids : List Nat} {e : Endless} (h : s.tape.Holds ids e)
    {text : List Char} (hsilent : '.' ∉ text) (k : Nat) :
    (∃ ids', (s.repeats text k).tape.Holds ids' (e.repeats text k)) ∧
      (s.repeats text k).output = s.output := by
  induction k with
  | zero => exact ⟨⟨ids, h⟩, rfl⟩
  | succ k ih =>
      obtain ⟨⟨ids', hids'⟩, houtput⟩ := ih
      obtain ⟨hnext, hprinted⟩ := hids'.performs text
      refine ⟨hnext, ?_⟩
      rw [Config.repeats, hprinted, houtput, Endless.printedBy_eq_nil hsilent]
      exact Array.append_empty

/-- What so many rounds along a text leave of a configuration. -/
structure Config.Rounds (s : Config) (text : List Char) (k : Nat) (u : Config) : Prop where
  output : u.output = s.output
  current : u.tape.current = s.tape.current
  read : u.tape.read = s.tape.read + Cell.wrap (k * Walk.change text 0)
  cellAt : ∀ o, u.tape.cellAt o = Cell.wrap ((s.tape.cellAt o).toInt + k * Walk.change text o)

/-- **What rounds do to a linked tape.** The head comes back to its cell, nothing is printed, and
the cell at each distance from the head changes by a multiple of what one round changes. -/
theorem Config.rounds_repeats {s : Config} {ids : List Nat} (h : s.tape.Linked ids)
    {text : List Char} (hsilent : '.' ∉ text) (hback : Walk.displacement text = 0) (k : Nat) :
    s.Rounds text k (s.repeats text k) := by
  have hround := Endless.goesRound h.holds.inWindow hback k
  obtain ⟨⟨ids', hids'⟩, houtput⟩ := h.holds.repeats hsilent k
  have hcells : ∀ o, (s.repeats text k).tape.cellAt o =
      s.tape.cellAt o + Cell.wrap (k * Walk.change text o) := by
    intro o
    have hplace : s.tape.unrolled.head + o - s.tape.unrolled.head = o := by omega
    rw [hids'.cellAt, h.holds.cellAt, hround.cells, hround.head, hplace]
  refine ⟨houtput, ?_, ?_, ?_⟩
  · -- the cell of the head still stands for the position of the head
    apply hids'.injective hids'.head
    obtain ⟨more, hmore⟩ := hround.entered
    have hlt := (List.getElem?_eq_some_iff.mp h.holds.head).1
    rw [hround.head, ← hmore, List.getElem?_append_left hlt]
    exact h.holds.head
  · rw [← hids'.linked.cellAt_zero, ← h.cellAt_zero, hcells]
  · intro o
    rw [hcells, Cell.add_wrap]

/-! ### Going round in a program -/

namespace Bracket

variable {body : List Char}

theorem balanced_of_no_brackets (h : ∀ c ∈ body, c ≠ '[' ∧ c ≠ ']') : Balanced body := by
  induction body using List.reverseRecOn with
  | nil => exact balanced_nil
  | append_singleton body c ih =>
      obtain ⟨hopen, hclose⟩ := h c (by simp)
      exact (ih fun d hd => h d (List.mem_append_left _ hd)).snoc_other hopen hclose

/-- The brackets around a text without brackets are partners. -/
theorem mem_pairs_around (h : ∀ c ∈ body, c ≠ '[' ∧ c ≠ ']') :
    (body.length + 1, 0) ∈ pairs ('[' :: (body ++ [']'])) := by
  have hmem := mem_pairsFrom_of_balanced (balanced_of_no_brackets h) 0 [] []
  rwa [Nat.zero_add, Nat.add_comm] at hmem

theorem unpaired_within (h : ∀ c ∈ body, c ≠ '[' ∧ c ≠ ']') {j : Nat} (hj : j < body.length) :
    Unpaired ('[' :: (body ++ [']'])) (0 + 1 + j) := by
  obtain ⟨hopen, hclose⟩ := h body[j] (List.getElem_mem hj)
  refine unpaired_of_other ?_ hopen hclose
  rw [Nat.zero_add, Nat.add_comm, List.getElem?_cons_succ, List.getElem?_append_left hj,
    List.getElem?_eq_getElem hj]

end Bracket

namespace Machine

variable {body : List Char} {s : Config} {m : Machine} {k : Nat}

/-- From the opening bracket a machine comes to the closing one, past the body. -/
theorem At.passes_body (hbody : ∀ c ∈ body, c ≠ '[' ∧ c ≠ ']')
    (h : At ('[' :: (body ++ [']'])) 0 s m) :
    ∃ m', Through Inside (body.length + 1) m m' ∧
      At ('[' :: (body ++ [']'])) (body.length + 1) (s.performs body) m' := by
  obtain ⟨hin, hm⟩ := h.step_of_opening (Bracket.mem_pairs_around hbody)
  obtain ⟨m', hrun, hm'⟩ :=
    hm.passes body.length (by simp; omega) fun j hj => Bracket.unpaired_within hbody hj
  refine ⟨m', .step hin hrun, ?_⟩
  simpa [Nat.add_comm] using hm'

/-- **A machine goes round while the cell under the head is not zero at the closing bracket.** -/
theorem At.goesRound (hbody : ∀ c ∈ body, c ≠ '[' ∧ c ≠ ']')
    (h : At ('[' :: (body ++ [']'])) 0 s m)
    (hagain : ∀ j < k, (s.repeats body (j + 1)).tape.read ≠ 0) :
    ∃ m', Through Inside (k * (body.length + 2)) m m' ∧
      At ('[' :: (body ++ [']'])) 0 (s.repeats body k) m' := by
  induction k with
  | zero => exact ⟨m, by simpa using Through.refl m, h⟩
  | succ k ih =>
      obtain ⟨m₁, hrun, hm₁⟩ := ih fun j hj => hagain j (by omega)
      obtain ⟨m₂, hrun', hm₂⟩ := hm₁.passes_body hbody
      obtain ⟨hin, hm₃⟩ :=
        hm₂.step_of_again (Bracket.mem_pairs_around hbody) (hagain k (Nat.lt_succ_self k))
      refine ⟨m₂.step, ?_, hm₃⟩
      rw [Nat.succ_mul]
      exact hrun.trans (hrun'.trans (.single hin))

/-- **A machine leaves a loop after the first round that ends with a zero under the head.** -/
theorem At.leavesLoop (hbody : ∀ c ∈ body, c ≠ '[' ∧ c ≠ ']')
    (h : At ('[' :: (body ++ [']'])) 0 s m)
    (hagain : ∀ j < k, (s.repeats body (j + 1)).tape.read ≠ 0)
    (hleave : (s.repeats body (k + 1)).tape.read = 0) :
    ∃ m', Through Inside ((k + 1) * (body.length + 2)) m m' ∧
      At ('[' :: (body ++ [']'])) ('[' :: (body ++ [']'])).length (s.repeats body (k + 1)) m' := by
  obtain ⟨m₁, hrun, hm₁⟩ := h.goesRound hbody hagain
  obtain ⟨m₂, hrun', hm₂⟩ := hm₁.passes_body hbody
  obtain ⟨hin, hm₃⟩ := hm₂.step_of_leave (Bracket.mem_pairs_around hbody) hleave
  have hlength : ('[' :: (body ++ [']'])).length = body.length + 2 := by simp
  refine ⟨m₂.step, ?_, hlength ▸ hm₃⟩
  rw [Nat.succ_mul]
  exact hrun.trans (hrun'.trans (.single hin))

end Machine

/-! ### Running a counting loop -/

namespace Supervisor

open Machine

variable {s : Supervisor} {body : List Char}

/-- **What a counting loop does.** Let the body of a loop have neither brackets nor full stops, come
back to the cell where it starts, and take one off that cell. On any reachable tape either driver
comes back after as many rounds as it takes to count the cell under the head down to zero; the cell
at any other distance has changed by so many times what the body adds there. The head is on the cell
on which it was, and nothing has been printed. -/
theorem run_of_counting_loop (hs : s.Begins ('[' :: (body ++ [']'])))
    (hbody : ∀ c ∈ body, c ≠ '[' ∧ c ≠ ']' ∧ c ≠ '.') (hback : Walk.displacement body = 0)
    (hdown : Walk.change body 0 = -1) :
    ∃ tape : Tape,
      tape.current = s.machine.tape.current ∧
      tape.read = 0 ∧
      (∀ o, o ≠ 0 → tape.cellAt o = Cell.wrap ((s.machine.tape.cellAt o).toInt +
        s.machine.tape.read.rounds * Walk.change body o)) ∧
      (∃ fuel t,
        s.runAtFuel fuel none = some (s.machine.tape.read.rounds * (body.length + 2), t) ∧
        t.machine = s.machine.ended ('[' :: (body ++ [']']))
          (s.machine.tape.read.rounds * (body.length + 2)) ⟨tape, s.machine.output⟩) ∧
      ∀ batchSize : Int, 1 ≤ batchSize → ∃ fuel t,
        s.runBatchesAtFuel fuel none batchSize =
          some (s.machine.tape.read.rounds * (body.length + 2), t) ∧
        t.machine = s.machine.ended ('[' :: (body ++ [']']))
          (s.machine.tape.read.rounds * (body.length + 2)) ⟨tape, s.machine.output⟩ := by
  have hbrackets : ∀ c ∈ body, c ≠ '[' ∧ c ≠ ']' := fun c hc => ⟨(hbody c hc).1, (hbody c hc).2.1⟩
  have hsilent : '.' ∉ body := fun hmem => (hbody '.' hmem).2.2 rfl
  obtain ⟨ids, hids⟩ := hs.tape.linked
  have hrounds := Config.rounds_repeats (s := ⟨s.machine.tape, s.machine.output⟩) hids hsilent hback
  -- after `j` rounds the cell under the head is down by `j`
  have hzero : ∀ j, 0 < j → j ≤ s.machine.tape.read.rounds →
      ((Config.repeats ⟨s.machine.tape, s.machine.output⟩ body j).tape.read = 0 ↔
        j = s.machine.tape.read.rounds) := by
    intro j hpos hle
    rw [(hrounds j).read, hdown, Int.mul_neg_one]
    exact Cell.add_wrap_neg_eq_zero_iff hpos hle
  obtain ⟨k, hk⟩ : ∃ k, s.machine.tape.read.rounds = k + 1 :=
    Nat.exists_eq_succ_of_ne_zero (Nat.ne_of_gt s.machine.tape.read.rounds_pos)
  have hagain : ∀ j < k,
      (Config.repeats ⟨s.machine.tape, s.machine.output⟩ body (j + 1)).tape.read ≠ 0 := by
    intro j hj hread
    have hlast := (hzero (j + 1) (by omega) (by omega)).mp hread
    omega
  have hend := (hzero (k + 1) (by omega) (by omega)).mpr hk.symm
  obtain ⟨m, hrun, hm⟩ := hs.at.leavesLoop hbrackets hagain hend
  rw [← hk] at hrun hm hend
  refine ⟨_, (hrounds _).current, hend, fun o _ => (hrounds _).cellAt o, ?_⟩
  exact hs.runs hrun ⟨hm.program, hm.ip, hm.tape, hm.output.trans (hrounds _).output⟩

/-- The cell under the head holds the greatest negative number, so the rounds take it down through
the lower limit. The body adds a cell on the left in the first round. -/
theorem run_of_counting_loop_through_limits :
    ∃ fuel t, ({ machine := { Machine.load "[-<++>]" with tape := Tape.ofCells [-1, 7] } } :
        Supervisor).runAtFuel fuel none = some (30064771065, t) ∧
      t.machine.terminated = true ∧ t.machine.tape.current = 0 ∧ t.machine.tape.read = 0 ∧
      t.machine.tape.cellAt (-1) = -2 ∧ t.machine.tape.cellAt 1 = 7 := by
  have hbegins : Begins { machine := { Machine.load "[-<++>]" with tape := Tape.ofCells [-1, 7] } }
      ('[' :: ("-<++>".toList ++ [']'])) := ⟨rfl, rfl, rfl, rfl, .ofCells [-1, 7]⟩
  obtain ⟨tape, hcurrent, hread, hcells, ⟨fuel, t, hreturns, ht⟩, -⟩ :=
    run_of_counting_loop hbegins (by simp) (by decide) (by decide)
  refine ⟨fuel, t, hreturns, by rw [ht]; rfl, by rw [ht]; exact hcurrent,
    by rw [ht]; exact hread, ?_, ?_⟩
  · rw [ht]
    exact (hcells (-1) (by decide)).trans (by decide +kernel)
  · rw [ht]
    exact (hcells 1 (by decide)).trans (by decide +kernel)

end Supervisor

end TapeMachine
