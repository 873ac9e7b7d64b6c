import TapeMachine.Proofs.Machine.Negation
import TapeMachine.Proofs.Session.Schedule
import TapeMachine.Proofs.Supervisor.Lockstep

/-!
# Sessions on negated programs

A program with its increments and decrements exchanged does what the program does, on a negated tape.
After any number of steps the two machines are opposite (`Machine.opposite_iterate_step`): they
differ in the signs of what their cells hold and of what they have printed, and in nothing else.

What a driver looks at has no sign, so every driver can be called on both in lockstep
(`Machine.Negated.lockstep`). A schedule of calls that comes back on the one comes back on the other
with the same replies (`Supervisor.Schedule.inLockstep`), after equally many steps of both. Both parts
are put together in `Supervisor.negated_schedule`.
-/

namespace TapeMachine

/-! ### Opposite machines -/

namespace Machine

/-- The second machine is where the first is, with the same cells linked in the same way, but each
holds the negative of what it holds in the first. So it is with the outputs: where the first has
printed the given values, the second has printed their negatives. -/
structure Opposite (m m' : Machine) (printed : List Cell) : Prop where
  ip : m'.ip = m.ip
  terminated : m'.terminated = m.terminated
  stepCount : m'.stepCount = m.stepCount
  size : m'.tape.size = m.tape.size
  capacity : m'.tape.capacity = m.tape.capacity
  current : m'.tape.current = m.tape.current
  leftmost : m'.tape.leftmost = m.tape.leftmost
  rightmost : m'.tape.rightmost = m.tape.rightmost
  lefts : m'.tape.lefts = m.tape.lefts
  rights : m'.tape.rights = m.tape.rights
  value : ∀ id, m'.tape.valueAt id = Cell.wrap (-(m.tape.valueAt id).toInt)
  output : m.output = (printed.map Token.ofCell).toArray
  negative : m'.output = (printed.map fun v => Token.ofCell (Cell.wrap (-v.toInt))).toArray

variable {m m' : Machine}

/-- Negated machines that have not printed yet are opposite after any number of steps. -/
theorem Negated.opposite (h : m.Negated m') (hm : m.output = #[]) (hm' : m'.output = #[])
    (n : Nat) : Opposite (Machine.step^[n] m) (Machine.step^[n] m') (m.printed n) := by
  have hn := h.iterate_step n
  obtain ⟨hlefts, hrights⟩ := (Machine.step^[n] m).tape.links_negate
  have htape := hn.tape
  refine ⟨hn.ip, hn.terminated, hn.stepCount, ?_, ?_, ?_, ?_, ?_, ?_, ?_, ?_, ?_, ?_⟩
  · rw [htape, Tape.size_negate]
  · rw [htape, Tape.capacity_negate]
  · rw [htape, Tape.current_negate]
  · rw [htape, Tape.leftmost_negate]
  · rw [htape, Tape.rightmost_negate]
  · rw [htape, hlefts]
  · rw [htape, hrights]
  · intro id
    rw [htape, Tape.valueAt_negate, Cell.wrap_neg_toInt]
  · rw [output_iterate_step, hm, Array.empty_append]
  · rw [output_iterate_step, hm', Array.empty_append, h.printed, List.map_map]
    simp only [Function.comp_def, Cell.wrap_neg_toInt]

/-- **After any number of steps, a program and its negation are opposite.** -/
theorem opposite_iterate_step (text : String) (n : Nat) :
    Opposite (Machine.step^[n] (load text))
      (Machine.step^[n] (load (text.map Command.negateChar))) ((load text).printed n) :=
  (negated_load text).opposite rfl rfl n

/-- Negated machines can be driven in lockstep, each from its start. -/
theorem Negated.lockstep (h : m.Negated m') :
    Lockstep fun a a' => ∃ k, a = Machine.step^[k] m ∧ a' = Machine.step^[k] m' where
  step := by
    rintro _ _ ⟨k, rfl, rfl⟩
    exact ⟨k + 1, (Function.iterate_succ_apply' _ k m).symm,
      (Function.iterate_succ_apply' _ k m').symm⟩
  ip := by
    rintro _ _ ⟨k, rfl, rfl⟩
    exact (h.iterate_step k).ip.symm
  inside := by
    rintro _ _ ⟨k, rfl, rfl⟩
    exact (h.iterate_step k).inside.symm
  prints := by
    rintro _ _ ⟨k, rfl, rfl⟩
    exact (h.iterate_step k).prints_iff.symm
  terminated := by
    rintro _ _ ⟨k, rfl, rfl⟩
    exact (h.iterate_step k).terminated.symm
  stepCount := by
    rintro _ _ ⟨k, rfl, rfl⟩
    exact (h.iterate_step k).stepCount.symm

/-- Lockstep goes both ways. -/
theorem Lockstep.symm {R : Machine → Machine → Prop} (hR : Lockstep R) :
    Lockstep fun a a' => R a' a :=
  ⟨hR.step, fun h => (hR.ip h).symm, fun h => (hR.inside h).symm,
    fun h => (hR.prints h).symm, fun h => (hR.terminated h).symm, fun h => (hR.stepCount h).symm⟩

end Machine

/-! ### Schedules in lockstep -/

namespace Supervisor

open Machine

variable {R : Machine → Machine → Prop} {s t u : Supervisor}

/-- **A call comes back from both or from neither**, with the same reply. -/
theorem InLockstep.performAtFuel_of_call (hR : Lockstep R) (h : s.InLockstep R t) (fuel : Nat)
    (c : DriverCall) :
    Option.Rel (fun x y => x.1 = y.1 ∧ x.2.InLockstep R y.2) (s.performAtFuel fuel c.request)
      (t.performAtFuel fuel c.request) := by
  cases c with
  | step => exact .some ⟨rfl, h.withMachine (hR.step h.machine)⟩
  | watchedStep =>
      have hstep := h.step hR
      simp only [DriverCall.request, performAtFuel, hR.terminated hstep.machine]
      exact .some ⟨rfl, hstep⟩
  | run limit delay =>
      refine rel_map (h.runPacedAtFuel hR fuel limit delay) ?_
      rintro ⟨steps, a⟩ ⟨_, b⟩ ⟨⟨⟩, hab⟩
      exact ⟨rfl, hab⟩
  | batchStep limit =>
      obtain ⟨hreport, hturn⟩ := h.batchStep hR limit
      simp only [DriverCall.request, performAtFuel, hreport]
      exact .some ⟨rfl, hturn⟩
  | runBatches limit batchSize =>
      refine rel_map (h.runBatchesAtFuel hR fuel limit batchSize) ?_
      rintro ⟨steps, a⟩ ⟨_, b⟩ ⟨⟨⟩, hab⟩
      exact ⟨rfl, hab⟩

/-- A reply reports the same steps. -/
theorem InLockstep.reported_eq (hR : Lockstep R) (h : s.InLockstep R t) (reply : Reply) :
    s.reported reply = t.reported reply := by
  unfold reported
  rw [hR.terminated h.machine]

/-- **A schedule that comes back on the one session comes back on the other**, with the same replies
and reports. -/
theorem Schedule.inLockstep {calls : List DriverCall} {replies : List Reply} {n : Nat}
    (h : Schedule s calls replies n u) (hR : Lockstep R) (hst : s.InLockstep R t) :
    ∃ v, Schedule t calls replies n v ∧ u.InLockstep R v := by
  induction h generalizing t with
  | nil s => exact ⟨t, .nil t, hst⟩
  | @call s s' u fuel n c calls reply replies hcall _ ih =>
      have hrel := hst.performAtFuel_of_call hR fuel c
      rw [hcall] at hrel
      generalize houtcome : t.performAtFuel fuel c.request = outcome at hrel
      cases hrel with
      | @some _ result hsame =>
          obtain ⟨rest, t'⟩ := result
          obtain ⟨rfl, ht'⟩ := hsame
          obtain ⟨v, hv, huv⟩ := ih ht'
          rw [hst.reported_eq hR reply]
          exact ⟨v, .call houtcome hv, huv⟩

/-! ### Negation -/

/-- **Increments and decrements can be exchanged.** Take any program, and the program with `+` and
`-` exchanged. After any number of steps of both the machines are opposite: everything is the same,
but each cell and each printed value of the second is the negative of that of the first.

So it is with every driver. Whatever is called on the first session in whatever order,
the second session gives the same replies; if the calls come back on the one, they come back on the
other, and the machines are opposite as they are after some number of steps. -/
theorem negated_schedule (text : String) :
    (∀ n, Opposite (Machine.step^[n] (Machine.load text))
      (Machine.step^[n] (Machine.load (text.map Command.negateChar)))
      ((Machine.load text).printed n)) ∧
    ∀ (watch : Option (Nat → Bool)) (calls : List DriverCall) (replies : List Reply) (n : Nat),
      (∀ t, Schedule { machine := Machine.load text, watch := watch } calls replies n t →
        ∃ t' k, Schedule { machine := Machine.load (text.map Command.negateChar), watch := watch }
            calls replies n t' ∧
          t.machine = Machine.step^[k] (Machine.load text) ∧
          Opposite t.machine t'.machine ((Machine.load text).printed k)) ∧
      ∀ t', Schedule { machine := Machine.load (text.map Command.negateChar), watch := watch } calls
          replies n t' →
        ∃ t k, Schedule { machine := Machine.load text, watch := watch } calls replies n t ∧
          t.machine = Machine.step^[k] (Machine.load text) ∧
          Opposite t.machine t'.machine ((Machine.load text).printed k) := by
  have hopposite := opposite_iterate_step text
  have hlockstep := (negated_load text).lockstep
  refine ⟨hopposite, fun watch calls replies n => ⟨?_, ?_⟩⟩
  · intro t ht
    obtain ⟨t', ht', hend⟩ := ht.inLockstep
      (t := { machine := Machine.load (text.map Command.negateChar), watch := watch }) hlockstep
      ⟨⟨0, rfl, rfl⟩, rfl, rfl, rfl⟩
    obtain ⟨k, hk, hk'⟩ := hend.machine
    refine ⟨t', k, ht', hk, ?_⟩
    rw [hk, hk']
    exact hopposite k
  · intro t' ht'
    obtain ⟨t, ht, hend⟩ := ht'.inLockstep
      (t := { machine := Machine.load text, watch := watch }) hlockstep.symm
      ⟨⟨0, rfl, rfl⟩, rfl, rfl, rfl⟩
    obtain ⟨k, hk, hk'⟩ := hend.machine
    refine ⟨t, k, ht, hk, ?_⟩
    rw [hk, hk']
    exact hopposite k

/-- A turn of three commands, and then the batch driver. The one program prints a negative number and
the other a positive one. -/
theorem negated_schedule_with_print :
    (Machine.step^[5] (Machine.load "+>--.")).output = #["<value -2>"] ∧
    (Machine.step^[5] (Machine.load "->++.")).output = #["<value 2>"] ∧
    ∃ replies n t t',
      Schedule { machine := Machine.load "+>--." } [.batchStep 3, .runBatches (some 9) 2] replies n
        t ∧
      Schedule { machine := Machine.load "->++." } [.batchStep 3, .runBatches (some 9) 2] replies n
        t' ∧
      t'.machine.stepCount = t.machine.stepCount ∧
      t'.machine.tape.lefts = t.machine.tape.lefts := by
  have htext : "+>--.".map Command.negateChar = "->++." := by decide +kernel
  obtain ⟨hsteps, hcalls⟩ := negated_schedule "+>--."
  rw [htext] at hsteps hcalls
  let start : Supervisor := { machine := Machine.load "+>--." }
  obtain ⟨⟨steps, t⟩, hbatches⟩ :=
    (start.batchStep 3).2.exists_runBatchesAtFuel_of_limit 9 (by decide : (1 : Int) ≤ 2)
  have hfirst : start.performAtFuel 0 (.batchStep 3) = some (.ok _, (start.batchStep 3).2) := rfl
  have hlast : (start.batchStep 3).2.performAtFuel 10 (.runBatches (some 9) 2) =
      some (.ok (.number steps), t) := by
    change Option.map _ ((start.batchStep 3).2.runBatchesAtFuel 10 (some 9) 2) = _
    rw [show (10 : Nat) = (9 : Int).toNat + 1 from rfl, hbatches]
    rfl
  have hschedule : Schedule start [.batchStep 3, .runBatches (some 9) 2] _ _ t :=
    .call hfirst (.call hlast (.nil t))
  obtain ⟨t', k, ht', -, hopposite⟩ := (hcalls none _ _ _).1 t hschedule
  refine ⟨?_, ?_, _, _, t, t', hschedule, ht', hopposite.stepCount, hopposite.lefts⟩
  · exact (hsteps 5).output.trans (by decide +kernel)
  · exact (hsteps 5).negative.trans (by decide +kernel)

end Supervisor

end TapeMachine
