import TapeMachine.Proofs.Machine.Mark

/-!
# Steps that print and steps that do not

The output only grows, by one token with each step that prints (`Machine.output_step_of_prints`,
`Machine.output_step_of_not_prints`). So if it is the same at both ends of a run, nothing was
printed in between, and no more has to be known of the run than its two ends
(`Machine.Through.silent`).

A step that leaves the machine live leaves it inside the program, whether it goes on or jumps
(`Machine.inside_step_of_live`). So a run of live machines that starts there stays there
(`Machine.Through.inside`), and all of its steps are counted.
-/

namespace TapeMachine

/-- Only a full stop prints. -/
theorem Command.ofChar_eq_print_iff {c : Char} : ofChar c = .print ↔ c = '.' := by
  constructor
  · intro h
    unfold ofChar at h
    split at h <;> cases h
    rfl
  · rintro rfl
    rfl

theorem Compiled.commandAt?_eq_print_iff (p : Compiled) (i : Int) :
    p.commandAt? i = some .print ↔ p.charAt? i = some '.' := by
  simp [commandAt?, Command.ofChar_eq_print_iff]

namespace Machine

variable {m a b : Machine} {k : Nat}

/-! ### The output -/

/-- The next command prints. -/
def Prints (m : Machine) : Prop :=
  m.program.commandAt? m.ip = some .print

theorem prints_iff : m.Prints ↔ m.instruction? = some '.' :=
  m.program.commandAt?_eq_print_iff m.ip

theorem Prints.inside (h : m.Prints) : m.inside = true :=
  Compiled.inside_of_commandAt? h

/-- A step that prints appends the token of the current cell. -/
theorem output_step_of_prints (h : m.Prints) :
    m.step.output = m.output.push (Token.ofCell m.tape.read) := by
  rw [step_of_fallthrough h rfl]
  rfl

/-- No other step changes the output. -/
theorem output_step_of_not_prints (h : ¬ m.Prints) : m.step.output = m.output := by
  rcases hc : m.program.commandAt? m.ip with _ | c
  · rw [step_of_outside ((m.program.commandAt?_eq_none_iff m.ip).mp hc)]
  rcases hj : m.jump? c with _ | target
  · rw [step_of_fallthrough hc hj]
    cases c with
    | print => exact absurd hc h
    | _ => rfl
  · rw [step_of_jump hc hj]

theorem size_output_le_step (m : Machine) : m.output.size ≤ m.step.output.size := by
  by_cases h : m.Prints
  · rw [output_step_of_prints h, Array.size_push]
    omega
  · exact Nat.le_of_eq (congrArg Array.size (output_step_of_not_prints h).symm)

/-- What was printed stays printed. -/
theorem Leads.size_output_le (h : a.Leads b) : a.output.size ≤ b.output.size := by
  apply h.invariant (I := fun m => a.output.size ≤ m.output.size) ?_ (Nat.le_refl _)
  intro m hm
  exact Nat.le_trans hm m.size_output_le_step

/-! ### Silent runs -/

/-- The machine is live and inside the program, and its next command does not print. -/
structure Silent (m : Machine) : Prop where
  live : m.Live
  inside : m.Inside
  not_prints : ¬ m.Prints

/-- A step that leaves the machine live leaves it inside the program. -/
theorem inside_step_of_live (hlive : m.step.Live) : m.step.Inside := by
  obtain ⟨c, hc⟩ := Compiled.exists_commandAt? (inside_of_step_live hlive)
  rcases hj : m.jump? c with _ | target
  · rw [step_of_fallthrough hc hj] at hlive ⊢
    have hmark := (Bool.or_eq_false_iff.mp hlive).2
    rwa [Bool.not_eq_false'] at hmark
  · have hlt := lt_length_of_jump? hj
    rw [step_of_jump hc hj]
    refine (m.program.inside_eq_true_iff target).mpr ?_
    omega

namespace Through

/-- The machine from which a run of live machines starts is inside the program, if the one after the
first step is live. -/
theorem inside_of_live (h : Through Live k a b) (hk : 0 < k) (hb : b.Live) : a.Inside := by
  cases h with
  | refl => omega
  | step _ hrest =>
      cases hrest with
      | refl => exact inside_of_step_live hb
      | step hlive _ => exact inside_of_step_live hlive

/-- A run of live machines that ends in a live one inside the program starts inside the program. -/
theorem inside_of_inside (h : Through Live k a b) (hlive : b.Live) (hin : b.Inside) :
    a.Inside := by
  by_cases hk : 0 < k
  · exact h.inside_of_live hk hlive
  · cases h with
    | refl => exact hin
    | step => omega

/-- Outside the program the first step is the last one. -/
theorem eq_of_outside (h : Through Live k a b) (hk : 0 < k) (hout : a.inside = false) :
    b = { a with terminated := true } := by
  cases h with
  | refl => omega
  | step _ hrest =>
      rw [step_of_outside hout] at hrest
      cases hrest with
      | refl => rfl
      | step hlive _ => cases hlive

/-- A run of live machines that starts inside the program stays there until its last step. -/
theorem inside (h : Through Live k a b) (ha : a.Inside) : Through Inside k a b := by
  induction h with
  | refl a => exact .refl a
  | @step k a b _ hrest ih =>
      refine .step ha ?_
      cases hrest with
      | refl => exact .refl _
      | step hlive hrest => exact ih (inside_step_of_live hlive)

/-- **A run that leaves the output as it was is silent.** -/
theorem silent (h : Through Live k a b) (ha : a.Inside) (hout : b.output = a.output) :
    Through Silent k a b := by
  have hinside := (h.inside ha).along
  refine h.imp ?_
  intro i hi hlive
  refine ⟨hlive, hinside i hi, ?_⟩
  intro hprints
  have hbefore : a.output.size ≤ (Machine.step^[i] a).output.size := Leads.size_output_le ⟨i, rfl⟩
  have hafter : (Machine.step^[i] a).step.Leads b := by
    refine ⟨k - (i + 1), ?_⟩
    rw [← Function.iterate_succ_apply' Machine.step, ← Function.iterate_add_apply, h.eq_iterate]
    congr 2
    omega
  have hle := hafter.size_output_le
  rw [output_step_of_prints hprints, Array.size_push, hout] at hle
  omega

theorem stepCount_of_silent (h : Through Silent k a b) : b.stepCount = a.stepCount + k :=
  (h.imp fun _ _ hsilent => hsilent.inside).stepCount_of_inside

theorem output_of_silent (h : Through Silent k a b) : b.output = a.output := by
  induction h with
  | refl a => rfl
  | step ha _ ih => rw [ih, output_step_of_not_prints ha.not_prints]

end Through

end Machine

end TapeMachine
