import TapeMachine.Proofs.Machine.Negation
import TapeMachine.Proofs.Session.Reachable
import TapeMachine.Proofs.Token.Reading

/-!
# What a session has printed

The output of a session is a list of display tokens. `Supervisor.HasPrinted` says which values they
stand for: those that were under the head at the printing commands that the session has executed
since its start or its last reset, in order, whoever had them executed. Both are extended alike by
every request (`Supervisor.output_of_performAtFuel`): the commands that a driver executes are those
that the machine counts, and of the steps that are not counted none prints
(`Machine.printed_counted`).

Tokens can be read, so the output alone tells which values were printed
(`Supervisor.output_identifies_printed`).
-/

namespace TapeMachine

/-! ### Steps -/

namespace Machine

variable {m m' : Machine}

/-- The tokens of values. -/
def tokens (values : List Cell) : Array String :=
  (values.map Token.ofCell).toArray

/-- Outside the program nothing is printed. -/
theorem printed_of_outside (h : m.inside = false) (k : Nat) : m.printed k = [] := by
  induction k generalizing m with
  | zero => rfl
  | succ k ih =>
      have hnot : ¬ m.Prints := by
        intro hprints
        rw [hprints.inside] at h
        cases h
      rw [printed, if_neg hnot, List.nil_append, step_of_outside h]
      exact ih (m := { m with terminated := true }) h

/-- As many steps as have been counted print what all of them print. -/
theorem printed_counted (m : Machine) (k : Nat) :
    m.printed ((Machine.step^[k] m).stepCount - m.stepCount) = m.printed k := by
  induction k generalizing m with
  | zero => simp
  | succ k ih =>
      by_cases hin : m.inside = true
      · have hcount := stepCount_step_of_inside hin
        have hle : m.step.stepCount ≤ (Machine.step^[k] m.step).stepCount :=
          Leads.stepCount_le ⟨k, rfl⟩
        have hsplit : (Machine.step^[k] m.step).stepCount - m.stepCount =
            (Machine.step^[k] m.step).stepCount - m.step.stepCount + 1 := by omega
        rw [Function.iterate_succ_apply, hsplit, printed, printed, ih m.step]
      · rw [Bool.not_eq_true] at hin
        rw [printed_of_outside hin, printed_of_outside hin]

/-- **Whatever drives a machine prints what the commands print that it counts.** -/
theorem Leads.output_eq (h : m.Leads m') :
    m'.output = m.output ++ tokens (m.printed (m'.stepCount - m.stepCount)) := by
  obtain ⟨k, rfl⟩ := h
  rw [printed_counted, output_iterate_step]
  rfl

end Machine

/-! ### Sessions -/

/-- Whether a request starts the program anew. -/
def SessionRequest.Resets : SessionRequest → Prop
  | .reset => True
  | _ => False

namespace Supervisor

open Machine

/-- A session that some sequence of requests has led to, and the values that were under the head at
the printing commands that it has executed since its start or its last reset, in order. -/
inductive HasPrinted : Supervisor → List Cell → Prop
  | start {program : Datum} {watch : Option (Nat → Bool)} {s : Supervisor} :
      Supervisor.ofDatum program watch = .ok s → HasPrinted s []
  | reset {s s' : Supervisor} {values : List Cell} {fuel : Nat} {result : Except Fault Reply} :
      HasPrinted s values → s.performAtFuel fuel .reset = some (result, s') → HasPrinted s' []
  | request {s s' : Supervisor} {values : List Cell} {fuel : Nat} {request : SessionRequest}
      {result : Except Fault Reply} : HasPrinted s values → ¬ request.Resets →
      s.performAtFuel fuel request = some (result, s') →
      HasPrinted s' (values ++ s.machine.printed (s'.machine.stepCount - s.machine.stepCount))

/-- **A request appends the tokens of the values that it prints.** -/
theorem output_of_performAtFuel {s s' : Supervisor} {fuel : Nat} {request : SessionRequest}
    {result : Except Fault Reply} (hresets : ¬ request.Resets)
    (h : s.performAtFuel fuel request = some (result, s')) :
    s'.machine.output = s.machine.output ++
      tokens (s.machine.printed (s'.machine.stepCount - s.machine.stepCount)) := by
  have hsame : s'.machine.output = s.machine.output → s'.machine.stepCount = s.machine.stepCount →
      s'.machine.output = s.machine.output ++
        tokens (s.machine.printed (s'.machine.stepCount - s.machine.stepCount)) := by
    intro houtput hcount
    rw [houtput, hcount, Nat.sub_self]
    simp [printed, tokens]
  cases request with
  | reset => exact absurd trivial hresets
  | loadOpcodes table =>
      obtain hmachine | ⟨cells, hfilled⟩ := performAtFuel_loadOpcodes_cases h
      · exact hsame (by rw [hmachine]) (by rw [hmachine])
      · exact hsame (by rw [hfilled]) (by rw [hfilled])
  | setIp ip =>
      cases h
      exact hsame rfl rfl
  | tape request =>
      cases h
      exact hsame rfl rfl
  | _ => exact (performAtFuel_leads h trivial).output_eq

/-- The output is made of the tokens of the values that were printed. -/
theorem HasPrinted.output_eq {s : Supervisor} {values : List Cell} (h : s.HasPrinted values) :
    s.machine.output = tokens values := by
  induction h with
  | @start program watch s hstart =>
      unfold ofDatum at hstart
      rcases htext : program.programText with fault | text
      · rw [htext] at hstart
        cases hstart
      · rw [htext] at hstart
        cases hstart
        rfl
  | reset _ hrequest _ =>
      cases hrequest
      rfl
  | request _ hresets hrequest ih =>
      rw [output_of_performAtFuel hresets hrequest, ih]
      simp [tokens]

/-- Every session that can be reached has printed something, if only nothing. -/
theorem Reachable.exists_hasPrinted {s : Supervisor} (h : s.Reachable) :
    ∃ values, s.HasPrinted values := by
  induction h with
  | start hstart => exact ⟨_, .start hstart⟩
  | @request s s' fuel request result _ hrequest ih =>
      obtain ⟨values, hvalues⟩ := ih
      cases request with
      | reset => exact ⟨_, .reset hvalues hrequest⟩
      | _ => exact ⟨_, .request hvalues id hrequest⟩

/-! ### Reading the output -/

/-- The tokens of values are read as the values. -/
theorem map_toInt?_tokens (values : List Cell) :
    (tokens values).toList.map Token.toInt? = values.map fun v => some v.toInt := by
  simp only [tokens, List.map_map, Function.comp_def, Token.toInt?_ofCell]

/-- Different values have different tokens. -/
theorem tokens_injective : Function.Injective tokens := by
  intro values values' h
  have hread : values.map (fun v => some v.toInt) = values'.map fun v => some v.toInt := by
    rw [← map_toInt?_tokens, ← map_toInt?_tokens, h]
  refine (List.map_inj_right ?_).mp hread
  intro v w hvw
  exact Int32.toInt_inj.mp (Option.some.inj hvw)

/-- **Output tokens identify the printed values.** Integers have a token if they are written with no
more than 4300 digits. The token is read as the integer, so that no two of them share one. Hence the
output of a machine, after any number of steps of any program, is read as the values under the head
at the printing commands among them, in order; a run need not come to an end for that. The same
holds for sessions, whatever drives them: each has printed the values that its output is read as,
and two sessions with the same output have printed the same. -/
theorem output_identifies_printed :
    (∀ n, (Token.ofInt? n).isSome ↔ n.natAbs < 10 ^ 4300) ∧
      (∀ n token, Token.ofInt? n = some token → Token.toInt? token = some n) ∧
      (∀ n k token, Token.ofInt? n = some token → Token.ofInt? k = some token → n = k) ∧
      (∀ text n, (Machine.step^[n] (Machine.load text)).output.toList.map Token.toInt? =
        ((Machine.load text).printed n).map fun v => some v.toInt) ∧
      (∀ s : Supervisor, s.Reachable → ∃ values, s.HasPrinted values ∧
        s.machine.output.toList.map Token.toInt? = values.map fun v => some v.toInt) ∧
      ∀ (s s' : Supervisor) (values values' : List Cell), s.HasPrinted values →
        s'.HasPrinted values' → s.machine.output = s'.machine.output → values = values' := by
  refine ⟨Token.isSome_ofInt?_iff, fun _ _ => Token.toInt?_of_ofInt?,
    fun _ _ _ => Token.eq_of_ofInt?, ?_, ?_, ?_⟩
  · intro text n
    have houtput : (Machine.step^[n] (Machine.load text)).output =
        tokens ((Machine.load text).printed n) := by
      rw [output_iterate_step]
      exact Array.empty_append
    rw [houtput, map_toInt?_tokens]
  · intro s hs
    obtain ⟨values, hvalues⟩ := hs.exists_hasPrinted
    refine ⟨values, hvalues, ?_⟩
    rw [hvalues.output_eq, map_toInt?_tokens]
  · intro s s' values values' h h' hsame
    rw [h.output_eq, h'.output_eq] at hsame
    exact tokens_injective hsame

/-- An integer far beyond the cells; and a session that prints, and prints a value below zero by a
batch. Its output is that of a session that takes single steps, so it has printed what that one has
printed. -/
theorem output_identifies_printed_below_zero :
    (∃ token, Token.ofInt? (-2 ^ 99) = some token ∧ Token.toInt? token = some (-2 ^ 99) ∧
      ∀ n, Token.ofInt? n = some token → n = -2 ^ 99) ∧
    ∃ s : Supervisor, s.Reachable ∧ s.machine.output = #["<NUL>", "<value -1>"] ∧
      s.HasPrinted [0, -1] := by
  obtain ⟨-, hread, hinjective, -, hprinted, hsame⟩ := output_identifies_printed
  have hwritable : Numeral.Writable (-2 ^ 99) := by decide +kernel
  have htoken := Token.ofInt?_eq_some_iff.mpr ⟨hwritable, rfl⟩
  refine ⟨⟨_, htoken, hread _ _ htoken, fun n hn => hinjective _ _ _ hn htoken⟩, ?_⟩
  let fresh : Supervisor := { machine := Machine.load ".-." }
  have hfresh : Supervisor.ofDatum (.text ".-.") none = .ok fresh := rfl
  have hbatch : (fresh.step.batchStep 2).2.Reachable :=
    .request (.request (.start hfresh)
      (show fresh.performAtFuel 0 .watchedStep = some (.ok _, fresh.step) from rfl))
      (show fresh.step.performAtFuel 0 (.batchStep 2) = some (.ok _, _) from rfl)
  have htrace := HasPrinted.request (.start hfresh) id
    (show fresh.performAtFuel 0 (.trace 3) = some (.ok _, _) from rfl)
  obtain ⟨values, hvalues, -⟩ := hprinted _ hbatch
  have heq : values = [0, -1] :=
    (hsame _ _ _ _ hvalues htrace (by decide +kernel)).trans (by decide +kernel)
  exact ⟨_, hbatch, by decide +kernel, heq ▸ hvalues⟩

/-- **An integer of 4301 digits has no token.** So there is no way to tell every integer from its
token. -/
theorem no_token_of_too_many_digits :
    Token.ofInt? (10 ^ 4300 : Nat) = none ∧
      ¬ ∃ decode : String → Option Int, ∀ n, (Token.ofInt? n).bind decode = some n := by
  have hnone : Token.ofInt? (10 ^ 4300 : Nat) = none := by
    rw [← Option.not_isSome_iff_eq_none, Token.isSome_ofInt?_iff, Int.natAbs_natCast]
    exact Nat.lt_irrefl _
  refine ⟨hnone, ?_⟩
  rintro ⟨decode, hdecode⟩
  have hread := hdecode (10 ^ 4300 : Nat)
  rw [hnone] at hread
  cases hread

end Supervisor

end TapeMachine
