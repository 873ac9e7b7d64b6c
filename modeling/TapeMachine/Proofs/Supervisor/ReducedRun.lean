import TapeMachine.Proofs.Bracket.Reduced
import TapeMachine.Proofs.Machine.Mark
import TapeMachine.Proofs.Structured.Equivalence
import TapeMachine.Proofs.Supervisor.DriverAgreement

/-!
# Running the reduced text

A machine on the reduced text is where the machine on the text is, at the rank of its position, with
the same tape and output (`Machine.Reduces`). A step at a position that is kept is a step of both;
at any other position the machine on the text moves on alone (`Machine.Reduces.step_cases`). It does
so a bounded number of times in a row (`Machine.Reduces.exists_settled`), so neither machine can run
on while the other waits forever. Hence each finite part of one run is matched by a finite part of
the other (`Machine.Reduces.exists_iterate`, `Machine.Reduces.exists_iterate_of_reduced`), with the
same characters executed in the same order.

An unlimited run comes back exactly if the program is left (`Supervisor.exists_runAtFuel_none_iff`),
which the two machines do together (`Supervisor.reduced_runs_alike`).
-/

namespace TapeMachine

/-- What is kept of a program's text. -/
def Reduced.ofString (text : String) : String :=
  String.ofList (Reduced.ofChars text.toList)

namespace Machine

/-! ### What is executed -/

/-- The positions of the characters that the next `n` steps execute, in order. Outside the program
nothing is executed. -/
def executes (m : Machine) : Nat → List Nat
  | 0 => []
  | n + 1 => if m.inside then m.ip.toNat :: m.step.executes n else []

theorem executes_succ_of_inside {m : Machine} (h : m.inside = true) (n : Nat) :
    m.executes (n + 1) = m.ip.toNat :: m.step.executes n := by
  rw [executes, if_pos h]

theorem executes_of_outside {m : Machine} (h : m.inside = false) (n : Nat) :
    m.executes n = [] := by
  cases n with
  | zero => rfl
  | succ n => simp [executes, h]

/-- Outside the program the machine stays, with its tape and output. -/
theorem iterate_of_outside {m : Machine} (h : m.inside = false) (n : Nat) :
    (Machine.step^[n] m).inside = false ∧ (Machine.step^[n] m).tape = m.tape ∧
      (Machine.step^[n] m).output = m.output := by
  induction n generalizing m with
  | zero => exact ⟨h, rfl, rfl⟩
  | succ n ih =>
      rw [Function.iterate_succ_apply, step_of_outside h]
      exact ih (m := { m with terminated := true }) h

/-- What is executed in two stretches, one after the other. -/
theorem executes_add (m : Machine) (j n : Nat) :
    m.executes (j + n) = m.executes j ++ (Machine.step^[j] m).executes n := by
  induction j generalizing m with
  | zero => simp [executes]
  | succ j ih =>
      rw [Nat.succ_add, Function.iterate_succ_apply]
      by_cases hin : m.inside = true
      · rw [executes_succ_of_inside hin, executes_succ_of_inside hin, ih, List.cons_append]
      · rw [Bool.not_eq_true] at hin
        have hout := (iterate_of_outside hin (j + 1)).1
        rw [Function.iterate_succ_apply] at hout
        rw [executes_of_outside hin, executes_of_outside hin, executes_of_outside hout,
          List.append_nil]

/-- A program is left with one tape and one output only. -/
theorem eq_of_outside {m : Machine} {j n : Nat} (hj : (Machine.step^[j] m).inside = false)
    (hn : (Machine.step^[n] m).inside = false) :
    (Machine.step^[j] m).tape = (Machine.step^[n] m).tape ∧
      (Machine.step^[j] m).output = (Machine.step^[n] m).output := by
  have hforth := iterate_of_outside hj n
  have hback := iterate_of_outside hn j
  rw [← Function.iterate_add_apply] at hforth hback
  rw [Nat.add_comm] at hforth
  exact ⟨hforth.2.1.symm.trans hback.2.1, hforth.2.2.symm.trans hback.2.2⟩

/-! ### Two machines -/

/-- A character that is not kept has no effect. -/
theorem perform_of_not_keeps {text : List Char} {i : Nat} {c : Char} (hc : text[i]? = some c)
    (h : Reduced.keeps text i = false) (s : Config) : s.perform (Command.ofChar c) = s := by
  rw [Reduced.keeps_eq hc, Reduced.keepsChar] at h
  cases hcommand : Command.ofChar c <;> simp_all [Config.perform]

/-- At a character that is not kept a step only moves on. -/
theorem At.step_of_not_keeps {text : List Char} {i : Nat} {s : Config} {m : Machine}
    (h : At text i s m) (hi : i < text.length) (hkeeps : Reduced.keeps text i = false) :
    At text (i + 1) s m.step := by
  have hc : text[i]? = some text[i] := List.getElem?_eq_getElem hi
  have hnext := h.step_of_unpaired hc (Reduced.unpaired_of_not_keeps hkeeps)
  rwa [perform_of_not_keeps hc hkeeps] at hnext

/-- The second machine executes the reduced text, and is at the rank of the position of the first,
with the same tape and output. -/
def Reduces (text : List Char) (m m' : Machine) : Prop :=
  ∃ i s, i ≤ text.length ∧ At text i s m ∧ At (Reduced.ofChars text) (Reduced.rank text i) s m'

namespace Reduces

variable {text : List Char} {m m' : Machine}

theorem tape (h : Reduces text m m') : m'.tape = m.tape := by
  obtain ⟨i, s, -, hm, hm'⟩ := h
  rw [hm.tape, hm'.tape]

theorem output (h : Reduces text m m') : m'.output = m.output := by
  obtain ⟨i, s, -, hm, hm'⟩ := h
  rw [hm.output, hm'.output]

/-- When the text is left, the reduced text is left as well. -/
theorem outside (h : Reduces text m m') (hout : m.inside = false) : m'.inside = false := by
  obtain ⟨i, s, hi, hm, hm'⟩ := h
  have hend : i = text.length := by
    have hpast := mt hm.inside_iff.mpr (Bool.eq_false_iff.mp hout)
    omega
  rw [hend, Reduced.rank_length] at hm'
  rw [Bool.eq_false_iff, ne_eq, hm'.inside_iff]
  exact Nat.lt_irrefl _

/-- Outside the text, steps of the machines change nothing between them. -/
theorem iterate_of_outside (h : Reduces text m m') (hout : m.inside = false) (j n : Nat) :
    Reduces text (Machine.step^[j] m) (Machine.step^[n] m') := by
  have hstays : ∀ {whole : List Char} {i : Nat} {s : Config} {a : Machine} (k : Nat),
      At whole i s a → a.inside = false → At whole i s (Machine.step^[k] a) := by
    intro whole i s a k ha hout
    induction k with
    | zero => exact ha
    | succ k ih =>
        rw [Function.iterate_succ_apply']
        exact ih.step_of_outside (Machine.iterate_of_outside hout k).1
  have hout' := h.outside hout
  obtain ⟨i, s, hi, hm, hm'⟩ := h
  exact ⟨i, s, hi, hstays j hm hout, hstays n hm' hout'⟩

/-- **What a step does to the two machines.** At a character that is kept both execute it, the
second at the rank of the position of the first. At any other the first machine moves on alone. -/
theorem step_cases (h : Reduces text m m') (hin : m.inside = true) :
    (Reduced.keeps text m.ip.toNat = true ∧ m'.inside = true ∧
      m'.ip.toNat = Reduced.rank text m.ip.toNat ∧ Reduces text m.step m'.step) ∨
    (Reduced.keeps text m.ip.toNat = false ∧ Reduces text m.step m') := by
  obtain ⟨i, s, -, hm, hm'⟩ := h
  have hi := hm.inside_iff.mp hin
  have hc : text[i]? = some text[i] := List.getElem?_eq_getElem hi
  rw [hm.ip, hm'.ip, Int.toNat_natCast, Int.toNat_natCast]
  by_cases hkeeps : Reduced.keeps text i = true
  · have hc' : (Reduced.ofChars text)[Reduced.rank text i]? = some text[i] := by
      rw [Reduced.getElem?_rank hkeeps, hc]
    refine .inl ⟨hkeeps, hm'.inside hc', rfl, ?_⟩
    obtain ⟨o, hpair, hnext, hnext'⟩ | ⟨hnext, hnext'⟩ :=
      hm.step_alongside hm' hc hc' rfl (Reduced.mem_pairs_iff hkeeps)
    · have hopening := (Bracket.brackets_of_mem_pairs hpair).2
      have ho := (List.getElem?_eq_some_iff.mp hopening).1
      exact ⟨o, s, Nat.le_of_lt ho, hnext, hnext'⟩
    · rw [← Reduced.rank_succ_of_keeps hkeeps] at hnext'
      exact ⟨i + 1, _, hi, hnext, hnext'⟩
  · rw [Bool.not_eq_true] at hkeeps
    refine .inr ⟨hkeeps, i + 1, s, hi, hm.step_of_not_keeps hi hkeeps, ?_⟩
    rwa [Reduced.rank_succ_of_not_keeps hkeeps]

/-! ### From the text to the reduced text -/

/-- **Any part of the run on the text is matched by a part of the run on the reduced text**, which
is not longer and executes the characters that are kept. -/
theorem exists_iterate (h : Reduces text m m') (n : Nat) :
    ∃ k ≤ n, Reduces text (Machine.step^[n] m) (Machine.step^[k] m') ∧
      ((m.executes n).filter (Reduced.keeps text)).map (Reduced.rank text) = m'.executes k := by
  induction n generalizing m m' with
  | zero => exact ⟨0, Nat.le_refl 0, h, rfl⟩
  | succ n ih =>
      by_cases hin : m.inside = true
      · rw [executes_succ_of_inside hin]
        obtain ⟨hkeeps, hin', hip, hnext⟩ | ⟨hkeeps, hnext⟩ := h.step_cases hin
        · obtain ⟨k, hk, hreduces, hexecutes⟩ := ih hnext
          refine ⟨k + 1, by omega, hreduces, ?_⟩
          rw [List.filter_cons_of_pos hkeeps, List.map_cons, hexecutes,
            executes_succ_of_inside hin', hip]
        · obtain ⟨k, hk, hreduces, hexecutes⟩ := ih hnext
          refine ⟨k, by omega, hreduces, ?_⟩
          rw [List.filter_cons_of_neg (by simp [hkeeps]), hexecutes]
      · rw [Bool.not_eq_true] at hin
        refine ⟨0, Nat.zero_le _, h.iterate_of_outside hin (n + 1) 0, ?_⟩
        rw [executes_of_outside hin]
        rfl

/-! ### From the reduced text to the text -/

/-- **The first machine does not move on alone forever.** After some steps at characters that are
not kept it is at one that is, or has left the text. -/
theorem exists_settled (h : Reduces text m m') :
    ∃ j, Reduces text (Machine.step^[j] m) m' ∧
      (m.executes j).filter (Reduced.keeps text) = [] ∧
      ((Machine.step^[j] m).inside = true →
        Reduced.keeps text (Machine.step^[j] m).ip.toNat = true) := by
  obtain ⟨i, s, hi, hm, hm'⟩ := h
  -- the positions that remain in the text bound the characters that are passed
  induction hremaining : text.length - i generalizing i m with
  | zero =>
      refine ⟨0, ⟨i, s, hi, hm, hm'⟩, rfl, fun hin => ?_⟩
      have hlt := hm.inside_iff.mp hin
      omega
  | succ remaining ih =>
      have hlt : i < text.length := by omega
      have hin : m.inside = true := hm.inside_iff.mpr hlt
      have hip : m.ip.toNat = i := by rw [hm.ip, Int.toNat_natCast]
      by_cases hkeeps : Reduced.keeps text i = true
      · exact ⟨0, ⟨i, s, hi, hm, hm'⟩, rfl, fun _ => hip.symm ▸ hkeeps⟩
      · rw [Bool.not_eq_true] at hkeeps
        have hnext := hm.step_of_not_keeps hlt hkeeps
        rw [← Reduced.rank_succ_of_not_keeps hkeeps] at hm'
        obtain ⟨j, hreduces, hexecutes, hsettled⟩ := ih (i + 1) hlt hnext hm' (by omega)
        refine ⟨j + 1, hreduces, ?_, hsettled⟩
        rw [executes_succ_of_inside hin, hip, List.filter_cons_of_neg (by simp [hkeeps]), hexecutes]

/-- **Any part of the run on the reduced text is matched by a part of the run on the text**, of
which the characters that are kept are those executed. -/
theorem exists_iterate_of_reduced (h : Reduces text m m') (k : Nat) :
    ∃ n, Reduces text (Machine.step^[n] m) (Machine.step^[k] m') ∧
      ((m.executes n).filter (Reduced.keeps text)).map (Reduced.rank text) = m'.executes k := by
  induction k generalizing m m' with
  | zero => exact ⟨0, h, rfl⟩
  | succ k ih =>
      obtain ⟨j, hreduces, hpassed, hsettled⟩ := h.exists_settled
      by_cases hin : (Machine.step^[j] m).inside = true
      · obtain ⟨hkeeps, hin', hip, hnext⟩ | ⟨hkeeps, -⟩ := hreduces.step_cases hin
        · obtain ⟨n, hlater, hexecutes⟩ := ih hnext
          refine ⟨j + (n + 1), ?_, ?_⟩
          · rw [Nat.add_comm j, Function.iterate_add_apply, Function.iterate_succ_apply]
            exact hlater
          · rw [executes_add, List.filter_append, hpassed, List.nil_append,
              executes_succ_of_inside hin, List.filter_cons_of_pos hkeeps, List.map_cons, hexecutes,
              executes_succ_of_inside hin', hip]
        · rw [hsettled hin] at hkeeps
          cases hkeeps
      · rw [Bool.not_eq_true] at hin
        refine ⟨j, hreduces.iterate_of_outside hin 0 (k + 1), ?_⟩
        rw [hpassed, executes_of_outside (hreduces.outside hin)]
        rfl

/-- The text is left if the reduced text is. -/
theorem exists_outside (h : Reduces text m m') (hout : m'.inside = false) :
    ∃ n, (Machine.step^[n] m).inside = false := by
  obtain ⟨j, hreduces, -, hsettled⟩ := h.exists_settled
  refine ⟨j, ?_⟩
  by_contra hin
  rw [Bool.not_eq_false] at hin
  obtain ⟨-, hin', -⟩ | ⟨hkeeps, -⟩ := hreduces.step_cases hin
  · rw [hout] at hin'
    cases hin'
  · rw [hsettled hin] at hkeeps
    cases hkeeps

end Reduces

/-- Fresh machines on a text and on its reduced text. -/
theorem reduces_load (text : String) :
    Reduces text.toList (load text) (load (Reduced.ofString text)) := by
  refine ⟨0, ⟨Tape.blank, #[]⟩, Nat.zero_le _, ⟨rfl, rfl, rfl, rfl⟩, ⟨?_, rfl, rfl, rfl⟩⟩
  simp [load, Program.ofString, Reduced.ofString]

end Machine

/-! ### Unlimited runs -/

namespace Supervisor

open Machine

variable {s t : Supervisor} {fuel steps : Nat}

/-- Without a limit a driver goes on as long as the machine has not terminated. -/
theorem goesOn_none_iff (start : Nat) (m : Machine) : GoesOn none start m ↔ m.Live := by
  unfold GoesOn reached?
  simp

/-- What an unlimited run comes back with has left the program. -/
theorem outside_of_runAtFuel_none (hwatch : s.watch = none) (hmark : s.machine.Marked)
    (h : s.runAtFuel fuel none = some (steps, t)) :
    ∃ n, t.machine = Machine.step^[n] s.machine ∧ (Machine.step^[n] s.machine).inside = false := by
  obtain ⟨⟨n, hrun, hend⟩, -⟩ := runAtFuel_sound hwatch h
  have heq := hrun.eq_iterate
  have hterm : t.machine.terminated = true := by
    rw [goesOn_none_iff, Live, Bool.not_eq_false] at hend
    exact hend
  refine ⟨n, heq, ?_⟩
  rw [← heq]
  exact (hmark.of_leads (.of_through hrun)).inside_of_terminated hterm

/-- **An unlimited run comes back exactly if the program is left.** -/
theorem exists_runAtFuel_none_iff (hwatch : s.watch = none) (hmark : s.machine.Marked) :
    (∃ fuel result, s.runAtFuel fuel none = some result) ↔
      ∃ n, (Machine.step^[n] s.machine).inside = false := by
  constructor
  · rintro ⟨fuel, ⟨steps, t⟩, h⟩
    obtain ⟨n, -, hout⟩ := outside_of_runAtFuel_none hwatch hmark h
    exact ⟨n, hout⟩
  · rintro ⟨n, hout⟩
    -- a step from outside sets the mark, so there is a first machine that has it
    have hterm : ∃ k, (Machine.step^[k] s.machine).terminated = true := by
      refine ⟨n + 1, ?_⟩
      rw [Function.iterate_succ_apply', step_of_outside hout]
    have hlive : ∀ k < Nat.find hterm, GoesOn none s.machine.stepCount
        (Machine.step^[k] s.machine) := by
      intro k hk
      rw [goesOn_none_iff]
      exact Bool.eq_false_iff.mpr (Nat.find_min hterm hk)
    refine (exists_runAtFuel_iff hwatch).mpr ⟨_, Nat.find hterm, .of_along hlive, ?_⟩
    exact not_goesOn_of_terminated (Nat.find_spec hterm)

/-- **Comments and brackets without a partner do not matter.** Take them out of a program's text.
On fresh machines, without a limit:

* a run of the one text comes back exactly if a run of the other does, and then both have printed
  the same and leave the same tape, with its whole arena;
* a character that is kept stands at its rank in the reduced text, and the characters that are kept
  are executed in the same order: however many steps the one machine takes, some number of steps of
  the other executes the same, and leads to the same tape and output.
-/
theorem reduced_runs_alike (text : String) :
    ((∃ fuel result,
        ({ machine := Machine.load text } : Supervisor).runAtFuel fuel none = some result) ↔
      ∃ fuel result,
        ({ machine := Machine.load (Reduced.ofString text) } : Supervisor).runAtFuel fuel none =
          some result) ∧
    (∀ fuel fuel' steps steps' t t',
      ({ machine := Machine.load text } : Supervisor).runAtFuel fuel none = some (steps, t) →
      ({ machine := Machine.load (Reduced.ofString text) } : Supervisor).runAtFuel fuel' none =
        some (steps', t') →
      t'.machine.output = t.machine.output ∧ t'.machine.tape = t.machine.tape) ∧
    (∀ i, Reduced.keeps text.toList i = true →
      (Reduced.ofString text).toList[Reduced.rank text.toList i]? = text.toList[i]?) ∧
    (∀ n, ∃ k ≤ n,
      (((Machine.load text).executes n).filter (Reduced.keeps text.toList)).map
          (Reduced.rank text.toList) = (Machine.load (Reduced.ofString text)).executes k ∧
      (Machine.step^[k] (Machine.load (Reduced.ofString text))).tape =
        (Machine.step^[n] (Machine.load text)).tape ∧
      (Machine.step^[k] (Machine.load (Reduced.ofString text))).output =
        (Machine.step^[n] (Machine.load text)).output) ∧
    (∀ k, ∃ n,
      (((Machine.load text).executes n).filter (Reduced.keeps text.toList)).map
          (Reduced.rank text.toList) = (Machine.load (Reduced.ofString text)).executes k ∧
      (Machine.step^[k] (Machine.load (Reduced.ofString text))).tape =
        (Machine.step^[n] (Machine.load text)).tape ∧
      (Machine.step^[k] (Machine.load (Reduced.ofString text))).output =
        (Machine.step^[n] (Machine.load text)).output) := by
  have hstart := reduces_load text
  have hmark : ∀ source : String, (Machine.load source).Marked := fun source =>
    .start rfl rfl
  refine ⟨?_, ?_, ?_, ?_, ?_⟩
  · rw [exists_runAtFuel_none_iff rfl (hmark text), exists_runAtFuel_none_iff rfl (hmark _)]
    constructor
    · rintro ⟨n, hout⟩
      obtain ⟨k, -, hreduces, -⟩ := hstart.exists_iterate n
      exact ⟨k, hreduces.outside hout⟩
    · rintro ⟨k, hout⟩
      obtain ⟨n, hreduces, -⟩ := hstart.exists_iterate_of_reduced k
      obtain ⟨j, hleft⟩ := hreduces.exists_outside hout
      rw [← Function.iterate_add_apply] at hleft
      exact ⟨j + n, hleft⟩
  · intro fuel fuel' steps steps' t t' h h'
    obtain ⟨n, ht, hout⟩ := outside_of_runAtFuel_none rfl (hmark text) h
    obtain ⟨n', ht', hout'⟩ := outside_of_runAtFuel_none rfl (hmark _) h'
    obtain ⟨k, -, hreduces, -⟩ := hstart.exists_iterate n
    obtain ⟨htape, houtput⟩ := eq_of_outside hout' (hreduces.outside hout)
    rw [ht, ht']
    exact ⟨houtput.trans hreduces.output, htape.trans hreduces.tape⟩
  · intro i hkeeps
    rw [Reduced.ofString, String.toList_ofList, Reduced.getElem?_rank hkeeps]
  · intro n
    obtain ⟨k, hk, hreduces, hexecutes⟩ := hstart.exists_iterate n
    exact ⟨k, hk, hexecutes, hreduces.tape, hreduces.output⟩
  · intro k
    obtain ⟨n, hreduces, hexecutes⟩ := hstart.exists_iterate_of_reduced k
    exact ⟨n, hexecutes, hreduces.tape, hreduces.output⟩

/-- A loop with brackets around it that have no partner, and comments between. -/
theorem reduced_runs_alike_around_loop :
    Reduced.ofString "]a++[b>+<-]c[." = "++[>+<-]." ∧
    ∃ fuel result,
      ({ machine := Machine.load "++[>+<-]." } : Supervisor).runAtFuel fuel none = some result := by
  have hreduced : Reduced.ofString "]a++[b>+<-]c[." = "++[>+<-]." := by decide +kernel
  have hruns : (({ machine := Machine.load "]a++[b>+<-]c[." } : Supervisor).runAtFuel 30
      none).isSome = true := by decide +kernel
  obtain ⟨result, hresult⟩ := Option.isSome_iff_exists.mp hruns
  have hreturns := (reduced_runs_alike "]a++[b>+<-]c[.").1.mp ⟨30, result, hresult⟩
  rw [hreduced] at hreturns
  exact ⟨hreduced, hreturns⟩

end Supervisor

end TapeMachine
