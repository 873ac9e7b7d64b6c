import TapeMachine.Proofs.Machine.CountedRun
import TapeMachine.Proofs.Structured.Code
import Mathlib.Data.Nat.Find

/-!
# Jumps and loops

Structured code has a meaning of its own, without positions and jumps: `Code.Runs` says which tape
and output it ends with and what it costs. A loop runs its body first and repeats it while the
current cell is not zero; a command costs one step, and each iteration two more than its body.

The machine and the code are compared stretch by stretch. If the code of a stretch runs, the machine
goes through the stretch in as many steps (`Code.Runs.through`, by induction on the derivation). If
the machine leaves the program at all, the code of every stretch that it comes to runs
(`Code.exists_runs`, by induction on the number of steps: each part of the code is reached with
fewer of them left). Together they say that the two agree on every text (`Code.leaves_iff_runs`).
-/

namespace TapeMachine

/-! ### The meaning of structured code -/

/-- What structured code works on. -/
structure Config where
  tape : Tape
  output : Array String
deriving DecidableEq, Repr

/-- What a command does for its effect alone. A bracket by itself does nothing. -/
def Config.perform (s : Config) : Command → Config
  | .increment => { s with tape := s.tape.increment }
  | .decrement => { s with tape := s.tape.decrement }
  | .right => { s with tape := s.tape.moveRight }
  | .left => { s with tape := s.tape.moveLeft }
  | .print => { s with output := s.output.push (Token.ofCell s.tape.read) }
  | .opening | .closing | .comment => s

/-- The code comes to an end, from the first configuration at the given cost with the second. -/
inductive Code.Runs : Code → Config → Nat → Config → Prop
  | done {s : Config} : Runs .done s 0 s
  | basic {c : Command} {rest : Code} {s u : Config} {n : Nat} :
      Runs rest (s.perform c) n u → Runs (.basic c rest) s (n + 1) u
  | again {body rest : Code} {s t u : Config} {n k : Nat} : Runs body s n t → t.tape.read ≠ 0 →
      Runs (.loop body rest) t k u → Runs (.loop body rest) s (n + 2 + k) u
  | leave {body rest : Code} {s t u : Config} {n k : Nat} : Runs body s n t → t.tape.read = 0 →
      Runs rest t k u → Runs (.loop body rest) s (n + 2 + k) u

/-! ### Machines at a position -/

namespace Machine

/-- The machine executes the text, is at the given position and has the given tape and output. -/
structure At (text : List Char) (i : Nat) (s : Config) (m : Machine) : Prop where
  program : m.program = Program.ofChars text
  ip : m.ip = i
  tape : m.tape = s.tape
  output : m.output = s.output

namespace At

variable {text : List Char} {i k : Nat} {s : Config} {m : Machine} {c : Char}

/-- At a position of the text the command is that of the character. -/
theorem commandAt? (h : At text i s m) (hc : text[i]? = some c) :
    m.program.commandAt? m.ip = some (Command.ofChar c) := by
  rw [h.program, h.ip]
  simp [Compiled.commandAt?, Compiled.charAt?, Program.ofChars, hc]

theorem inside (h : At text i s m) (hc : text[i]? = some c) : m.Inside :=
  Compiled.inside_of_commandAt? (h.commandAt? hc)

/-- At the end of the text the machine is outside the program. -/
theorem not_inside (h : At text text.length s m) : ¬ m.Inside := by
  rw [Inside, Machine.inside, h.program, h.ip]
  simp [Compiled.inside, Program.ofChars]

/-- A command that does not jump has its effect, and the machine goes on to the next position. -/
theorem step_of_no_jump (h : At text i s m) (hc : text[i]? = some c)
    (hj : m.jump? (Command.ofChar c) = none) :
    At text (i + 1) (s.perform (Command.ofChar c)) m.step := by
  obtain ⟨hprogram, hip, htape, houtput⟩ := h
  rw [step_of_fallthrough (At.commandAt? ⟨hprogram, hip, htape, houtput⟩ hc) hj]
  refine ⟨?_, ?_, ?_, ?_⟩
  · rw [← hprogram]
    simp [advance]
  · simp [advance, hip]
  · cases Command.ofChar c <;> simp [advance, effect, Config.perform, htape]
  · cases Command.ofChar c <;> simp [advance, effect, Config.perform, htape, houtput]

/-- A character that is not paired has its effect. -/
theorem step_of_unpaired (h : At text i s m) (hc : text[i]? = some c)
    (hun : Bracket.Unpaired text i) : At text (i + 1) (s.perform (Command.ofChar c)) m.step := by
  apply h.step_of_no_jump hc
  have hnone : m.program.jumpAt? m.ip = none := by
    rw [h.program, h.ip, Bracket.jumpAt?_of_unpaired hun]
  unfold jump?
  split
  · simp [hnone]
  · rfl

/-- An opening bracket does nothing. -/
theorem step_of_opening (h : At text i s m) (hpair : (k, i) ∈ Bracket.pairs text) :
    m.Inside ∧ At text (i + 1) s m.step := by
  have hc := (Bracket.brackets_of_mem_pairs hpair).2
  exact ⟨h.inside hc, h.step_of_no_jump hc rfl⟩

/-- A closing bracket returns onto its opening bracket while the current cell is not zero. -/
theorem step_of_again (h : At text k s m) (hpair : (k, i) ∈ Bracket.pairs text)
    (hread : s.tape.read ≠ 0) : m.Inside ∧ At text i s m.step := by
  have hc := (Bracket.brackets_of_mem_pairs hpair).1
  have hj : m.jump? (Command.ofChar ']') = some i := by
    have hjump := (Bracket.jumpAt?_eq_some_iff text k i).mpr hpair
    simp only [jump?, Command.ofChar, h.program, h.ip, h.tape, if_neg hread, hjump]
  refine ⟨h.inside hc, ?_⟩
  rw [step_of_jump (h.commandAt? hc) hj]
  exact ⟨h.program, rfl, h.tape, h.output⟩

/-- A closing bracket is passed when the current cell is zero. -/
theorem step_of_leave (h : At text k s m) (hpair : (k, i) ∈ Bracket.pairs text)
    (hread : s.tape.read = 0) : m.Inside ∧ At text (k + 1) s m.step := by
  have hc := (Bracket.brackets_of_mem_pairs hpair).1
  have hj : m.jump? (Command.ofChar ']') = none := by
    simp only [jump?, Command.ofChar, h.tape, if_pos hread]
  exact ⟨h.inside hc, h.step_of_no_jump hc hj⟩

/-- A character that has no partner, or whose partner is not returned to, has its effect. -/
theorem step_of_passing (h : At text i s m) (hc : text[i]? = some c)
    (hpass : ∀ o, (i, o) ∈ Bracket.pairs text → s.tape.read = 0) :
    At text (i + 1) (s.perform (Command.ofChar c)) m.step := by
  apply h.step_of_no_jump hc
  unfold jump?
  split
  · split_ifs with hread
    · rfl
    · rcases hjump : m.program.jumpAt? m.ip with _ | o
      · rfl
      · rw [h.program, h.ip] at hjump
        rw [h.tape] at hread
        exact absurd (hpass o ((Bracket.jumpAt?_eq_some_iff text i o).mp hjump)) hread
  · rfl

/-- **Two machines at the same character, each in its own text, take the same step.** The partners
of the character correspond under `f`, and the machines have equal tapes. Then both return, to
positions that correspond under `f`, or both have the effect of the character and go on. -/
theorem step_alongside {text' : List Char} {i' : Nat} {s' : Config} {m' : Machine} {f : Nat → Nat}
    (h : At text i s m) (h' : At text' i' s' m') (hc : text[i]? = some c)
    (hc' : text'[i']? = some c) (htape : s'.tape = s.tape)
    (hpairs : ∀ o', (i', o') ∈ Bracket.pairs text' ↔
      ∃ o, (i, o) ∈ Bracket.pairs text ∧ o' = f o) :
    (∃ o, (i, o) ∈ Bracket.pairs text ∧ At text o s m.step ∧ At text' (f o) s' m'.step) ∨
      (At text (i + 1) (s.perform (Command.ofChar c)) m.step ∧
        At text' (i' + 1) (s'.perform (Command.ofChar c)) m'.step) := by
  by_cases hjump : ∃ o, (i, o) ∈ Bracket.pairs text ∧ s.tape.read ≠ 0
  · obtain ⟨o, hpair, hread⟩ := hjump
    have hpair' := (hpairs (f o)).mpr ⟨o, hpair, rfl⟩
    have hread' : s'.tape.read ≠ 0 := by rwa [htape]
    exact .inl ⟨o, hpair, (h.step_of_again hpair hread).2, (h'.step_of_again hpair' hread').2⟩
  · have hpass : ∀ o, (i, o) ∈ Bracket.pairs text → s.tape.read = 0 := by
      intro o hpair
      by_contra hread
      exact hjump ⟨o, hpair, hread⟩
    have hpass' : ∀ o', (i', o') ∈ Bracket.pairs text' → s'.tape.read = 0 := by
      intro o' hpair'
      obtain ⟨o, hpair, -⟩ := (hpairs o').mp hpair'
      rw [htape]
      exact hpass o hpair
    exact .inr ⟨h.step_of_passing hc hpass, h'.step_of_passing hc' hpass'⟩

/-- A machine is inside its program as long as its position is one of the text. -/
theorem inside_iff (h : At text i s m) : m.inside = true ↔ i < text.length := by
  rw [Machine.inside, h.program, h.ip]
  simp [Compiled.inside, Program.ofChars]

/-- Outside the program a step changes neither the position nor the configuration. -/
theorem step_of_outside (h : At text i s m) (hout : m.inside = false) : At text i s m.step := by
  rw [Machine.step_of_outside hout]
  exact ⟨h.program, h.ip, h.tape, h.output⟩

end At

/-- A run between two single steps, and what follows. -/
theorem Through.around {P : Machine → Prop} {n k : Nat} {a b c : Machine} (ha : P a)
    (hab : Through P n a.step b) (hb : P b) (hbc : Through P k b.step c) :
    Through P (n + 2 + k) a c := by
  have hall := (Through.step ha hab).trans (.step hb hbc)
  rwa [show n + 1 + (k + 1) = n + 2 + k by omega] at hall

/-- The machine leaves its program after exactly `n` steps, each of which is counted, with the given
tape and output. -/
structure LeavesAfter (m : Machine) (n : Nat) (s : Config) : Prop where
  stays : ∀ k < n, (Machine.step^[k] m).inside = true
  leaves : (Machine.step^[n] m).inside = false
  tape : (Machine.step^[n] m).tape = s.tape
  output : (Machine.step^[n] m).output = s.output
  stepCount : (Machine.step^[n] m).stepCount = m.stepCount + n

end Machine

/-! ### From the code to the machine -/

namespace Code

open Machine

/-- **Where the code of a stretch runs, the machine goes through the stretch**, in as many steps as
the code costs, and comes out with the same tape and output. -/
theorem Runs.through {text : List Char} {code : Code} {s u : Config} {n : Nat}
    (h : Runs code s n u) {i j : Nat} {m : Machine} (hreads : Reads text i j code)
    (hm : At text i s m) : ∃ m', Through Inside n m m' ∧ At text j u m' := by
  induction h generalizing i j m with
  | done =>
      cases hreads
      exact ⟨m, .refl m, hm⟩
  | basic _ ih =>
      cases hreads with
      | basic hc hun hrest =>
          obtain ⟨m', hrun, hm'⟩ := ih hrest (hm.step_of_unpaired hc hun)
          exact ⟨m', .step (hm.inside hc) hrun, hm'⟩
  | @again body rest s t u n k _ hread _ ihbody ihloop =>
      cases hreads with
      | @loop _ close _ _ _ hpair hbody hrest =>
          obtain ⟨hin, hm₁⟩ := hm.step_of_opening hpair
          obtain ⟨m₂, hrun, hm₂⟩ := ihbody hbody hm₁
          obtain ⟨hin₂, hm₃⟩ := hm₂.step_of_again hpair hread
          obtain ⟨m', hrun', hm'⟩ := ihloop (.loop hpair hbody hrest) hm₃
          exact ⟨m', .around hin hrun hin₂ hrun', hm'⟩
  | @leave body rest s t u n k _ hread _ ihbody ihrest =>
      cases hreads with
      | @loop _ close _ _ _ hpair hbody hrest =>
          obtain ⟨hin, hm₁⟩ := hm.step_of_opening hpair
          obtain ⟨m₂, hrun, hm₂⟩ := ihbody hbody hm₁
          obtain ⟨hin₂, hm₃⟩ := hm₂.step_of_leave hpair hread
          obtain ⟨m', hrun', hm'⟩ := ihrest hrest hm₃
          exact ⟨m', .around hin hrun hin₂ hrun', hm'⟩

/-! ### From the machine to the code -/

/-- **Where the machine leaves the program, the code of the stretch that it is at runs**, at no more
than the cost of the whole way. -/
theorem exists_runs {text : List Char} {code : Code} {s : Config} {n i j : Nat} {m m' : Machine}
    (hreads : Reads text i j code) (hm : At text i s m) (hrun : Through Inside n m m')
    (hend : ¬ m'.Inside) : ∃ k u, k ≤ n ∧ Runs code s k u := by
  induction n using Nat.strongRecOn generalizing code s i j m with
  | ind n ih =>
      cases hreads with
      | done => exact ⟨0, s, Nat.zero_le n, .done⟩
      | basic hc hun hrest =>
          obtain ⟨n', rfl, hrun'⟩ := hrun.exists_step (hm.inside hc) hend
          obtain ⟨k, u, hk, hruns⟩ := ih n' (by omega) hrest (hm.step_of_unpaired hc hun) hrun'
          exact ⟨k + 1, u, by omega, .basic hruns⟩
      | @loop _ _ _ body rest hpair hbody hrest =>
          obtain ⟨hin, hm₁⟩ := hm.step_of_opening hpair
          obtain ⟨n₁, rfl, hrun₁⟩ := hrun.exists_step hin hend
          -- the body runs, and brings the machine to the closing bracket
          obtain ⟨k, t, hk, hruns⟩ := ih n₁ (by omega) hbody hm₁ hrun₁
          obtain ⟨m₂, hthrough, hm₂⟩ := hruns.through hbody hm₁
          obtain ⟨-, hrun₂⟩ := hrun₁.remainder hend hthrough
          by_cases hread : t.tape.read = 0
          · obtain ⟨hin₂, hm₃⟩ := hm₂.step_of_leave hpair hread
            obtain ⟨n₂, hn₂, hrun₃⟩ := hrun₂.exists_step hin₂ hend
            obtain ⟨l, u, hl, hafter⟩ := ih n₂ (by omega) hrest hm₃ hrun₃
            exact ⟨k + 2 + l, u, by omega, .leave hruns hread hafter⟩
          · obtain ⟨hin₂, hm₃⟩ := hm₂.step_of_again hpair hread
            obtain ⟨n₂, hn₂, hrun₃⟩ := hrun₂.exists_step hin₂ hend
            obtain ⟨l, u, hl, hafter⟩ := ih n₂ (by omega) (.loop hpair hbody hrest) hm₃ hrun₃
            exact ⟨k + 2 + l, u, by omega, .again hruns hread hafter⟩

/-! ### Agreement -/

section agreement

variable {text : List Char} {s u : Config} {m : Machine} {n : Nat}

/-- The machine leaves the program where the code ends. -/
theorem Runs.leavesAfter (hm : At text 0 s m) (h : Runs (ofChars text) s n u) :
    m.LeavesAfter n u := by
  obtain ⟨m', hrun, hm'⟩ := h.through (reads_ofChars text) hm
  have hend : m'.inside = false := Bool.eq_false_iff.mpr hm'.not_inside
  have hcount := hrun.stepCount_of_inside
  have heq := hrun.eq_iterate
  rw [heq] at hm' hend hcount
  exact ⟨hrun.along, hend, hm'.tape, hm'.output, hcount⟩

/-- The code ends if the machine leaves the program, and it ends where the machine does. -/
theorem runs_of_leavesAfter (hm : At text 0 s m) (h : m.LeavesAfter n u) :
    Runs (ofChars text) s n u := by
  have hrun : Through Inside n m (Machine.step^[n] m) := .of_along h.stays
  have hend : ¬ (Machine.step^[n] m).Inside := Bool.eq_false_iff.mp h.leaves
  obtain ⟨k, v, -, hruns⟩ := exists_runs (reads_ofChars text) hm hrun hend
  obtain ⟨m', hrun', hm'⟩ := hruns.through (reads_ofChars text) hm
  obtain ⟨rfl, heq⟩ := hrun.unique hend hrun' hm'.not_inside
  obtain rfl : v = u := by
    rw [← heq] at hm'
    cases u
    cases v
    simp only [Config.mk.injEq]
    exact ⟨hm'.tape.symm.trans h.tape, hm'.output.symm.trans h.output⟩
  exact hruns

/-- A machine that does not stay in its program leaves it after some number of steps. -/
theorem exists_leavesAfter (h : ¬ ∀ k, (Machine.step^[k] m).inside = true) :
    ∃ n s, m.LeavesAfter n s := by
  have hex : ∃ k, (Machine.step^[k] m).inside = false := by simpa using h
  have hleaves := Nat.find_spec hex
  have hstays : ∀ k < Nat.find hex, (Machine.step^[k] m).inside = true := by
    intro k hk
    simpa using Nat.find_min hex hk
  have hrun : Through Inside (Nat.find hex) m _ := .of_along hstays
  exact ⟨Nat.find hex, ⟨_, _⟩, hstays, hleaves, rfl, rfl, hrun.stepCount_of_inside⟩

end agreement

/-- **Jumps execute the loops of the code.** Every text has one reading as structured code. From any
tape and output at the first position, the machine first leaves the program after exactly `n` steps
if and only if that code ends at the cost `n`, with the same tape and output; and the machine runs
forever if and only if the code does not end. -/
theorem leaves_iff_runs (text : List Char) (t : Tape) (o : Array String) :
    (∀ code, Reads text 0 text.length code ↔ code = ofChars text) ∧
    (∀ n u,
      ({ program := Program.ofChars text, tape := t, output := o } : Machine).LeavesAfter n u ↔
        Runs (ofChars text) ⟨t, o⟩ n u) ∧
    ((∀ k, (Machine.step^[k] { program := Program.ofChars text, tape := t, output := o }).inside =
        true) ↔
      ¬ ∃ n u, Runs (ofChars text) ⟨t, o⟩ n u) := by
  have hm : At text 0 ⟨t, o⟩ { program := Program.ofChars text, tape := t, output := o } :=
    ⟨rfl, rfl, rfl, rfl⟩
  refine ⟨?_, ?_, ?_⟩
  · intro code
    constructor
    · intro hreads
      exact hreads.unique (reads_ofChars text)
    · rintro rfl
      exact reads_ofChars text
  · intro n u
    exact ⟨runs_of_leavesAfter hm, Runs.leavesAfter hm⟩
  · constructor
    · rintro hforever ⟨n, u, hruns⟩
      have hout := (hruns.leavesAfter hm).leaves
      rw [hforever n] at hout
      cases hout
    · intro hnone
      by_contra hleaves
      obtain ⟨n, u, hleft⟩ := exists_leavesAfter hleaves
      exact hnone ⟨n, u, runs_of_leavesAfter hm hleft⟩

end Code

end TapeMachine
