import TapeMachine.Proofs.Bracket.Matching
import TapeMachine.Proofs.Machine.CountedRun

/-!
# The mark of termination

A step looks at the instruction pointer and never at the mark, so that nothing happens after the end
of a program is not written down anywhere: it is a fact about where the pointer can be. The
invariant `Machine.Marked` ties the two together. The pointer never leaves the program by more than
one position, the mark is only set with the pointer right behind the last character, and in a
program that has any characters it is set as soon as the pointer is there.

From it follow the two facts that the drivers rest on.

* A step of a terminated machine changes nothing (`Machine.Marked.step_eq_self`).
* In a program with characters every step of a machine that has not terminated is counted
  (`Machine.Marked.stepCount_step`). So a machine is determined by where it started and by its step
  count, however many steps were asked for (`Machine.Marked.iterate_stepCount`).
-/

namespace TapeMachine

namespace Compiled

/-- The number of characters of a program. -/
def length (p : Compiled) : Nat :=
  p.text.size

theorem inside_eq_true_iff (p : Compiled) (i : Int) :
    p.inside i = true ↔ 0 ≤ i ∧ i < p.length := by
  unfold inside length
  exact decide_eq_true_iff

end Compiled

namespace Program

@[simp] theorem length_ofChars (text : List Char) : (ofChars text).length = text.length :=
  rfl

/-- Jumps stay inside the program. -/
theorem lt_length_of_jumpAt? {p : Program} {i : Int} {target : Nat}
    (h : p.jumpAt? i = some target) : target < p.length := by
  have hi : 0 ≤ i := by
    by_contra hneg
    unfold jumpAt? at h
    rw [if_neg hneg] at h
    cases h
  obtain ⟨k, rfl⟩ := Int.eq_ofNat_of_zero_le hi
  rw [p.eq_ofChars] at h ⊢
  have hpair := (Bracket.jumpAt?_eq_some_iff p.text.toList k target).mp h
  have hopening := (Bracket.brackets_of_mem_pairs hpair).2
  rw [length_ofChars]
  by_contra hout
  rw [List.getElem?_eq_none (Nat.le_of_not_lt hout)] at hopening
  cases hopening

end Program

namespace Machine

/-- A machine jumps to a position inside the program. -/
theorem lt_length_of_jump? {m : Machine} {c : Command} {target : Nat}
    (hj : m.jump? c = some target) : target < m.program.length := by
  cases c with
  | closing =>
      unfold jump? at hj
      split_ifs at hj
      exact Program.lt_length_of_jumpAt? hj
  | _ => cases hj

/-- The pointer is inside the program or right behind it, and the mark says which. A program without
characters is the exception: its pointer is behind it from the start, which a first step has to find
out. -/
structure Marked (m : Machine) : Prop where
  nonneg : 0 ≤ m.ip
  le_length : m.ip ≤ m.program.length
  ip_of_terminated : m.terminated = true → m.ip = m.program.length
  terminated_of_ip : m.program.length ≠ 0 → m.ip = m.program.length → m.terminated = true

namespace Marked

variable {m : Machine}

/-- A machine at the first position is marked rightly if it has not terminated. -/
theorem start (hip : m.ip = 0) (hlive : m.terminated = false) : m.Marked := by
  refine ⟨by omega, by omega, ?_, ?_⟩
  · intro hterm
    rw [hlive] at hterm
    cases hterm
  · intro hpos hend
    omega

/-- Editing the tape has nothing to do with the mark. -/
theorem withTape (h : m.Marked) (t : Tape) : ({ m with tape := t } : Machine).Marked :=
  ⟨h.nonneg, h.le_length, h.ip_of_terminated, h.terminated_of_ip⟩

/-- A terminated machine is outside its program. -/
theorem inside_of_terminated (h : m.Marked) (hterm : m.terminated = true) : m.inside = false := by
  have hend := h.ip_of_terminated hterm
  rw [inside, Bool.eq_false_iff]
  intro hin
  have hlt := ((m.program.inside_eq_true_iff m.ip).mp hin).2
  omega

/-- A machine that has not terminated is inside its program, if that has any characters. -/
theorem inside_of_live (h : m.Marked) (hne : m.program.length ≠ 0) (hlive : m.Live) :
    m.inside = true := by
  have hbefore : m.ip ≠ m.program.length := by
    intro hend
    have hterm := h.terminated_of_ip hne hend
    rw [show m.terminated = false from hlive] at hterm
    cases hterm
  have hle := h.le_length
  exact (m.program.inside_eq_true_iff m.ip).mpr ⟨h.nonneg, by omega⟩

/-- Outside the program the pointer is right behind it. -/
theorem ip_of_outside (h : m.Marked) (hout : m.inside = false) : m.ip = m.program.length := by
  have hnot : ¬ (0 ≤ m.ip ∧ m.ip < m.program.length) := by
    rw [← Compiled.inside_eq_true_iff]
    exact Bool.eq_false_iff.mp hout
  have hnonneg := h.nonneg
  have hle := h.le_length
  omega

/-- Going on to the next position from inside the program leaves the mark right. -/
theorem advance (h : m.Marked) (hin : m.inside = true) : m.advance.Marked := by
  obtain ⟨hnonneg, hlt⟩ := (m.program.inside_eq_true_iff m.ip).mp hin
  have hmark : m.advance.terminated = (m.terminated || !m.program.inside (m.ip + 1)) := rfl
  have hlive : m.terminated = false := by
    by_contra hterm
    rw [h.inside_of_terminated (by simpa using hterm)] at hin
    cases hin
  rw [hlive, Bool.false_or] at hmark
  refine ⟨?_, ?_, ?_, ?_⟩
  · change 0 ≤ m.ip + 1
    omega
  · change m.ip + 1 ≤ m.program.length
    omega
  · intro hterm
    rw [hmark, Bool.not_eq_true', Bool.eq_false_iff, ne_eq, Compiled.inside_eq_true_iff] at hterm
    change m.ip + 1 = m.program.length
    omega
  · intro _ hend
    have hend : m.ip + 1 = m.program.length := hend
    rw [hmark, Bool.not_eq_true', Bool.eq_false_iff, ne_eq, Compiled.inside_eq_true_iff]
    omega

/-- A step leaves the mark right. -/
theorem step (h : m.Marked) : m.step.Marked := by
  rcases hc : m.program.commandAt? m.ip with _ | c
  · have hout := (m.program.commandAt?_eq_none_iff m.ip).mp hc
    rw [step_of_outside hout]
    exact ⟨h.nonneg, h.le_length, fun _ => h.ip_of_outside hout, fun _ _ => rfl⟩
  have hin : m.inside = true := Compiled.inside_of_commandAt? hc
  rcases hj : m.jump? c with _ | target
  · rw [step_of_fallthrough hc hj]
    have heffect : (({ m with stepCount := m.stepCount + 1 } : Machine).effect c).Marked := by
      refine ⟨?_, ?_, ?_, ?_⟩ <;>
        simp only [effect_program, effect_ip, effect_terminated]
      · exact h.nonneg
      · exact h.le_length
      · exact h.ip_of_terminated
      · exact h.terminated_of_ip
    apply heffect.advance
    simpa [inside] using hin
  · -- a jump comes from inside the program and lands inside it
    rw [step_of_jump hc hj]
    have hlt := lt_length_of_jump? hj
    refine ⟨Int.natCast_nonneg target, ?_, ?_, ?_⟩
    · change (target : Int) ≤ m.program.length
      omega
    · intro hterm
      rw [h.inside_of_terminated hterm] at hin
      cases hin
    · intro _ hend
      have hend : (target : Int) = m.program.length := hend
      omega

/-- **After the end nothing happens.** -/
theorem step_eq_self (h : m.Marked) (hterm : m.terminated = true) : m.step = m := by
  rw [step_of_outside (h.inside_of_terminated hterm), ← hterm]

/-- A step is counted if the machine has not terminated. -/
theorem stepCount_step (h : m.Marked) (hne : m.program.length ≠ 0) :
    m.step.stepCount = m.stepCount + (if m.terminated then 0 else 1) := by
  by_cases hterm : m.terminated = true
  · rw [h.step_eq_self hterm, if_pos hterm]
    rfl
  · rw [stepCount_step_of_inside (h.inside_of_live hne (Bool.eq_false_iff.mpr hterm)),
      if_neg hterm]

/-- Any number of steps leaves the mark right. -/
theorem of_leads {m' : Machine} (h : m.Marked) (hleads : m.Leads m') : m'.Marked := by
  apply hleads.invariant ?_ h
  intro n hn
  exact hn.step

/-- **A machine is determined by its step count.** Of the steps that were asked for, those that were
counted would have led to the same machine. -/
theorem iterate_stepCount (h : m.Marked) (hne : m.program.length ≠ 0) (k : Nat) :
    Machine.step^[(Machine.step^[k] m).stepCount - m.stepCount] m = Machine.step^[k] m ∧
      m.stepCount ≤ (Machine.step^[k] m).stepCount := by
  induction k with
  | zero => exact ⟨by simp, Nat.le_refl _⟩
  | succ k ih =>
      obtain ⟨heq, hle⟩ := ih
      have hmark : (Machine.step^[k] m).Marked := h.of_leads ⟨k, rfl⟩
      have hprogram : (Machine.step^[k] m).program = m.program := Leads.program_eq ⟨k, rfl⟩
      have hcount := hmark.stepCount_step (by rw [hprogram]; exact hne)
      rw [Function.iterate_succ_apply']
      by_cases hterm : (Machine.step^[k] m).terminated = true
      · rw [hmark.step_eq_self hterm]
        exact ⟨heq, hle⟩
      · rw [if_neg hterm] at hcount
        refine ⟨?_, by omega⟩
        rw [hcount, Nat.sub_add_comm hle, Function.iterate_succ_apply', heq]

end Marked

end Machine

end TapeMachine
