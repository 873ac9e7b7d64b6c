import TapeMachine.Proofs.Structured.Equivalence

/-!
# One program after the other

When a text is followed by another, the second runs from where the first ends, provided that no
bracket of the one is paired with a bracket of the other. This is so if no opening is left over in
the first text, or if the second one has no closing that would take it: then the pairs of the whole
are the pairs of the first text and those of the second, moved on (`Bracket.pairs_append`).

Each of the two texts then stands in the whole with its own pairs (`Bracket.Stands`), and a machine
on the whole goes along with a machine on the part (`Machine.Along`): inside the part step by step
(`Machine.Along.step`), and at the end of the whole it stays with it (`Machine.Along.step_of_end`).
The first text is left where the second begins, so the two runs can be put one after the other
(`Machine.sequence_runs`).
-/

namespace TapeMachine

/-! ### The pairs of the whole -/

namespace Bracket

/-- Every opening bracket of the text has a partner. -/
def OpeningsPaired (text : List Char) : Prop :=
  ∀ i, text[i]? = some '[' → ¬ Unpaired text i

/-- Every closing bracket of the text has a partner. -/
def ClosingsPaired (text : List Char) : Prop :=
  ∀ i, text[i]? = some ']' → ¬ Unpaired text i

/-- What is asked of all positions with a given character need only be looked at inside the text. -/
theorem forall_lt_length_iff {text : List Char} {c : Char} {P : Nat → Prop} :
    (∀ i < text.length, text[i]? = some c → P i) ↔ ∀ i, text[i]? = some c → P i := by
  constructor
  · intro h i hc
    exact h i (List.getElem?_eq_some_iff.mp hc).1 hc
  · intro h i _ hc
    exact h i hc

instance (text : List Char) : Decidable (OpeningsPaired text) :=
  decidable_of_iff _ forall_lt_length_iff

instance (text : List Char) : Decidable (ClosingsPaired text) :=
  decidable_of_iff _ forall_lt_length_iff

section concatenation

variable {text rest first second : List Char} {i o : Nat} {pending : List Nat}
  {found : List (Nat × Nat)}

/-- The pass over a text that stands further on and is met with openings pending. The openings below
are not touched, since the text takes no more openings than it has; where there are none below,
nothing has to be assumed. -/
theorem Scan.pairsFrom_shift (h : Scan text i pending found rest) (d : Nat) {below : List Nat}
    (hbelow : below = [] ∨ ClosingsPaired text) :
    pairsFrom (d + i) (pending.map (d + ·) ++ below) rest =
      (pairsFrom i pending rest).map fun p => (d + p.1, d + p.2) := by
  induction rest generalizing i pending found with
  | nil => rfl
  | cons c rest ih =>
      by_cases hopen : c = '['
      · subst hopen
        exact ih h.opening
      by_cases hclose : c = ']'
      · subst hclose
        cases pending with
        | nil =>
            -- a closing that is met with nothing of its own pending has no partner
            obtain rfl : below = [] := by
              rcases hbelow with hempty | hpaired
              · exact hempty
              · exact absurd h.unpaired_stray (hpaired i h.getElem?)
            exact ih h.stray
        | cons opening pending => exact congrArg ((d + i, d + opening) :: ·) (ih h.closing)
      · simp only [pairsFrom, if_neg hopen, if_neg hclose]
        exact ih (h.other hopen hclose)

/-- **The pairs of two texts, one after the other**, are those of the first and those of the second,
moved on. -/
theorem pairs_append (h : OpeningsPaired first ∨ ClosingsPaired second) :
    pairs (first ++ second) = pairs first ++
      (pairs second).map fun p => (first.length + p.1, first.length + p.2) := by
  obtain ⟨left, hend, hmore⟩ := (Scan.start first).exists_end
  rw [Nat.zero_add] at hend hmore
  have hleft : left = [] ∨ ClosingsPaired second := by
    refine h.imp_left fun hopenings => List.eq_nil_iff_forall_not_mem.mpr ?_
    intro o ho
    exact hopenings o (hend.pending_brackets o ho) (hend.unpaired_pending ho)
  have hsecond := (Scan.start second).pairsFrom_shift first.length hleft
  rw [List.map_nil, List.nil_append, Nat.add_zero] at hsecond
  rw [pairs, hmore second, hsecond]
  rfl

/-- A text stands in another one, from position `d` on, with its own pairs. -/
structure Stands (text whole : List Char) (d : Nat) : Prop where
  chars : ∀ i < text.length, whole[d + i]? = text[i]?
  pairs : ∀ i < text.length, ∀ o',
    (d + i, o') ∈ pairs whole ↔ ∃ o, (i, o) ∈ pairs text ∧ o' = d + o

/-- A pair closes inside the text. -/
theorem lt_length_of_mem_pairs {p : Nat × Nat} (h : p ∈ pairs text) :
    p.1 < text.length ∧ p.2 < text.length := by
  obtain ⟨left, hend⟩ := exists_scan_end text
  exact hend.found_lt p h

/-- The first of two texts stands at the beginning. -/
theorem stands_first (h : OpeningsPaired first ∨ ClosingsPaired second) :
    Stands first (first ++ second) 0 where
  chars := by
    intro i hi
    rw [Nat.zero_add, List.getElem?_append_left hi]
  pairs := by
    intro i hi o'
    simp only [pairs_append h, Nat.zero_add, List.mem_append, List.mem_map, Prod.mk.injEq]
    constructor
    · rintro (hpair | ⟨p, -, hlater, -⟩)
      · exact ⟨o', hpair, rfl⟩
      · omega
    · rintro ⟨o, hpair, rfl⟩
      exact .inl hpair

/-- The second of two texts stands where the first one ends. -/
theorem stands_second (h : OpeningsPaired first ∨ ClosingsPaired second) :
    Stands second (first ++ second) first.length where
  chars := by
    intro i hi
    rw [List.getElem?_append_right (Nat.le_add_right _ _), Nat.add_sub_cancel_left]
  pairs := by
    intro i hi o'
    simp only [pairs_append h, List.mem_append, List.mem_map, Prod.mk.injEq]
    constructor
    · rintro (hearlier | ⟨⟨k, o⟩, hpair, hk, ho⟩)
      · have hlt := (lt_length_of_mem_pairs hearlier).1
        omega
      · obtain rfl : k = i := by omega
        exact ⟨o, hpair, ho.symm⟩
    · rintro ⟨o, hpair, rfl⟩
      exact .inr ⟨(i, o), hpair, rfl, rfl⟩

end concatenation

end Bracket

/-! ### A part and the whole -/

/-- The same configuration after something has been printed already. -/
def Config.after (s : Config) (printed : Array String) : Config :=
  { s with output := printed ++ s.output }

@[simp] theorem Config.after_empty (s : Config) : s.after #[] = s := by
  simp [Config.after]

/-- Commands do not look at what has been printed. -/
theorem Config.perform_after (s : Config) (printed : Array String) (c : Command) :
    (s.after printed).perform c = (s.perform c).after printed := by
  cases c <;> simp [Config.after, Config.perform]

namespace Machine

/-- A machine at the first position of a text, on the given tape. -/
def startOn (text : List Char) (t : Tape) : Machine where
  program := Program.ofChars text
  tape := t

theorem at_startOn (text : List Char) (t : Tape) : At text 0 ⟨t, #[]⟩ (startOn text t) :=
  ⟨rfl, rfl, rfl, rfl⟩

/-- The second machine executes a text in which the text of the first stands from position `d` on,
and is as far in it as the first. Before it came there it had taken some steps and printed
something. -/
structure Along (text whole : List Char) (d taken : Nat) (printed : Array String)
    (m m' : Machine) : Prop where
  position : ∃ i s, i ≤ text.length ∧ At text i s m ∧ At whole (d + i) (s.after printed) m'
  stepCount : m'.stepCount = taken + m.stepCount

namespace Along

variable {text whole : List Char} {d taken n : Nat} {printed : Array String} {m m' : Machine}

theorem tape (h : Along text whole d taken printed m m') : m'.tape = m.tape := by
  obtain ⟨i, s, -, hm, hm'⟩ := h.position
  rw [hm.tape, hm'.tape]
  rfl

theorem output (h : Along text whole d taken printed m m') : m'.output = printed ++ m.output := by
  obtain ⟨i, s, -, hm, hm'⟩ := h.position
  rw [hm.output, hm'.output]
  rfl

theorem ip (h : Along text whole d taken printed m m') : m'.ip = d + m.ip := by
  obtain ⟨i, s, -, hm, hm'⟩ := h.position
  rw [hm.ip, hm'.ip, Int.natCast_add]

/-- Where the part goes on, so does the whole. -/
theorem inside (h : Along text whole d taken printed m m') (hstands : Bracket.Stands text whole d)
    (hin : m.inside = true) : m'.inside = true := by
  obtain ⟨i, s, -, hm, hm'⟩ := h.position
  have hi := hm.inside_iff.mp hin
  have hchar := hstands.chars i hi
  rw [List.getElem?_eq_getElem hi] at hchar
  exact hm'.inside hchar

/-- **A step inside the part is a step inside the whole.** -/
theorem step (h : Along text whole d taken printed m m') (hstands : Bracket.Stands text whole d)
    (hin : m.inside = true) : Along text whole d taken printed m.step m'.step := by
  have hcount : m'.step.stepCount = taken + m.step.stepCount := by
    rw [stepCount_step_of_inside hin, stepCount_step_of_inside (h.inside hstands hin), h.stepCount,
      Nat.add_assoc]
  obtain ⟨i, s, -, hm, hm'⟩ := h.position
  have hi := hm.inside_iff.mp hin
  have hc : text[i]? = some text[i] := List.getElem?_eq_getElem hi
  have hc' : whole[d + i]? = some text[i] := by rw [hstands.chars i hi, hc]
  obtain ⟨o, hpair, hnext, hnext'⟩ | ⟨hnext, hnext'⟩ :=
    hm.step_alongside hm' hc hc' rfl (hstands.pairs i hi)
  · have ho := (Bracket.lt_length_of_mem_pairs hpair).2
    exact ⟨⟨o, s, Nat.le_of_lt ho, hnext, hnext'⟩, hcount⟩
  · rw [Config.perform_after] at hnext'
    exact ⟨⟨i + 1, _, hi, hnext, hnext'⟩, hcount⟩

/-- Where the part ends the whole, nothing happens any more on either side. -/
theorem step_of_end (h : Along text whole d taken printed m m')
    (hend : whole.length = d + text.length) (hout : m.inside = false) :
    Along text whole d taken printed m.step m'.step := by
  obtain ⟨i, s, hi, hm, hm'⟩ := h.position
  have hout' : m'.inside = false := by
    have hpast := mt hm.inside_iff.mpr (Bool.eq_false_iff.mp hout)
    rw [Bool.eq_false_iff, ne_eq, hm'.inside_iff]
    omega
  refine ⟨⟨i, s, hi, hm.step_of_outside hout, hm'.step_of_outside hout'⟩, ?_⟩
  rw [Machine.step_of_outside hout, Machine.step_of_outside hout']
  exact h.stepCount

/-- As long as the part is not left, the machines go along with each other. -/
theorem iterate_of_inside (h : Along text whole d taken printed m m')
    (hstands : Bracket.Stands text whole d) (hin : ∀ k < n, (Machine.step^[k] m).inside = true) :
    Along text whole d taken printed (Machine.step^[n] m) (Machine.step^[n] m') := by
  induction n with
  | zero => exact h
  | succ n ih =>
      rw [Function.iterate_succ_apply', Function.iterate_succ_apply']
      exact (ih fun k hk => hin k (by omega)).step hstands (hin n (by omega))

/-- A part that ends the whole is gone along with forever. -/
theorem iterate_of_end (h : Along text whole d taken printed m m')
    (hstands : Bracket.Stands text whole d) (hend : whole.length = d + text.length) (n : Nat) :
    Along text whole d taken printed (Machine.step^[n] m) (Machine.step^[n] m') := by
  induction n with
  | zero => exact h
  | succ n ih =>
      rw [Function.iterate_succ_apply', Function.iterate_succ_apply']
      by_cases hin : (Machine.step^[n] m).inside = true
      · exact ih.step hstands hin
      · exact ih.step_of_end hend (Bool.eq_false_iff.mpr hin)

end Along

/-! ### One run after the other -/

section sequence

variable {first second : List Char} {t : Tape} {k n : Nat} {u : Config}

/-- On its way through the first text, the machine on both texts goes along with the machine on the
first. -/
theorem along_first (h : Bracket.OpeningsPaired first ∨ Bracket.ClosingsPaired second)
    (hin : ∀ k < n, (Machine.step^[k] (startOn first t)).inside = true) :
    Along first (first ++ second) 0 0 #[] (Machine.step^[n] (startOn first t))
      (Machine.step^[n] (startOn (first ++ second) t)) := by
  have hstart : Along first (first ++ second) 0 0 #[] (startOn first t)
      (startOn (first ++ second) t) :=
    ⟨⟨0, ⟨t, #[]⟩, Nat.zero_le _, at_startOn first t, at_startOn (first ++ second) t⟩, rfl⟩
  exact hstart.iterate_of_inside (Bracket.stands_first h) hin

/-- When the first text is left, the machine on both texts is at the beginning of the second. -/
theorem at_second (h : Bracket.OpeningsPaired first ∨ Bracket.ClosingsPaired second)
    (hleaves : (startOn first t).LeavesAfter n u) :
    At (first ++ second) first.length u (Machine.step^[n] (startOn (first ++ second) t)) ∧
      (Machine.step^[n] (startOn (first ++ second) t)).stepCount = n := by
  have halong := along_first h hleaves.stays
  obtain ⟨i, s, hi, hm, hm'⟩ := halong.position
  have hend : i = first.length := by
    have hpast := mt hm.inside_iff.mpr (Bool.eq_false_iff.mp hleaves.leaves)
    omega
  rw [Config.after_empty, Nat.zero_add, hend] at hm'
  refine ⟨⟨hm'.program, hm'.ip, ?_, ?_⟩, ?_⟩
  · rw [hm'.tape, ← hm.tape, hleaves.tape]
  · rw [hm'.output, ← hm.output, hleaves.output]
  · rw [halong.stepCount, hleaves.stepCount]
    simp [startOn]

/-- From there on it goes along with the machine on the second text. -/
theorem along_second (h : Bracket.OpeningsPaired first ∨ Bracket.ClosingsPaired second)
    (hleaves : (startOn first t).LeavesAfter n u) (k : Nat) :
    Along second (first ++ second) first.length n u.output
      (Machine.step^[k] (startOn second u.tape))
      (Machine.step^[n + k] (startOn (first ++ second) t)) := by
  obtain ⟨hm, hcount⟩ := at_second h hleaves
  have hstart : Along second (first ++ second) first.length n u.output (startOn second u.tape)
      (Machine.step^[n] (startOn (first ++ second) t)) := by
    refine ⟨⟨0, ⟨u.tape, #[]⟩, Nat.zero_le _, at_startOn second u.tape, ?_⟩, hcount⟩
    have hafter : (⟨u.tape, #[]⟩ : Config).after u.output = u := by simp [Config.after]
    rw [hafter]
    exact hm
  rw [Nat.add_comm n k, Function.iterate_add_apply]
  exact hstart.iterate_of_end (Bracket.stands_second h) List.length_append k

end sequence

/-- **Two programs, one after the other.** Let the first leave no opening bracket over, or the
second have no closing bracket over. If the first, started on a tape, leaves its text after `n`
steps, then so many steps bring the machine on both texts to the beginning of the second with the
same tape and output, and from there it goes on as the second does on that tape, with its output
after that of the first. If the first never leaves its text, neither does the machine on both. -/
theorem sequence_runs (first second : List Char)
    (h : Bracket.OpeningsPaired first ∨ Bracket.ClosingsPaired second) (t : Tape) :
    (∀ n u, (startOn first t).LeavesAfter n u →
      (Machine.step^[n] (startOn (first ++ second) t)).ip = first.length ∧
      (Machine.step^[n] (startOn (first ++ second) t)).tape = u.tape ∧
      (Machine.step^[n] (startOn (first ++ second) t)).output = u.output ∧
      (Machine.step^[n] (startOn (first ++ second) t)).stepCount = n ∧
      ∀ k,
        (Machine.step^[n + k] (startOn (first ++ second) t)).tape =
          (Machine.step^[k] (startOn second u.tape)).tape ∧
        (Machine.step^[n + k] (startOn (first ++ second) t)).ip =
          first.length + (Machine.step^[k] (startOn second u.tape)).ip ∧
        (Machine.step^[n + k] (startOn (first ++ second) t)).output =
          u.output ++ (Machine.step^[k] (startOn second u.tape)).output ∧
        (Machine.step^[n + k] (startOn (first ++ second) t)).stepCount =
          n + (Machine.step^[k] (startOn second u.tape)).stepCount) ∧
    ((∀ k, (Machine.step^[k] (startOn first t)).inside = true) → ∀ k,
      (Machine.step^[k] (startOn (first ++ second) t)).inside = true ∧
      (Machine.step^[k] (startOn (first ++ second) t)).tape =
        (Machine.step^[k] (startOn first t)).tape ∧
      (Machine.step^[k] (startOn (first ++ second) t)).output =
        (Machine.step^[k] (startOn first t)).output) := by
  constructor
  · intro n u hleaves
    obtain ⟨hm, hcount⟩ := at_second h hleaves
    refine ⟨hm.ip, hm.tape, hm.output, hcount, ?_⟩
    intro k
    have halong := along_second h hleaves k
    exact ⟨halong.tape, halong.ip, halong.output, halong.stepCount⟩
  · intro hforever k
    have halong := along_first h fun j (_ : j < k) => hforever j
    refine ⟨halong.inside (Bracket.stands_first h) (hforever k), halong.tape, ?_⟩
    rw [halong.output, Array.empty_append]

/-- A loop that does nothing is not left while its cell is not zero. -/
theorem inside_of_idle_loop {i : Nat} {s : Config} {m : Machine}
    (hm : At "+[]".toList i s m) (hi : i = 1 ∨ i = 2) (hread : s.tape.read ≠ 0) (k : Nat) :
    (Machine.step^[k] m).inside = true := by
  have hpair : (2, 1) ∈ Bracket.pairs "+[]".toList := by decide
  induction k generalizing m i with
  | zero =>
      have hlength : "+[]".toList.length = 3 := by decide
      exact hm.inside_iff.mpr (by omega)
  | succ k ih =>
      rw [Function.iterate_succ_apply]
      rcases hi with rfl | rfl
      · exact ih (hm.step_of_opening hpair).2 (.inr rfl)
      · exact ih (hm.step_of_again hpair hread).2 (.inl rfl)

/-- An opening is left over by the first text, and the second one, which counts a cell down and
prints the next, does not take it. Behind a loop that is never left the second text is not come
to. -/
theorem sequence_runs_past_opening :
    Bracket.ClosingsPaired "[-]>.".toList ∧
    (startOn "[+".toList (Tape.row [1, 7])).LeavesAfter 2 ⟨Tape.row [2, 7], #[]⟩ ∧
    (Machine.step^[2 + 8] (startOn ("[+".toList ++ "[-]>.".toList) (Tape.row [1, 7]))).output =
      #["<BEL>"] ∧
    (Machine.step^[2 + 8] (startOn ("[+".toList ++ "[-]>.".toList) (Tape.row [1, 7]))).ip = 7 ∧
    ∀ k, (Machine.step^[k] (startOn ("+[]".toList ++ "[-]>.".toList) Tape.blank)).inside = true := by
  have hclosings : Bracket.ClosingsPaired "[-]>.".toList := by decide
  have hleaves : (startOn "[+".toList (Tape.row [1, 7])).LeavesAfter 2 ⟨Tape.row [2, 7], #[]⟩ := by
    constructor <;> decide +kernel
  have hforever : ∀ k, (Machine.step^[k] (startOn "+[]".toList Tape.blank)).inside = true := by
    intro k
    cases k with
    | zero => decide
    | succ k =>
        have hnext : At "+[]".toList 1 ⟨Tape.blank.increment, #[]⟩
            (startOn "+[]".toList Tape.blank).step := by
          constructor <;> decide +kernel
        exact inside_of_idle_loop hnext (.inl rfl) (by decide +kernel) k
  obtain ⟨hleft, -⟩ := sequence_runs "[+".toList "[-]>.".toList (.inr hclosings) (Tape.row [1, 7])
  obtain ⟨-, hstays⟩ := sequence_runs "+[]".toList "[-]>.".toList (.inr hclosings) Tape.blank
  obtain ⟨-, -, -, -, hafter⟩ := hleft 2 _ hleaves
  obtain ⟨-, hip, houtput, -⟩ := hafter 8
  refine ⟨hclosings, hleaves, ?_, ?_, fun k => (hstays hforever k).1⟩
  · rw [houtput]
    decide +kernel
  · rw [hip]
    decide +kernel

end Machine

end TapeMachine
