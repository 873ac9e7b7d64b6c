import Mathlib.Tactic.SplitIfs
import TapeMachine.CommandLine.Invocation

/-!
# Where the program stands on a command line

A command line is read from its start, one switch or plain word after the other.
`Reading.Takes` says what the words at the front do to a reading, with one case for each form that
they can have, and `Reading.Reads` puts such cases in a row. Reading succeeds exactly along such a
row (`Reading.takeAll_eq_ok_iff`).

Nothing on a command line depends on the name of the program. So a program may be named at any place
between complete switches: the settings are those of the command line without it, with the program
added (`Invocation.ofArgs_insert`). Two dashes are left out here, since they are dropped right after
the program and left over elsewhere.
-/

namespace TapeMachine

namespace CommandLine

/-! ### Words by their form -/

/-- A word that does not start with a dash is plain. -/
theorem classify_of_head?_ne {word : String} (h : word.toList.head? ≠ some '-') :
    classify word = .ok (.plain word) := by
  unfold classify
  split
  · rename_i hword
    rw [hword] at h
    exact absurd rfl h
  · rfl

theorem classifyInexact_ne_separator {word : String} {candidates : List (String × Word)}
    (h : ∀ c ∈ candidates, c.2 ≠ .separator) :
    classifyInexact word candidates ≠ .ok .separator := by
  unfold classifyInexact
  split
  · split_ifs <;> simp
  · intro hfound
    cases hfound
    exact h _ (List.mem_singleton.mpr rfl) rfl
  · simp

/-- Only two dashes alone are the separator. -/
theorem classify_ne_separator (word : String) : classify word ≠ .ok .separator := by
  unfold classify
  split
  · unfold classifyDashed
    split
    · simp
    · simp only
      split
      · simp
      · apply classifyInexact_ne_separator
        intro c hc
        split_ifs at hc
        all_goals
          obtain ⟨spelling, -, rfl⟩ := List.mem_map.mp hc
          simp
  · simp

theorem exists_of_classifyAll_cons {x : String} {xs : List String} {ws : List Word}
    (hx : x ≠ "--") (h : classifyAll (x :: xs) = .ok ws) :
    ∃ first rest, classify x = .ok first ∧ classifyAll xs = .ok rest ∧ ws = first :: rest := by
  rw [classifyAll, if_neg hx] at h
  rcases hfirst : classify x with misuse | first
  · rw [hfirst] at h
    cases h
  rcases hrest : classifyAll xs with misuse | rest
  · rw [hfirst, hrest] at h
    cases h
  · rw [hfirst, hrest] at h
    cases h
    exact ⟨first, rest, rfl, rfl, rfl⟩

/-- Without two dashes each word is told by itself. -/
theorem classifyAll_append {xs : List String} {ws : List Word} (hsep : "--" ∉ xs)
    (hxs : classifyAll xs = .ok ws) (ys : List String) :
    classifyAll (xs ++ ys) = (classifyAll ys).map (ws ++ ·) := by
  induction xs generalizing ws with
  | nil =>
      cases hxs
      cases hys : classifyAll ys <;> simp [hys, Except.map]
  | cons x xs ih =>
      obtain ⟨hx, hsep⟩ := List.ne_and_not_mem_of_not_mem_cons hsep
      obtain ⟨first, rest, hfirst, hrest, rfl⟩ := exists_of_classifyAll_cons hx.symm hxs
      rw [List.cons_append, classifyAll, if_neg hx.symm, hfirst]
      simp only [ih hsep hrest]
      cases classifyAll ys <;> rfl

/-- Without two dashes there is no separator. -/
theorem separator_not_mem {xs : List String} {ws : List Word} (hsep : "--" ∉ xs)
    (hxs : classifyAll xs = .ok ws) : Word.separator ∉ ws := by
  induction xs generalizing ws with
  | nil =>
      cases hxs
      exact List.not_mem_nil
  | cons x xs ih =>
      obtain ⟨hx, hsep⟩ := List.ne_and_not_mem_of_not_mem_cons hsep
      obtain ⟨first, rest, hfirst, hrest, rfl⟩ := exists_of_classifyAll_cons hx.symm hxs
      rw [List.mem_cons, not_or]
      refine ⟨?_, ih hsep hrest⟩
      rintro rfl
      exact classify_ne_separator x hfirst

/-! ### What the words at the front do -/

namespace Reading

/-- The words at the front of a command line take one reading to the next. -/
inductive Takes : Reading → List Word → Reading → Prop
  | plain (r : Reading) (text : String) : Takes r [.plain text] (r.takePlain text)
  | separator (r : Reading) : Takes r [.separator] r.takeSeparator
  | unknown (r : Reading) (text : String) : Takes r [.unknown text] (r.leave text)
  /-- A switch and the plain word after it. -/
  | argument {r u : Reading} {s : Switch} {short : Bool} {text : String} :
      s.takesArgument = true → r.takeArgument s text = .ok u →
      Takes r [.switch s short none, .plain text] u
  | attachedArgument {r u : Reading} {s : Switch} {short : Bool} {text : String} :
      s.takesArgument = true → r.takeArgument s text = .ok u →
      Takes r [.switch s short (some text)] u
  /-- Switches that are written together. -/
  | attached {r u : Reading} {s : Switch} {short : Bool} {text : String} :
      s.takesArgument = false → r.takeAttached s short text = .ok u →
      Takes r [.switch s short (some text)] u
  | switch {r u : Reading} {s : Switch} {short : Bool} :
      s.takesArgument = false → r.takeSwitch s = .ok u → Takes r [.switch s short none] u

/-- The words of a command line take one reading to another. -/
inductive Reads : Reading → List Word → Reading → Prop
  | nil (r : Reading) : Reads r [] r
  | take {r u t : Reading} {front rest : List Word} :
      Takes r front u → Reads u rest t → Reads r (front ++ rest) t

variable {r u t : Reading} {front ws : List Word}

/-- What the words at the front have done, the others go on from. -/
theorem Takes.takeAll (h : r.Takes front u) (rest : List Word) :
    r.takeAll (front ++ rest) = u.takeAll rest := by
  cases h with
  | plain text => rfl
  | separator => rfl
  | unknown text => rfl
  | argument hs hu | attachedArgument hs hu =>
      simp only [List.cons_append, List.nil_append, Reading.takeAll, hs, if_true, hu]
      rfl
  | attached hs hu | switch hs hu =>
      rw [List.singleton_append, Reading.takeAll.eq_def]
      simp only [hs, Bool.false_eq_true, if_false, hu]
      rfl

theorem Reads.takeAll (h : r.Reads ws u) (rest : List Word) :
    r.takeAll (ws ++ rest) = u.takeAll rest := by
  induction h with
  | nil r => rfl
  | take hfront _ ih => rw [List.append_assoc, hfront.takeAll, ih]

/-- Where a computation that goes on succeeds, its first part does. -/
theorem exists_ok_of_bind {α β : Type} {first : Except Interruption α}
    {next : α → Except Interruption β} {b : β} (h : first.bind next = .ok b) :
    ∃ a, first = .ok a ∧ next a = .ok b := by
  rcases first with fault | a
  · cases h
  · exact ⟨a, rfl, h⟩

/-- **Reading succeeds exactly along a row of words that can be taken.** -/
theorem takeAll_eq_ok_iff : r.takeAll ws = .ok t ↔ r.Reads ws t := by
  constructor
  · intro h
    fun_induction Reading.takeAll r ws with
    | case1 =>
        cases h
        exact .nil t
    | case2 r text rest ih => exact .take (.plain r text) (ih h)
    | case3 r rest ih => exact .take (.separator r) (ih h)
    | case4 r text rest ih => exact .take (.unknown r text) (ih h)
    | case5 r s short attached rest ih =>
        obtain ⟨u, hu, hrest⟩ := exists_ok_of_bind h
        split_ifs at hu with hs
        · exact .take (.attachedArgument hs hu) (ih u hrest)
        · exact .take (.attached (Bool.eq_false_iff.mpr hs) hu) (ih u hrest)
    | case6 r s short hs argument rest ih =>
        obtain ⟨u, hu, hrest⟩ := exists_ok_of_bind h
        exact .take (.argument hs hu) (ih u hrest)
    | case7 => cases h
    | case8 r s short rest hs ih =>
        obtain ⟨u, hu, hrest⟩ := exists_ok_of_bind h
        exact .take (.switch (Bool.eq_false_iff.mpr hs) hu) (ih u hrest)
  · intro h
    have := h.takeAll []
    rwa [List.append_nil] at this

/-! ### Naming the program -/

/-- The reading with a program named, and the mark for the separator set. -/
def named (r : Reading) (program : String) (atProgram : Bool) : Reading where
  settings := { r.settings with program := some program }
  leftovers := r.leftovers
  atProgram := atProgram

theorem takePlain_of_none {program : String} (h : r.settings.program = none) :
    r.takePlain program = r.named program true := by
  simp only [takePlain, h, named]

theorem program_takePlain_ne (r : Reading) (text : String) :
    (r.takePlain text).settings.program ≠ none := by
  unfold takePlain
  split
  · simp
  · rename_i program hprogram
    simp [leave, hprogram]

variable (program : String) (b : Bool)

theorem takeSwitch_named {s : Switch} (h : r.takeSwitch s = .ok u) :
    (r.named program b).takeSwitch s = .ok (u.named program false) ∧
      u.settings.program = r.settings.program := by
  cases s <;> cases h <;> exact ⟨rfl, rfl⟩

theorem takeSwitches_named {switches : List Switch} (h : r.takeSwitches switches = .ok u) :
    (∃ b', (r.named program b).takeSwitches switches = .ok (u.named program b')) ∧
      u.settings.program = r.settings.program := by
  induction switches generalizing r b with
  | nil =>
      cases h
      exact ⟨⟨b, rfl⟩, rfl⟩
  | cons s switches ih =>
      obtain ⟨v, hv, hrest⟩ := exists_ok_of_bind h
      obtain ⟨hswitch, hprogram⟩ := takeSwitch_named program b hv
      obtain ⟨⟨b', hb'⟩, hprogram'⟩ := ih false hrest
      refine ⟨⟨b', ?_⟩, hprogram'.trans hprogram⟩
      rw [takeSwitches, hswitch]
      exact hb'

theorem takeArgument_named {s : Switch} {text : String} (h : r.takeArgument s text = .ok u) :
    (r.named program b).takeArgument s text = .ok (u.named program false) ∧
      u.settings.program = r.settings.program := by
  cases s with
  | maxSteps | delay =>
      simp only [takeArgument] at h ⊢
      split_ifs at h ⊢
      · cases h
        exact ⟨rfl, rfl⟩
      · split at h
        · cases h
          exact ⟨rfl, rfl⟩
        · cases h
  | _ => cases h

theorem takeAttached_named {s : Switch} {short : Bool} {text : String}
    (h : r.takeAttached s short text = .ok u) :
    (∃ b', (r.named program b).takeAttached s short text = .ok (u.named program b')) ∧
      u.settings.program = r.settings.program := by
  unfold takeAttached at h ⊢
  split_ifs at h ⊢
  · obtain ⟨switches, hswitches, hrest⟩ := exists_ok_of_bind h
    obtain ⟨⟨b', hb'⟩, hprogram⟩ := takeSwitches_named program b hrest
    refine ⟨⟨b', ?_⟩, hprogram⟩
    rw [hswitches]
    exact hb'

/-- Words that name no program do the same to a reading in which one is named. -/
theorem Takes.named (h : r.Takes front u) (hnone : u.settings.program = none)
    (hsep : Word.separator ∉ front) :
    (∃ b', (r.named program b).Takes front (u.named program b')) ∧ r.settings.program = none := by
  cases h with
  | plain text => exact absurd hnone (r.program_takePlain_ne text)
  | separator => exact absurd (List.mem_singleton.mpr rfl) hsep
  | unknown text => exact ⟨⟨false, .unknown (r.named program b) text⟩, hnone⟩
  | argument hs hu =>
      obtain ⟨hnamed, hprogram⟩ := takeArgument_named program b hu
      exact ⟨⟨false, .argument hs hnamed⟩, hprogram ▸ hnone⟩
  | attachedArgument hs hu =>
      obtain ⟨hnamed, hprogram⟩ := takeArgument_named program b hu
      exact ⟨⟨false, .attachedArgument hs hnamed⟩, hprogram ▸ hnone⟩
  | attached hs hu =>
      obtain ⟨⟨b', hnamed⟩, hprogram⟩ := takeAttached_named program b hu
      exact ⟨⟨b', .attached hs hnamed⟩, hprogram ▸ hnone⟩
  | switch hs hu =>
      obtain ⟨hnamed, hprogram⟩ := takeSwitch_named program b hu
      exact ⟨⟨false, .switch hs hnamed⟩, hprogram ▸ hnone⟩

theorem Reads.named (h : r.Reads ws u) (hnone : u.settings.program = none)
    (hsep : Word.separator ∉ ws) :
    (∃ b', (r.named program b).Reads ws (u.named program b')) ∧ r.settings.program = none := by
  induction h generalizing b with
  | nil r => exact ⟨⟨b, .nil _⟩, hnone⟩
  | @take r v t front rest hfront hrest ih =>
      rw [List.mem_append, not_or] at hsep
      -- The induction also gives that no program is named before the rest is read.
      have hv : v.settings.program = none := (ih false hnone hsep.2).2
      obtain ⟨⟨b', hnamed⟩, hr⟩ := hfront.named program b hv hsep.1
      obtain ⟨⟨b'', hnamed'⟩, -⟩ := ih b' hnone hsep.2
      exact ⟨⟨b'', .take hnamed hnamed'⟩, hr⟩

end Reading

/-! ### Command lines -/

theorem Reading.invocation_eq_run_iff {r : Reading} {settings : Settings} :
    r.invocation = .run settings ↔ r.leftovers = [] ∧ r.settings = settings := by
  unfold invocation
  split_ifs with h
  · simp [List.isEmpty_iff.mp h]
  · simp [mt List.isEmpty_iff.mpr h]

/-- A command line is run if its words can be taken and none is left over. -/
theorem Invocation.ofArgs_eq_run_iff {args : List String} {settings : Settings} :
    ofArgs args = .run settings ↔ ∃ ws r, classifyAll args = .ok ws ∧
      ({} : Reading).Reads ws r ∧ r.leftovers = [] ∧ r.settings = settings := by
  unfold ofArgs
  constructor
  · intro h
    split at h
    · cases h
    · rename_i ws hws
      split at h
      · rename_i r hr
        exact ⟨ws, r, hws, Reading.takeAll_eq_ok_iff.mp hr, Reading.invocation_eq_run_iff.mp h⟩
      · cases h
      · cases h
  · rintro ⟨ws, r, hws, hr, hrun⟩
    simp only [hws, Reading.takeAll_eq_ok_iff.mpr hr]
    exact Reading.invocation_eq_run_iff.mpr hrun

/-- **A program can be named between any two switches.** If the arguments around its place are run
without a program, the ones before it on their own included, they are run with it, and it is all
that is added to the settings. -/
theorem Invocation.ofArgs_insert {before after : List String} {settings settings' : Settings}
    {program : String} (hbefore : ofArgs before = .run settings')
    (hall : ofArgs (before ++ after) = .run settings) (hnone : settings.program = none)
    (hsep : "--" ∉ before ++ after) (hprogram : classify program = .ok (.plain program))
    (hne : program ≠ "--") :
    ofArgs (before ++ program :: after) = .run { settings with program := some program } := by
  rw [List.mem_append, not_or] at hsep
  obtain ⟨ws, r, hws, hr, -, -⟩ := ofArgs_eq_run_iff.mp hbefore
  obtain ⟨all, t, hclassified, ht, hleft, rfl⟩ := ofArgs_eq_run_iff.mp hall
  rw [classifyAll_append hsep.1 hws] at hclassified
  rcases hws' : classifyAll after with misuse | ws'
  · rw [hws'] at hclassified
    cases hclassified
  rw [hws'] at hclassified
  cases hclassified
  -- What is read after `ws` is read from `r`, where no program has been named yet.
  have hrest : r.Reads ws' t := by
    rw [← Reading.takeAll_eq_ok_iff, ← hr.takeAll]
    exact Reading.takeAll_eq_ok_iff.mpr ht
  have hsep' := separator_not_mem hsep.2 hws'
  obtain ⟨⟨b, hnamed⟩, hr'⟩ := hrest.named program true hnone hsep'
  refine ofArgs_eq_run_iff.mpr ⟨ws ++ .plain program :: ws', t.named program b, ?_, ?_, hleft, rfl⟩
  · rw [classifyAll_append hsep.1 hws, classifyAll, if_neg hne, hprogram]
    simp only [hws']
    rfl
  · rw [← Reading.takeAll_eq_ok_iff, hr.takeAll, Reading.takeAll, Reading.takePlain_of_none hr']
    exact Reading.takeAll_eq_ok_iff.mpr hnamed

end CommandLine

end TapeMachine
