import TapeMachine.Token
import TapeMachine.Proofs.Numeral.Rendering

/-!
# Reading display tokens

A display token shows one integer only. `Token.toInt?` reads it: a single character shows its code,
a token that begins as those of written values do shows the number that comes next, and everything
else is looked up among the names of control codes. It undoes `Token.ofInt?` wherever there is a
token (`Token.toInt?_of_ofInt?`), which is at every integer that can be written
(`Token.isSome_ofInt?_iff`). The three shapes are told apart by their characters, since a name in
angle brackets has several and none of them begins as a written value does.

All characters of a token are printable ASCII (`Token.printable_of_ofInt?`), so that no token has a
line end in it.
-/

namespace TapeMachine

namespace Token

/-! ### The reader -/

/-- The control code with the given name. -/
def controlCode? : String → Option Int
  | "<NUL>" => some 0
  | "<BEL>" => some 7
  | "<BS>" => some 8
  | "<TAB>" => some 9
  | "<LF>" => some 10
  | "<CR>" => some 13
  | _ => none

/-- What a token begins with that shows a value as a number. -/
def valueMark : List Char :=
  "<value ".toList

/-- The number that a text of any length writes. -/
def number? (text : List Char) : Option Int :=
  let (negative, run) := Numeral.splitSign text
  (Numeral.digits? Numeral.digit? run).map fun digits =>
    Numeral.withSign negative (Numeral.value digits)

/-- The integer that a display token shows. -/
def toInt? (token : String) : Option Int :=
  match token.toList with
  | [c] => some c.toNat
  | chars =>
    if valueMark.isPrefixOf chars then number? (chars.drop valueMark.length).dropLast
    else controlCode? token

/-! ### What it reads -/

/-- A written integer is read as that integer, however long it is. -/
theorem number?_ofInt (n : Int) : number? (Numeral.ofInt n).toList = some n := by
  obtain ⟨sign, run, negative, digits, htext, hsign, hrun, -, hn⟩ := Numeral.exists_spells_ofInt n
  rw [number?, htext, Numeral.splitSign_append hsign hrun Numeral.clear_isCut]
  simp only [hrun.digits?_eq Numeral.clear_isCut.underscore, Option.map_some,
    Numeral.withSign_value, ← hn]

/-- The name of a control code is read as the code. -/
theorem toInt?_of_controlName? {n : Int} {name : String} (h : controlName? n = some name) :
    toInt? name = some n := by
  unfold controlName? at h
  split at h <;> cases h <;> decide +kernel

/-- A token that shows a number, as characters. -/
theorem toList_value (number : String) :
    ("<value " ++ number ++ ">").toList = valueMark ++ (number.toList ++ ['>']) := by
  rw [String.toList_append, String.toList_append, List.append_assoc]
  rfl

/-- A token that shows a number is read as the number in it. -/
theorem toInt?_value (number : String) :
    toInt? ("<value " ++ number ++ ">") = number? number.toList := by
  have hmark : valueMark.isPrefixOf (valueMark ++ (number.toList ++ ['>'])) = true :=
    List.isPrefixOf_iff_prefix.mpr (List.prefix_append _ _)
  unfold toInt?
  rw [toList_value]
  split
  · rename_i c hsingle
    have hlength := congrArg List.length hsingle
    have hseven : valueMark.length = 7 := by decide +kernel
    rw [List.length_append, hseven, List.length_singleton] at hlength
    omega
  · rw [if_pos hmark, List.drop_left, List.dropLast_concat]

/-- What is displayed with the number written out is read as the integer, however long it is. -/
theorem toInt?_display (n : Int) : toInt? (display n (Numeral.ofInt n)) = some n := by
  unfold display
  split_ifs with hprintable
  · have hcode : (Char.ofNat n.toNat).toNat = n.toNat :=
      Encoding.toNat_val_ofNat (.inl (by omega))
    simp only [toInt?, String.toList_singleton, hcode]
    exact congrArg some (Int.toNat_of_nonneg (by omega))
  · rcases hname : controlName? n with _ | name
    · exact (toInt?_value _).trans (number?_ofInt n)
    · exact toInt?_of_controlName? hname

/-! ### Which integers have a token -/

/-- The token of an integer displays it with its number written out. -/
theorem ofInt?_eq_some_iff {n : Int} {token : String} :
    ofInt? n = some token ↔ Numeral.Writable n ∧ display n (Numeral.ofInt n) = token := by
  unfold ofInt? Numeral.ofInt?
  split_ifs with h <;> simp [h]

/-- Every cell has a token. -/
theorem ofInt?_toInt (c : Cell) : ofInt? c.toInt = some (ofCell c) :=
  ofInt?_eq_some_iff.mpr ⟨c.writable_toInt, rfl⟩

/-- An integer has a token exactly if it has no more digits than may be written. -/
theorem isSome_ofInt?_iff (n : Int) : (ofInt? n).isSome ↔ n.natAbs < 10 ^ 4300 := by
  rw [Option.isSome_iff_exists, ← Numeral.writable_iff]
  constructor
  · rintro ⟨token, h⟩
    exact (ofInt?_eq_some_iff.mp h).1
  · intro h
    exact ⟨_, ofInt?_eq_some_iff.mpr ⟨h, rfl⟩⟩

/-- **Reading undoes showing.** -/
theorem toInt?_of_ofInt? {n : Int} {token : String} (h : ofInt? n = some token) :
    toInt? token = some n := by
  rw [← (ofInt?_eq_some_iff.mp h).2]
  exact toInt?_display n

theorem toInt?_ofCell (c : Cell) : toInt? (ofCell c) = some c.toInt :=
  toInt?_of_ofInt? (ofInt?_toInt c)

/-- Different integers have different tokens. -/
theorem eq_of_ofInt? {n k : Int} {token : String} (hn : ofInt? n = some token)
    (hk : ofInt? k = some token) : n = k := by
  have hread := toInt?_of_ofInt? hn
  rw [toInt?_of_ofInt? hk] at hread
  exact (Option.some.inj hread).symm

/-! ### Its characters -/

/-- The character stands for itself on a line of ASCII text. -/
def Printable (c : Char) : Prop :=
  32 ≤ c.toNat ∧ c.toNat ≤ 126

instance (c : Char) : Decidable (Printable c) :=
  inferInstanceAs (Decidable (_ ∧ _))

/-- All characters of a list are printable if that is what a check of each says. -/
theorem printable_of_all {chars : List Char} (h : chars.all (Printable ·) = true) :
    ∀ c ∈ chars, Printable c :=
  fun c hc => of_decide_eq_true (List.all_eq_true.mp h c hc)

/-- All characters of a written integer are printable. -/
theorem printable_of_mem_number {n : Int} {c : Char} (h : c ∈ (Numeral.ofInt n).toList) :
    Printable c := by
  by_cases hminus : c = '-'
  · subst hminus
    decide
  · have hdigit := Numeral.isDigit_of_mem_ofInt h hminus
    have hrange : 0x30 ≤ c.toNat ∧ c.toNat ≤ 0x39 := Char.isDigit_iff_toNat.mp hdigit
    exact ⟨by omega, by omega⟩

/-- All characters of the name of a control code are printable. -/
theorem printable_of_controlName? {n : Int} {name : String} (h : controlName? n = some name) :
    ∀ c ∈ name.toList, Printable c := by
  unfold controlName? at h
  split at h <;> cases h <;> exact printable_of_all (by decide +kernel)

/-- **All characters of a token are printable.** -/
theorem printable_of_ofInt? {n : Int} {token : String} (h : ofInt? n = some token) :
    ∀ c ∈ token.toList, Printable c := by
  intro c hc
  rw [← (ofInt?_eq_some_iff.mp h).2, display] at hc
  split_ifs at hc with hprintable
  · have hcode : (Char.ofNat n.toNat).toNat = n.toNat :=
      Encoding.toNat_val_ofNat (.inl (by omega))
    rw [String.toList_singleton, List.mem_singleton] at hc
    rw [hc, Printable, hcode]
    omega
  · rcases hname : controlName? n with _ | name
    · simp only [hname] at hc
      rw [toList_value, List.mem_append, List.mem_append, List.mem_singleton] at hc
      have hmark : ∀ c ∈ valueMark, Printable c := printable_of_all (by decide +kernel)
      rcases hc with hc | hc | rfl
      · exact hmark c hc
      · exact printable_of_mem_number hc
      · decide
    · simp only [hname] at hc
      exact printable_of_controlName? hname c hc

end Token

end TapeMachine
