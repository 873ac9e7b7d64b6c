import Mathlib.Data.Int.ModEq
import Mathlib.Data.Nat.Digits.Defs
import TapeMachine.Datum
import TapeMachine.Numeral.Written
import TapeMachine.Proofs.Encoding.RoundTrip

/-!
# Ways to write an integer

An integer can be written in many ways: with a sign or without, with zeros in front, with single
underscores between its digits, with digits of any script and with blanks around it.
`Numeral.Renders` says which texts write an integer, the blanks apart. All of them are read as that
integer (`Numeral.toInt?_of_renders`), so a cell that is given as a text gets the value that it
would get from the integer, and reading it as a decimal is never tried
(`Datum.textToInt_of_renders`).

What makes this work is that the characters of a numeral play one part each: no digit is a blank, a
sign or an underscore, and no sign is a blank (`Numeral.Clear`).
-/

namespace TapeMachine

/-! ### Cutting blanks -/

namespace Text

/-- Cutting stops at a text that starts and ends with characters to be kept. -/
theorem trim_append_append {cut : Char → Bool} {before body after : List Char}
    (hbefore : ∀ c ∈ before, cut c) (hafter : ∀ c ∈ after, cut c) {first last : Char}
    (hfirst : body.head? = some first) (hkept : cut first = false)
    (hlast : body.getLast? = some last) (hkept' : cut last = false) :
    trim cut (before ++ body ++ after) = body := by
  have hstart : (before ++ body ++ after).dropWhile cut = body ++ after := by
    obtain ⟨rest, rfl⟩ := List.head?_eq_some_iff.mp hfirst
    rw [List.append_assoc, List.dropWhile_append_of_pos hbefore, List.cons_append,
      List.dropWhile_cons_of_neg (by rw [hkept]; exact Bool.false_ne_true)]
  have hend : (body ++ after).reverse.dropWhile cut = body.reverse := by
    obtain ⟨front, rfl⟩ := List.getLast?_eq_some_iff.mp hlast
    rw [List.reverse_append, List.dropWhile_append_of_pos (by simpa using hafter),
      List.reverse_append, List.reverse_singleton, List.singleton_append,
      List.dropWhile_cons_of_neg (by rw [hkept']; exact Bool.false_ne_true)]
  rw [trim, hstart, hend, List.reverse_reverse]

end Text

namespace Numeral

/-! ### The grammar -/

/-- A run of characters writes a row of digits. There is one digit at least, and between two digits
there may be an underscore. -/
inductive Spells (digit? : Char → Option Nat) : List Char → List Nat → Prop
  | last {c : Char} {d : Nat} : digit? c = some d → Spells digit? [c] [d]
  | next {c : Char} {d : Nat} {run : List Char} {digits : List Nat} :
      digit? c = some d → Spells digit? run digits → Spells digit? (c :: run) (d :: digits)
  | underscore {c : Char} {d : Nat} {run : List Char} {digits : List Nat} :
      digit? c = some d → Spells digit? run digits → Spells digit? (c :: '_' :: run) (d :: digits)

/-- A way to write whether a number is negative. -/
inductive Signs : List Char → Bool → Prop
  | none : Signs [] false
  | plus : Signs ['+'] false
  | minus : Signs ['-'] true

/-- A text writes an integer: a sign that may be missing, and then at most 4300 digits, the most
significant first. Any number of those in front may be zeros. -/
def Renders (digit? : Char → Option Nat) (n : Int) (text : List Char) : Prop :=
  ∃ (sign run : List Char) (negative : Bool) (digits : List Nat),
    text = sign ++ run ∧ Signs sign negative ∧ Spells digit? run digits ∧ digits.length ≤ 4300 ∧
      n = (if negative then -1 else 1) * (Nat.ofDigits 10 digits.reverse : Nat)

namespace Spells

variable {digit? : Char → Option Nat} {run : List Char} {digits : List Nat}

/-- A run starts with a digit. -/
theorem exists_head? (h : Spells digit? run digits) :
    ∃ c d, run.head? = some c ∧ digit? c = some d := by
  cases h with
  | last hc | next hc _ | underscore hc _ => exact ⟨_, _, rfl, hc⟩

/-- A run ends with a digit. -/
theorem exists_getLast? (h : Spells digit? run digits) :
    ∃ c d, run.getLast? = some c ∧ digit? c = some d := by
  induction h with
  | last hc => exact ⟨_, _, rfl, hc⟩
  | next _ _ ih =>
      obtain ⟨c, d, hlast, hc⟩ := ih
      exact ⟨c, d, by simp [List.getLast?_cons, hlast], hc⟩
  | underscore _ _ ih =>
      obtain ⟨c, d, hlast, hc⟩ := ih
      exact ⟨c, d, by simp [List.getLast?_cons, hlast], hc⟩

/-- Only the characters of a run matter for what it spells. -/
theorem congr {digit'? : Char → Option Nat} (h : Spells digit? run digits)
    (hsame : ∀ c ∈ run, digit'? c = digit? c) : Spells digit'? run digits := by
  induction h with
  | last hc => exact .last ((hsame _ (by simp)).trans hc)
  | next hc _ ih =>
      exact .next ((hsame _ (by simp)).trans hc) (ih fun c' hc' => hsame c' (by simp [hc']))
  | underscore hc _ ih =>
      exact .underscore ((hsame _ (by simp)).trans hc) (ih fun c' hc' => hsame c' (by simp [hc']))

/-- A run that spells digits is read as these digits. -/
theorem digits?_eq (h : Spells digit? run digits) (hunderscore : digit? '_' = none) :
    digits? digit? run = some digits := by
  induction h with
  | last hc => simp [digits?, hc]
  | @next c d run digits hc hrun ih =>
      -- the rest of the run starts with a digit, and so not with an underscore
      obtain ⟨c', d', hhead, hc'⟩ := hrun.exists_head?
      obtain ⟨rest, rfl⟩ := List.head?_eq_some_iff.mp hhead
      have hne : c' ≠ '_' := by
        rintro rfl
        rw [hunderscore] at hc'
        cases hc'
      simp [digits?, hne, hc, ih]
  | underscore hc _ ih => simp [digits?, hc, ih]

/-- A run that is read as digits spells them. -/
theorem of_digits?_eq (h : digits? digit? run = some digits) : Spells digit? run digits := by
  fun_induction digits? digit? run generalizing digits with
  | case1 => cases h
  | case2 c =>
      obtain ⟨d, hd, rfl⟩ := Option.map_eq_some_iff.mp h
      exact .last hd
  | case3 c rest ih =>
      obtain ⟨d, hd, hrest⟩ := Option.bind_eq_some_iff.mp h
      obtain ⟨digits', hdigits', rfl⟩ := Option.map_eq_some_iff.mp hrest
      exact .underscore hd (ih hdigits')
  | case4 c rest _ _ ih =>
      obtain ⟨d, hd, hrest⟩ := Option.bind_eq_some_iff.mp h
      obtain ⟨digits', hdigits', rfl⟩ := Option.map_eq_some_iff.mp hrest
      exact .next hd (ih hdigits')

/-- Characters that are all digits spell their row. -/
theorem of_forall {f : Char → Nat} (hne : run ≠ []) (h : ∀ c ∈ run, digit? c = some (f c)) :
    Spells digit? run (run.map f) := by
  induction run with
  | nil => exact absurd rfl hne
  | cons c rest ih =>
      obtain ⟨hc, hrest⟩ := List.forall_mem_cons.mp h
      cases rest with
      | nil => exact .last hc
      | cons c' rest => exact .next hc (ih (List.cons_ne_nil c' rest) hrest)

end Spells

/-! ### Reading -/

/-- The number that a row of digits writes, in positional notation. -/
theorem value_eq_ofDigits (digits : List Nat) : value digits = Nat.ofDigits 10 digits.reverse := by
  rw [value, Nat.ofDigits_eq_foldr, List.foldr_reverse]
  simp only [Nat.cast_id, Nat.add_comm]

/-- The number that a row of digits writes with a sign in front. -/
theorem withSign_value (negative : Bool) (digits : List Nat) :
    withSign negative (value digits) =
      (if negative then -1 else 1) * (Nat.ofDigits 10 digits.reverse : Nat) := by
  rw [value_eq_ofDigits]
  cases negative <;> simp [withSign]

/-- The characters of numerals play one part each. -/
structure Clear (isBlank : Char → Bool) (digit? : Char → Option Nat) : Prop where
  digit : ∀ c d, digit? c = some d → isBlank c = false
  underscore : digit? '_' = none
  plus : digit? '+' = none ∧ isBlank '+' = false
  minus : digit? '-' = none ∧ isBlank '-' = false

section reading

variable {isBlank : Char → Bool} {digit? : Char → Option Nat} {n : Int} {text : List Char}

/-- A text that writes an integer starts and ends with characters that are no blanks, so that any
blanks around it are cut and nothing else is. -/
theorem Renders.trim_eq (h : Renders digit? n text) (hclear : Clear isBlank digit?)
    {before after : List Char} (hbefore : ∀ c ∈ before, isBlank c)
    (hafter : ∀ c ∈ after, isBlank c) : Text.trim isBlank (before ++ text ++ after) = text := by
  obtain ⟨sign, run, negative, digits, rfl, hsign, hrun, -, -⟩ := h
  obtain ⟨c, d, hhead, hc⟩ := hrun.exists_head?
  obtain ⟨c', d', hlast, hc'⟩ := hrun.exists_getLast?
  have hend : (sign ++ run).getLast? = some c' := by
    rw [List.getLast?_append, hlast]
    rfl
  have hkept' := hclear.digit c' d' hc'
  cases hsign with
  | none =>
      exact Text.trim_append_append hbefore hafter hhead (hclear.digit c d hc) hend hkept'
  | plus => exact Text.trim_append_append hbefore hafter rfl hclear.plus.2 hend hkept'
  | minus => exact Text.trim_append_append hbefore hafter rfl hclear.minus.2 hend hkept'

/-- A sign in front of a run is split off. -/
theorem splitSign_append {sign run : List Char} {negative : Bool} {digits : List Nat}
    (hsign : Signs sign negative) (hrun : Spells digit? run digits)
    (hclear : Clear isBlank digit?) : splitSign (sign ++ run) = (negative, run) := by
  cases hsign with
  | none =>
      obtain ⟨c, d, hhead, hc⟩ := hrun.exists_head?
      obtain ⟨rest, rfl⟩ := List.head?_eq_some_iff.mp hhead
      have hplus : c ≠ '+' := by
        rintro rfl
        rw [hclear.plus.1] at hc
        cases hc
      have hminus : c ≠ '-' := by
        rintro rfl
        rw [hclear.minus.1] at hc
        cases hc
      simp [splitSign, hplus, hminus]
  | plus => rfl
  | minus => rfl

/-- **Every way to write an integer is read as that integer**, with any blanks around it. -/
theorem toInt?_of_renders {script : Script} (h : Renders script.digit? n text)
    (hclear : Clear script.isBlank script.digit?) {before after : List Char}
    (hbefore : ∀ c ∈ before, script.isBlank c) (hafter : ∀ c ∈ after, script.isBlank c) :
    toInt? script (before ++ text ++ after) = some n := by
  have htrim := h.trim_eq hclear hbefore hafter
  obtain ⟨sign, run, negative, digits, rfl, hsign, hrun, hlength, rfl⟩ := h
  have hlength : digits.length ≤ maxDigits := hlength
  simp only [toInt?, htrim, splitSign_append hsign hrun hclear,
    hrun.digits?_eq hclear.underscore, if_pos hlength, withSign_value]

/-- So is the writing by itself. -/
theorem toInt?_of_renders_alone {script : Script} (h : Renders script.digit? n text)
    (hclear : Clear script.isBlank script.digit?) : toInt? script text = some n := by
  have hread : toInt? script ([] ++ text ++ []) = some n :=
    toInt?_of_renders h hclear (by simp) (by simp)
  rwa [List.nil_append, List.append_nil] at hread

end reading

/-! ### The two scripts -/

/-- A digit of any script is one of the ten that follow some zero. -/
theorem exists_zero_of_digit? {c : Char} {d : Nat} (h : digit? c = some d) :
    ∃ start ∈ zeros, start ≤ c.toNat ∧ c.toNat < start + 10 := by
  obtain ⟨start, hstart, hd⟩ := List.exists_of_findSome?_eq_some h
  unfold digitFrom? at hd
  split_ifs at hd with hrange
  exact ⟨start, hstart, hrange⟩

/-- The digits of all scripts lie between the blanks. -/
theorem zeros_between_blanks : ∀ start ∈ zeros,
    start = 0x30 ∨ 0x660 ≤ start ∧ start + 10 ≤ 0x1680 ∨
      0x1680 < start ∧ start + 10 ≤ 0x2000 ∨ 0x3000 < start := by
  decide

/-- Neither digits of any script nor signs are cut from the ends of a text. -/
theorem clear_isCut : Clear Datum.isCut digit? where
  digit c d h := by
    obtain ⟨start, hstart, hle, hlt⟩ := exists_zero_of_digit? h
    have hplace := zeros_between_blanks start hstart
    simp only [Datum.isCut, Text.isWhiteSpace, Text.isInformationSeparator, Bool.or_eq_false_iff,
      Bool.and_eq_false_iff, decide_eq_false_iff_not, beq_eq_false_iff_ne]
    omega
  underscore := by decide
  plus := by decide
  minus := by decide

theorem clear_universal : Clear Script.universal.isBlank Script.universal.digit? where
  digit c d h := (Bool.or_eq_false_iff.mp (clear_isCut.digit c d h)).1
  underscore := clear_isCut.underscore
  plus := by decide
  minus := by decide

/-- In the ASCII range the digits of all scripts are those of ASCII. -/
theorem asciiDigit?_eq_digit? {c : Char} (h : c.toNat < 0x80) : asciiDigit? c = digit? c := by
  have hothers : ∀ start ∈ zeros.tail, 0x80 ≤ start := by decide
  have hnone : (zeros.tail.findSome? fun start => digitFrom? start c.toNat) = none := by
    rw [List.findSome?_eq_none_iff]
    intro start hstart
    have hle := hothers start hstart
    exact if_neg (by omega)
  change asciiDigit? c = (0x30 :: zeros.tail).findSome? fun start => digitFrom? start c.toNat
  rw [List.findSome?_cons, hnone]
  unfold asciiDigit?
  split <;> simp_all

theorem clear_ascii : Clear Script.ascii.isBlank Script.ascii.digit? where
  digit c d h := by
    change digitFrom? 0x30 c.toNat = some d at h
    unfold digitFrom? at h
    split_ifs at h with hrange
    simp only [Script.ascii, Text.isAsciiWhiteSpace, Bool.or_eq_false_iff, Bool.and_eq_false_iff,
      decide_eq_false_iff_not, beq_eq_false_iff_ne]
    omega
  underscore := by decide
  plus := by decide
  minus := by decide

/-- Where a text has ASCII characters only, its digits are those of ASCII. -/
theorem Renders.ascii {n : Int} {text : List Char} (h : Renders digit? n text)
    (hascii : ∀ c ∈ text, c.toNat < 0x80) : Renders asciiDigit? n text := by
  obtain ⟨sign, run, negative, digits, rfl, hsign, hrun, hrest⟩ := h
  refine ⟨sign, run, negative, digits, rfl, hsign, hrun.congr fun c hc => ?_, hrest⟩
  exact asciiDigit?_eq_digit? (hascii c (List.mem_append_right sign hc))

/-! ### The way in which integers are written here -/

/-- A written integer, as characters. -/
theorem toList_ofInt (n : Int) :
    (ofInt n).toList = (if n < 0 then ['-'] else []) ++ Nat.toDigits 10 n.natAbs := by
  have hrepr : n.natAbs.repr.toList = Nat.toDigits 10 n.natAbs := by
    rw [Nat.repr_eq_ofList_toDigits, String.toList_ofList]
  unfold ofInt
  split_ifs
  · rw [String.toList_append, hrepr]
    rfl
  · exact hrepr

/-- A written integer is made of digits, and perhaps a minus sign. -/
theorem isDigit_of_mem_ofInt {n : Int} {c : Char} (h : c ∈ (ofInt n).toList) (hminus : c ≠ '-') :
    c.isDigit := by
  rw [toList_ofInt, List.mem_append] at h
  rcases h with h | h
  · split_ifs at h
    · exact absurd (List.mem_singleton.mp h) hminus
    · exact absurd h List.not_mem_nil
  · exact Nat.isDigit_of_mem_toDigits (by decide) (by decide) h

/-- The characters of a decimal are digits of any script. -/
theorem digit?_of_isDigit {c : Char} (h : c.isDigit) : digit? c = some (c.toNat - '0'.toNat) := by
  have hrange : 0x30 ≤ c.toNat ∧ c.toNat ≤ 0x39 := Char.isDigit_iff_toNat.mp h
  have hrange : 0x30 ≤ c.toNat ∧ c.toNat < 0x30 + 10 := by omega
  have hascii : asciiDigit? c = some (c.toNat - 0x30) := if_pos hrange
  rw [← asciiDigit?_eq_digit? (by omega), hascii]
  rfl

/-- What is written here is a sign and a run of digits. -/
theorem exists_spells_ofInt (n : Int) :
    ∃ (sign run : List Char) (negative : Bool) (digits : List Nat),
      (ofInt n).toList = sign ++ run ∧ Signs sign negative ∧ Spells digit? run digits ∧
        digits.length = (Nat.toDigits 10 n.natAbs).length ∧
        n = (if negative then -1 else 1) * (Nat.ofDigits 10 digits.reverse : Nat) := by
  let run := Nat.toDigits 10 n.natAbs
  let digits := run.map fun c => c.toNat - '0'.toNat
  have hrun : Spells digit? run digits := by
    refine .of_forall Nat.toDigits_ne_nil fun c hc => ?_
    exact digit?_of_isDigit (Nat.isDigit_of_mem_toDigits (by decide) (by decide) hc)
  have hvalue : Nat.ofDigits 10 digits.reverse = n.natAbs := by
    rw [← value_eq_ofDigits, value, List.foldl_map, ← Nat.ofDigitChars_eq_foldl,
      Nat.ofDigitChars_ten_toDigits]
  have hlength : digits.length = run.length := List.length_map _
  rw [toList_ofInt]
  split_ifs with hneg
  · refine ⟨['-'], run, true, digits, rfl, .minus, hrun, hlength, ?_⟩
    rw [hvalue, if_pos rfl]
    omega
  · refine ⟨[], run, false, digits, rfl, .none, hrun, hlength, ?_⟩
    rw [hvalue, if_neg Bool.false_ne_true]
    omega

/-- Integers of up to 4300 digits can be written. -/
theorem writable_iff (n : Int) : Writable n ↔ n.natAbs < 10 ^ 4300 := by
  have hlength (k : Nat) (hk : 0 < k) :
      (Nat.toDigits 10 n.natAbs).length ≤ k ↔ n.natAbs < 10 ^ k :=
    Nat.length_toDigits_le_iff (by decide) hk
  exact hlength 4300 (by decide)

/-- **What is written here is one of the ways to write an integer**, unless it is too long. -/
theorem renders_ofInt {n : Int} (h : Writable n) :
    Renders digit? n (ofInt n).toList := by
  obtain ⟨sign, run, negative, digits, htext, hsign, hrun, hlength, hn⟩ := exists_spells_ofInt n
  exact ⟨sign, run, negative, digits, htext, hsign, hrun, hlength.trans_le h, hn⟩

end Numeral

/-! ### Cell values -/

namespace Cell

/-- The integer in a wrapped cell is the only one in the range of cells that is congruent to the
given one. -/
theorem eq_toInt_wrap_iff (n k : Int) :
    k = (wrap n).toInt ↔
      -2147483648 ≤ k ∧ k ≤ 2147483647 ∧ k ≡ n [ZMOD 4294967296] := by
  have hiff := Int.bmod_eq_iff (a := n) (b := Int32.size) (c := k) (by decide)
  rw [toInt_wrap, eq_comm, hiff, Int.modEq_comm, Int.modEq_iff_dvd]
  change -(4294967296 / 2) ≤ k ∧ k < (4294967296 + 1) / 2 ∧ (4294967296 : Int) ∣ k - n ↔ _
  omega

/-- What a cell holds is never too long to be written. -/
theorem writable_toInt (v : Cell) : Numeral.Writable v.toInt := by
  have hsize : v.toInt.natAbs < 10 ^ 10 := by
    have hmin : -2147483648 ≤ v.toInt := v.le_toInt
    have hmax : v.toInt ≤ 2147483647 := v.toInt_le
    omega
  have hlength : (Nat.toDigits 10 v.toInt.natAbs).length ≤ 10 :=
    (Nat.length_toDigits_le_iff (by decide) (by decide)).mpr hsize
  exact Nat.le_trans hlength (by decide)

/-- So it can be read again. -/
theorem renders_toInt (v : Cell) :
    Numeral.Renders Numeral.digit? v.toInt (Numeral.ofInt v.toInt).toList :=
  Numeral.renders_ofInt v.writable_toInt

end Cell

namespace Datum

variable {n : Int} {text before after : List Char}

/-- **A text that writes an integer is read as the integer**, before its reading as a decimal is
tried. -/
theorem textToInt_of_renders (h : Numeral.Renders Numeral.digit? n text)
    (hbefore : ∀ c ∈ before, isCut c) (hafter : ∀ c ∈ after, isCut c) :
    textToInt (before ++ text ++ after) = .ok n := by
  have htrim := h.trim_eq Numeral.clear_isCut hbefore hafter
  -- nothing is left for the reader of integers to cut
  have hread : Numeral.toInt? .universal text = some n :=
    Numeral.toInt?_of_renders_alone h Numeral.clear_universal
  simp only [textToInt, htrim, hread]

/-- Bytes that write an integer are read as the integer. -/
theorem toInt_bytes_of_renders {bytes : List UInt8}
    (h : Numeral.Renders Numeral.digit? n text)
    (hbefore : ∀ c ∈ before, Text.isAsciiWhiteSpace c)
    (hafter : ∀ c ∈ after, Text.isAsciiWhiteSpace c)
    (hbytes : Encoding.ascii.encode? (before ++ text ++ after) = some bytes) :
    toInt (.bytes bytes) = .ok n := by
  obtain ⟨hascii, rfl⟩ := Encoding.bytesBelow?_eq_some_iff.mp hbytes
  -- a code below 128 is one below 256, and the bytes of such codes are the codes
  have hlatin : Encoding.latin1.encode? (before ++ text ++ after) =
      some ((before ++ text ++ after).map fun c => UInt8.ofNat c.toNat) :=
    Encoding.bytesBelow?_eq_some_iff.mpr ⟨fun c hc => Nat.lt_trans (hascii c hc) (by decide), rfl⟩
  have hchars : charsOfBytes ((before ++ text ++ after).map fun c => UInt8.ofNat c.toNat) =
      before ++ text ++ after := Except.ok.inj (Encoding.decode_of_encode? hlatin)
  have hread : Numeral.toInt? .ascii (before ++ text ++ after) = some n :=
    Numeral.toInt?_of_renders (h.ascii fun c hc => hascii c (by simp [hc])) Numeral.clear_ascii
      hbefore hafter
  simp only [toInt, hchars, hread, Option.elim_some]

/-- The number in a cell offers the cell. -/
theorem toCell_int_toInt (v : Cell) : toCell (.int v.toInt) = v :=
  Cell.wrap_toInt v

/-- A text that writes an integer and nothing else offers the cell that it wraps to. -/
theorem toCell_text_of_renders {n : Int} {text : String}
    (h : Numeral.Renders Numeral.digit? n text.toList) : toCell (.text text) = Cell.wrap n := by
  have hread : textToInt ([] ++ text.toList ++ []) = .ok n :=
    textToInt_of_renders h (by simp) (by simp)
  rw [List.nil_append, List.append_nil] at hread
  simp only [toCell, hread]

/-- The number in a cell, written out, offers the cell. -/
theorem toCell_text_ofInt (v : Cell) : toCell (.text (Numeral.ofInt v.toInt)) = v :=
  (toCell_text_of_renders (Cell.renders_toInt v)).trans (Cell.wrap_toInt v)

/-- **A text that writes an integer offers the cell value that the integer offers.**

* Let a text write an integer, with a sign or without, with zeros in front and underscores between
  its digits, and let characters that are cut stand around it. It offers what the integer offers.
* So do the ASCII bytes of such a text, with blanks of ASCII around it.
* What an integer offers is the cell that it wraps to, which holds the one number in the range of
  cells that is congruent to it.
* So a cell value that is written out offers itself, and what any datum offers, offers the same
  again.
-/
theorem toCell_of_rendering :
    (∀ (n : Int) (before text after : List Char), Numeral.Renders Numeral.digit? n text →
      (∀ c ∈ before, isCut c) → (∀ c ∈ after, isCut c) →
      toCell (.text (String.ofList (before ++ text ++ after))) = toCell (.int n)) ∧
    (∀ (n : Int) (before text after : List Char) (bytes : List UInt8),
      Numeral.Renders Numeral.digit? n text →
      (∀ c ∈ before, Text.isAsciiWhiteSpace c) → (∀ c ∈ after, Text.isAsciiWhiteSpace c) →
      Encoding.ascii.encode? (before ++ text ++ after) = some bytes →
      toCell (.bytes bytes) = toCell (.int n)) ∧
    (∀ n : Int, toCell (.int n) = Cell.wrap n ∧ ∀ k : Int,
      k = (Cell.wrap n).toInt ↔
        -2147483648 ≤ k ∧ k ≤ 2147483647 ∧ k ≡ n [ZMOD 4294967296]) ∧
    (∀ v : Cell, toCell (.text (Numeral.ofInt v.toInt)) = v) ∧
    ∀ d : Datum, toCell (.int (toCell d).toInt) = toCell d := by
  refine ⟨?_, ?_, fun n => ⟨rfl, Cell.eq_toInt_wrap_iff n⟩, toCell_text_ofInt,
    fun d => toCell_int_toInt (toCell d)⟩
  · intro n before text after h hbefore hafter
    have hread := textToInt_of_renders h hbefore hafter
    rw [← String.toList_ofList (l := before ++ text ++ after)] at hread
    simp only [toCell, hread]
    rfl
  · intro n before text after bytes h hbefore hafter hbytes
    have hread := toInt_bytes_of_renders h hbefore hafter hbytes
    simp only [toCell, hread]
    rfl

/-- An integer below the range of cells, with zeros in front, underscores, and blanks of two kinds
around it; digits of another script; and bytes. -/
theorem toCell_of_rendering_past_limits :
    toCell (.text "\u2003\x1c-0_04294967_299\n") = -3 ∧
    toCell (.text "\u0664\u0662") = 42 ∧
    toCell (.bytes [0x09, 0x2B, 0x30, 0x5F, 0x37, 0x0D]) = 7 := by
  have hlong : Numeral.Renders Numeral.digit? (-4294967299) "-0_04294967_299".toList :=
    ⟨['-'], "0_04294967_299".toList, true, [0, 0, 4, 2, 9, 4, 9, 6, 7, 2, 9, 9], rfl, .minus,
      .of_digits?_eq (by decide +kernel), by decide, by decide +kernel⟩
  have hother : Numeral.Renders Numeral.digit? 42 ['\u0664', '\u0662'] :=
    ⟨[], _, false, [4, 2], rfl, .none, .next (by decide) (.last (by decide)), by decide,
      by decide +kernel⟩
  have hshort : Numeral.Renders Numeral.digit? 7 ['+', '0', '_', '7'] :=
    ⟨['+'], _, false, [0, 7], rfl, .plus, .underscore (by decide) (.last (by decide)), by decide,
      by decide +kernel⟩
  obtain ⟨htext, hbytes, -⟩ := toCell_of_rendering
  refine ⟨?_, ?_, ?_⟩
  · exact (htext _ ['\u2003', '\x1c'] _ ['\n'] hlong (List.all_eq_true.mp rfl)
      (List.all_eq_true.mp rfl)).trans (by decide +kernel)
  · exact (htext _ [] _ [] hother (by simp) (by simp)).trans (by decide +kernel)
  · exact (hbytes _ ['\t'] _ ['\r'] _ hshort (List.all_eq_true.mp rfl) (List.all_eq_true.mp rfl)
      rfl).trans (by decide +kernel)

end Datum

end TapeMachine
