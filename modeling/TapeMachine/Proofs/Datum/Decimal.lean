import TapeMachine.Datum
import TapeMachine.Numeral.Written
import TapeMachine.Proofs.Binary64.Rounding

/-!
# Decimals as cell values

A text that does not write an integer may still write a decimal, and then it offers the cell of the
number nearest to the decimal in double precision, without its fraction. Rounding and cutting off
lose nothing of an integer with at most 53 bits, whatever way it is written in, so such a text
offers what the integer offers (`Datum.textToInt_of_whole`). What is too great for double precision
and what is no number at all offer zero (`Datum.textToInt_of_overflow`,
`Datum.textToInt_of_rendersName`).
-/

namespace TapeMachine

namespace Datum

open Numeral (RendersDecimal RendersName Renders signed)
open Binary64 (Rounds)

/-! ### Cutting off a fraction -/

/-- A number of double precision that is whole has itself as its whole part. -/
theorem wholePart_of_eq {mantissa k : Nat} {exponent : Int}
    (h : (mantissa : ℚ) * 2 ^ exponent = k) : Binary64.wholePart mantissa exponent = k := by
  unfold Binary64.wholePart
  split_ifs with hexponent
  · rw [← Binary64.cast_twoTo_toNat hexponent] at h
    exact_mod_cast h
  · have hpos : 0 < Binary64.twoTo (-exponent).toNat := Nat.two_pow_pos _
    have hmantissa : mantissa = k * Binary64.twoTo (-exponent).toNat := by
      have hcast : (mantissa : ℚ) = k * Binary64.twoTo (-exponent).toNat := by
        rw [← h, Binary64.cast_twoTo_toNat (by omega), mul_assoc,
          ← zpow_add₀ two_ne_zero, add_neg_cancel, zpow_zero, mul_one]
      exact_mod_cast hcast
    rw [hmantissa, Nat.mul_div_cancel k hpos]

/-- A number of double precision that is an integer loses nothing when its fraction is cut off. -/
theorem truncate_of_signed_eq {negative : Bool} {mantissa : Nat} {exponent n : Int}
    (h : signed negative (mantissa * 2 ^ exponent) = n) :
    truncate (.finite negative mantissa exponent) = .ok n := by
  have hnonneg : (0 : ℚ) ≤ mantissa * 2 ^ exponent :=
    mul_nonneg (Nat.cast_nonneg mantissa) (Binary64.two_zpow_pos exponent).le
  have hsize : (mantissa : ℚ) * 2 ^ exponent = n.natAbs := by
    rw [← abs_of_nonneg hnonneg, ← Binary64.abs_signed negative, h, Nat.cast_natAbs, Int.cast_abs]
  rw [hsize, ← Numeral.cast_withSign] at h
  rw [truncate, wholePart_of_eq hsize, Int.cast_inj.mp h]

/-! ### Texts -/

section texts

variable {text before after : List Char}

/-- A text is no integer if it is not read as one. -/
theorem not_renders_of_toInt?_eq_none (h : Numeral.toInt? .universal text = none) (k : Int) :
    ¬ Renders Numeral.digit? k text := by
  intro hk
  rw [Numeral.toInt?_of_renders_alone hk Numeral.clear_universal] at h
  cases h

/-- Nothing is left for the readers of numbers to cut. -/
theorem trim_isWhiteSpace_of_forall (hcut : ∀ c ∈ text, isCut c = false) :
    Text.trim Text.isWhiteSpace text = text := by
  have htrim : Text.trim Text.isWhiteSpace ([] ++ text ++ []) = text :=
    Text.trim_of_forall (by simp) (by simp) fun c hc => (Bool.or_eq_false_iff.mp (hcut c hc)).1
  rwa [List.nil_append, List.append_nil] at htrim

/-- A text that writes no integer is left to the reader of decimals, without the characters that are
cut around it. -/
theorem textToInt_of_not_renders (hbefore : ∀ c ∈ before, isCut c) (hafter : ∀ c ∈ after, isCut c)
    (hcut : ∀ c ∈ text, isCut c = false) (hint : ∀ k, ¬ Renders Numeral.digit? k text)
    {decimal : Numeral.Decimal} (hread : Numeral.toDecimal? .universal text = some decimal) :
    textToInt (before ++ text ++ after) = truncate (.ofDecimal decimal) := by
  have hnone : Numeral.toInt? .universal text = none := by
    rw [Option.eq_none_iff_forall_ne_some]
    intro k hk
    rw [Numeral.toInt?_eq_some_iff, trim_isWhiteSpace_of_forall hcut] at hk
    exact hint k hk
  simp only [textToInt, Text.trim_of_forall hbefore hafter hcut, hnone, hread]

/-- **A decimal is rounded, and its fraction is cut off.** -/
theorem textToInt_of_rendersDecimal (hbefore : ∀ c ∈ before, isCut c)
    (hafter : ∀ c ∈ after, isCut c) {q : ℚ} (h : RendersDecimal q text)
    (hint : ∀ k, ¬ Renders Numeral.digit? k text) :
    ∃ x, Rounds q x ∧ textToInt (before ++ text ++ after) = truncate x := by
  have hcut := h.forall_isCut
  rw [← trim_isWhiteSpace_of_forall hcut] at h
  obtain ⟨negative, digits, exponent, hread, hdigits, rfl⟩ :=
    Numeral.exists_toDecimal?_of_rendersDecimal h
  exact ⟨_, Binary64.ofDecimal_rounds negative hdigits exponent,
    textToInt_of_not_renders hbefore hafter hcut hint hread⟩

/-- A decimal that is an integer with at most 53 bits is read as this integer. -/
theorem textToInt_of_whole (hbefore : ∀ c ∈ before, isCut c) (hafter : ∀ c ∈ after, isCut c)
    {n : Int} (hn : |n| ≤ 2 ^ 53) (h : RendersDecimal n text)
    (hint : ∀ k, ¬ Renders Numeral.digit? k text) :
    textToInt (before ++ text ++ after) = .ok n := by
  obtain ⟨x, hround, hread⟩ := textToInt_of_rendersDecimal hbefore hafter h hint
  have hsize : |(n : ℚ)| < Binary64.overflowBound := by
    have hle : |(n : ℚ)| ≤ 2 ^ 53 := by exact_mod_cast hn
    have hlt : (2 : ℚ) ^ 53 < 2 ^ 54 := by norm_num
    exact (hle.trans_lt hlt).trans_le (Binary64.two_pow_le_overflowBound (by norm_num))
  obtain ⟨negative, mantissa, exponent, rfl, heq⟩ :=
    hround.eq_of_onGrid (Binary64.onGrid_intCast hn) hsize
  rw [hread, truncate_of_signed_eq heq]

/-- A decimal that is rounded to an infinite number is read as no integer. -/
theorem textToInt_of_overflow (hbefore : ∀ c ∈ before, isCut c) (hafter : ∀ c ∈ after, isCut c)
    {q : ℚ} (h : RendersDecimal q text) (hint : ∀ k, ¬ Renders Numeral.digit? k text)
    {negative : Bool} (hinfinite : Rounds q (.infinite negative)) :
    textToInt (before ++ text ++ after) = .error .infinite := by
  obtain ⟨x, hround, hread⟩ := textToInt_of_rendersDecimal hbefore hafter h hint
  obtain ⟨negative', rfl⟩ := hround.eq_infinite hinfinite
  exact hread

/-- A name is read as no integer. -/
theorem textToInt_of_rendersName (hbefore : ∀ c ∈ before, isCut c)
    (hafter : ∀ c ∈ after, isCut c) (h : RendersName text)
    (hint : ∀ k, ¬ Renders Numeral.digit? k text) :
    ∃ fault, textToInt (before ++ text ++ after) = .error fault := by
  have hcut := h.forall_isCut
  rw [← trim_isWhiteSpace_of_forall hcut] at h
  obtain ⟨negative, hread | hread⟩ := Numeral.exists_toDecimal?_of_rendersName h
  · exact ⟨.infinite, textToInt_of_not_renders hbefore hafter hcut hint hread⟩
  · exact ⟨.unreadable, textToInt_of_not_renders hbefore hafter hcut hint hread⟩

/-- An integer with at most 53 bits, written out, offers the cell that it wraps to. -/
theorem toCell_text_ofInt_of_le {n : Int} (hn : |n| ≤ 2 ^ 53) :
    toCell (.text (Numeral.ofInt n)) = Cell.wrap n := by
  have hlength : (Nat.toDigits 10 n.natAbs).length ≤ 16 := by
    rw [Nat.length_toDigits_le_iff (by decide) (by decide)]
    rw [Int.abs_eq_natAbs] at hn
    omega
  exact toCell_text_of_renders (Numeral.renders_ofInt (hlength.trans (by decide)))

end texts

/-- **A decimal that is an integer offers the cell value that the integer offers.**

* A text is read in double precision exactly if, blanks apart, it writes a decimal or names an
  infinite number or no number; and a decimal is read as the number that it is rounded to.
* A text is read as an integer exactly if, blanks apart, it writes one.
* Let a text write no integer, and let characters that are cut stand around it. If it writes a
  decimal whose value is an integer with at most 53 bits, it offers the cell that this integer wraps
  to, and so does the integer when it is written out.
* If it is such a name, or if it writes a decimal that is rounded to an infinite number, it offers
  zero.
-/
theorem toCell_of_decimal :
    (∀ text : String, (Binary64.ofText? text).isSome ↔
      (∃ q, RendersDecimal q (Text.trim Text.isWhiteSpace text.toList)) ∨
        RendersName (Text.trim Text.isWhiteSpace text.toList)) ∧
    (∀ (text : String) (q : ℚ), RendersDecimal q (Text.trim Text.isWhiteSpace text.toList) →
      ∃ x, Binary64.ofText? text = some x ∧ Rounds q x) ∧
    (∀ (text : String) (n : Int), toInt (.text text) = .ok n ↔
      Renders Numeral.digit? n (Text.trim Text.isWhiteSpace text.toList)) ∧
    ∀ before text after : List Char, (∀ c ∈ before, isCut c) → (∀ c ∈ after, isCut c) →
      (∀ k, ¬ Renders Numeral.digit? k text) →
      (∀ n : Int, |n| ≤ 2 ^ 53 → RendersDecimal n text →
        toCell (.text (String.ofList (before ++ text ++ after))) = Cell.wrap n ∧
          toCell (.text (Numeral.ofInt n)) = Cell.wrap n) ∧
      (RendersName text → toCell (.text (String.ofList (before ++ text ++ after))) = 0) ∧
      ∀ (q : ℚ) (negative : Bool), RendersDecimal q text → Rounds q (.infinite negative) →
        toCell (.text (String.ofList (before ++ text ++ after))) = 0 := by
  refine ⟨fun text => ?_, fun text q => Binary64.exists_ofText?_of_rendersDecimal,
    fun text n => ?_, fun before text after hbefore hafter hint => ⟨?_, ?_, ?_⟩⟩
  · rw [Binary64.ofText?, Option.isSome_map, Numeral.isSome_toDecimal?_iff]
  · rw [← Numeral.toInt?_eq_some_iff, toInt]
    cases Numeral.toInt? .universal text.toList <;> simp
  · intro n hn h
    have hread := textToInt_of_whole hbefore hafter hn h hint
    refine ⟨?_, toCell_text_ofInt_of_le hn⟩
    simp only [toCell, String.toList_ofList, hread]
  · intro h
    obtain ⟨fault, hread⟩ := textToInt_of_rendersName hbefore hafter h hint
    simp only [toCell, String.toList_ofList, hread]
  · intro q negative h hinfinite
    have hread := textToInt_of_overflow hbefore hafter h hint hinfinite
    simp only [toCell, String.toList_ofList, hread]

/-- An integer that is negative and has 53 bits, with a point, an underscore and an exponent; an
infinite number; and a decimal between the greatest finite number and `2 ^ 1024`. -/
theorem toCell_of_decimal_at_limits :
    toCell (.text "\u2003-900719925474.0990_00E+4\n") = 2 ∧
    toCell (.text "+iNFINITY") = 0 ∧
    toCell (.text "1.797693134862315808e308") = 0 := by
  have hwhole : RendersDecimal (-9007199254740990 : Int) "-900719925474.0990_00E+4".toList :=
    ⟨['-'], "900719925474".toList ++ '.' :: "0990_00".toList, 'E' :: (['+'] ++ ['4']), true,
      [9, 0, 0, 7, 1, 9, 9, 2, 5, 4, 7, 4], [0, 9, 9, 0, 0, 0], 4, rfl, .minus,
      .point (.run (.of_digits?_eq (by decide +kernel))) (.run (.of_digits?_eq (by decide +kernel)))
        (by decide),
      @Numeral.Scales.power 'E' ['+'] ['4'] false [4] (.inr rfl) .plus (.last (by decide)),
      by norm_num [signed, Nat.ofDigits]⟩
  obtain ⟨q, hgreat, hinfinite⟩ : ∃ q, RendersDecimal q "1.797693134862315808e308".toList ∧
      Rounds q (.infinite false) := by
    refine ⟨1797693134862315808 * 10 ^ 290, ⟨[], ['1'] ++ '.' :: "797693134862315808".toList,
      'e' :: ([] ++ "308".toList), false,
      [1], [7, 9, 7, 6, 9, 3, 1, 3, 4, 8, 6, 2, 3, 1, 5, 8, 0, 8], 308, rfl, .none,
      .point (.run (.last (by decide))) (.run (.of_digits?_eq (by decide +kernel))) (by decide),
      @Numeral.Scales.power 'e' [] "308".toList false [3, 0, 8] (.inl rfl) .none
        (.of_digits?_eq (by decide +kernel)), ?_⟩, ?_⟩
    · rw [show (308 : Int) = 18 + (290 : Nat) from rfl, zpow_add₀ (by norm_num), zpow_natCast]
      generalize (10 : ℚ) ^ 290 = unit
      norm_num [signed, Nat.ofDigits]
      ring
    · have hle : 2 ^ 1024 ≤ 1797693134862315808 * 10 ^ 290 + 2 ^ 970 := by decide +kernel
      have hle' : (2 : ℚ) ^ 1024 ≤ 1797693134862315808 * 10 ^ 290 + 2 ^ 970 := by
        exact_mod_cast hle
      exact .infinite (sub_le_iff_le_add.mpr hle')
  have hplain : ∀ text : String, String.ofList ([] ++ text.toList ++ []) = text := by simp
  have hblank : String.ofList (['\u2003'] ++ "-900719925474.0990_00E+4".toList ++ ['\n']) =
      "\u2003-900719925474.0990_00E+4\n" := by decide +kernel
  obtain ⟨-, -, -, hcell⟩ := toCell_of_decimal
  refine ⟨?_, ?_, ?_⟩
  · rw [← hblank]
    exact ((hcell ['\u2003'] _ ['\n'] (List.all_eq_true.mp rfl) (List.all_eq_true.mp rfl)
      (not_renders_of_toInt?_eq_none (by decide +kernel))).1 _ (by norm_num) hwhole).1.trans
        (by decide +kernel)
  · rw [← hplain "+iNFINITY"]
    exact (hcell [] _ [] (by simp) (by simp)
      (not_renders_of_toInt?_eq_none (by decide +kernel))).2.1
        ⟨['+'], "iNFINITY".toList, false, rfl, .plus,
          Numeral.isName_iff.mpr (.inl (.inr (by decide +kernel)))⟩
  · rw [← hplain "1.797693134862315808e308"]
    exact (hcell [] _ [] (by simp) (by simp)
      (not_renders_of_toInt?_eq_none (by decide +kernel))).2.2 q false hgreat hinfinite

end Datum

end TapeMachine
