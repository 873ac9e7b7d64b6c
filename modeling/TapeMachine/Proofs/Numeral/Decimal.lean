import Mathlib.Data.List.TakeWhile
import Mathlib.Data.Rat.Cast.Defs
import Mathlib.Tactic.FieldSimp
import Mathlib.Tactic.Ring
import TapeMachine.Proofs.Numeral.Rendering

/-!
# Ways to write a decimal

A decimal is written as a sign that may be missing, digits with a point among them, at either end of
them or not at all, and a power of ten that may be missing. `Numeral.RendersDecimal` says which
texts write a rational number in this way, and `Numeral.RendersName` which words stand for an
infinite number or for no number, the blanks apart.

The grammar and the reader agree: a text that writes a rational number is read as a decimal with
this value (`Numeral.exists_toDecimal?_of_rendersDecimal`), and no other texts than these and the
names are read as decimals (`Numeral.isSome_toDecimal?_iff`). A run of digits ends where it has to,
because no point and no mark of an exponent can stand in one; and names cannot be confused with
digits, because only Latin letters have small letters.
-/

namespace TapeMachine

namespace Text

/-- Cutting takes away what is to be cut around a text that has nothing of the kind in it. -/
theorem trim_of_forall {cut : Char → Bool} {before body after : List Char}
    (hbefore : ∀ c ∈ before, cut c) (hafter : ∀ c ∈ after, cut c)
    (hbody : ∀ c ∈ body, cut c = false) : trim cut (before ++ body ++ after) = body := by
  cases body with
  | nil =>
      have hall : ∀ c ∈ before ++ after, cut c := by
        simpa [or_imp, forall_and] using ⟨hbefore, hafter⟩
      rw [trim, List.append_nil, List.dropWhile_eq_nil_iff.mpr hall]
      rfl
  | cons c rest =>
      exact trim_append_append hbefore hafter rfl (hbody c List.mem_cons_self)
        (List.getLast?_eq_some_getLast (List.cons_ne_nil c rest)) (hbody _ (List.getLast_mem _))

/-- What is cut from a text stood around the rest. -/
theorem exists_eq_append_trim_append (cut : Char → Bool) (text : List Char) :
    ∃ before after, (∀ c ∈ before, cut c) ∧ (∀ c ∈ after, cut c) ∧
      text = before ++ trim cut text ++ after := by
  let rest := text.dropWhile cut
  refine ⟨text.takeWhile cut, (rest.reverse.takeWhile cut).reverse,
    fun c hc => List.mem_takeWhile_imp hc,
    fun c hc => List.mem_takeWhile_imp (List.mem_reverse.mp hc), ?_⟩
  have hrest : rest = trim cut text ++ (rest.reverse.takeWhile cut).reverse := by
    rw [trim, ← List.reverse_append, List.takeWhile_append_dropWhile, List.reverse_reverse]
  rw [List.append_assoc, ← hrest, List.takeWhile_append_dropWhile]

end Text

namespace Numeral

/-! ### The grammar -/

/-- A run that may be missing writes a row of digits. -/
inductive SpellsIfAny : List Char → List Nat → Prop
  | nothing : SpellsIfAny [] []
  | run {run : List Char} {digits : List Nat} : Spells digit? run digits → SpellsIfAny run digits

/-- A text writes the digits before and after a point. The point may be missing, and so may the
digits on either side of it, but not on both. -/
inductive Pointed : List Char → List Nat → List Nat → Prop
  | without {run : List Char} {whole : List Nat} : Spells digit? run whole → Pointed run whole []
  | point {before after : List Char} {whole fraction : List Nat} :
      SpellsIfAny before whole → SpellsIfAny after fraction → (before ≠ [] ∨ after ≠ []) →
      Pointed (before ++ '.' :: after) whole fraction

/-- A text writes a power of ten, or nothing for the power zero. -/
inductive Scales : List Char → Int → Prop
  | nothing : Scales [] 0
  | power {mark : Char} {sign run : List Char} {negative : Bool} {digits : List Nat} :
      mark = 'e' ∨ mark = 'E' → Signs sign negative → Spells digit? run digits →
      Scales (mark :: (sign ++ run))
        ((if negative then -1 else 1) * (Nat.ofDigits 10 digits.reverse : Nat))

/-- A rational number with the given sign and size. -/
def signed (negative : Bool) (size : ℚ) : ℚ :=
  if negative then -size else size

theorem cast_withSign (negative : Bool) (size : Nat) :
    (withSign negative size : ℚ) = signed negative size := by
  cases negative <;> simp [withSign, signed]

/-- A text writes a rational number as a decimal: a sign, digits around a point, and a power of ten.
All but one digit may be missing. -/
def RendersDecimal (q : ℚ) (text : List Char) : Prop :=
  ∃ (sign body tail : List Char) (negative : Bool) (whole fraction : List Nat) (e : Int),
    text = sign ++ (body ++ tail) ∧ Signs sign negative ∧ Pointed body whole fraction ∧
      Scales tail e ∧
      q = signed negative (((Nat.ofDigits 10 whole.reverse : Nat) +
        (Nat.ofDigits 10 fraction.reverse : Nat) / 10 ^ fraction.length) * 10 ^ e)

/-- A word stands for an infinite number or for no number, in any case of its letters. -/
def IsName (word : List Char) : Prop :=
  String.ofList (word.map Char.toLower) ∈ ["inf", "infinity", "nan"]

/-- A text is such a word, perhaps with a sign in front. -/
def RendersName (text : List Char) : Prop :=
  ∃ (sign word : List Char) (negative : Bool),
    text = sign ++ word ∧ Signs sign negative ∧ IsName word

/-! ### Characters -/

/-- Only Latin capitals have small letters. -/
theorem toLower_eq_self {c : Char} (h : c.toNat < 0x41 ∨ 0x5A < c.toNat) : c.toLower = c := by
  refine dif_neg fun hrange => ?_
  have hlow : 0x41 ≤ c.toNat := UInt32.le_iff_toNat_le.mp hrange.1
  have hhigh : c.toNat ≤ 0x5A := UInt32.le_iff_toNat_le.mp hrange.2
  omega

theorem toLower_of_digit? {c : Char} {d : Nat} (h : digit? c = some d) : c.toLower = c := by
  obtain ⟨start, hstart, hle, hlt⟩ := exists_zero_of_digit? h
  have hplace := zeros_between_blanks start hstart
  exact toLower_eq_self (by omega)

theorem toLower_of_isCut {c : Char} (h : Datum.isCut c) : c.toLower = c := by
  apply toLower_eq_self
  simp only [Datum.isCut, Text.isWhiteSpace, Text.isInformationSeparator, Bool.or_eq_true,
    Bool.and_eq_true, decide_eq_true_eq, beq_iff_eq] at h
  omega

theorem digit?_lt {c : Char} {d : Nat} (h : digit? c = some d) : d < 10 := by
  obtain ⟨start, -, hd⟩ := List.exists_of_findSome?_eq_some h
  unfold digitFrom? at hd
  split_ifs at hd with hrange
  cases hd
  omega

/-- The characters of runs are not cut. -/
theorem isCut_of_inRun {c : Char} (h : inRun digit? c) : Datum.isCut c = false := by
  rcases Bool.or_eq_true_iff.mp h with hunderscore | hdigit
  · rw [beq_iff_eq.mp hunderscore]
    rfl
  · obtain ⟨d, hd⟩ := Option.isSome_iff_exists.mp hdigit
    exact clear_isCut.digit c d hd

theorem Spells.forall_inRun {run : List Char} {digits : List Nat} (h : Spells digit? run digits) :
    ∀ c ∈ run, inRun digit? c := by
  induction h with
  | last hc => simp [inRun, hc]
  | next hc _ ih => simpa [inRun, hc] using ih
  | underscore hc _ ih => simpa [inRun, hc] using ih

theorem SpellsIfAny.forall_inRun {run : List Char} {digits : List Nat}
    (h : SpellsIfAny run digits) : ∀ c ∈ run, inRun digit? c := by
  cases h with
  | nothing => simp
  | run hrun => exact hrun.forall_inRun

theorem Spells.forall_isCut {run : List Char} {digits : List Nat} (h : Spells digit? run digits) :
    ∀ c ∈ run, Datum.isCut c = false :=
  fun c hc => isCut_of_inRun (h.forall_inRun c hc)

theorem Signs.forall_isCut {sign : List Char} {negative : Bool} (h : Signs sign negative) :
    ∀ c ∈ sign, Datum.isCut c = false := by
  cases h with
  | none => exact List.forall_mem_nil _
  | plus | minus => exact List.forall_mem_singleton.mpr rfl

theorem SpellsIfAny.forall_isCut {run : List Char} {digits : List Nat}
    (h : SpellsIfAny run digits) : ∀ c ∈ run, Datum.isCut c = false := by
  cases h with
  | nothing => simp
  | run hrun => exact hrun.forall_isCut

theorem Pointed.forall_isCut {body : List Char} {whole fraction : List Nat}
    (h : Pointed body whole fraction) : ∀ c ∈ body, Datum.isCut c = false := by
  cases h with
  | without hrun => exact hrun.forall_isCut
  | point hbefore hafter _ =>
      simp only [List.mem_append, List.mem_cons]
      rintro c (hc | rfl | hc)
      · exact hbefore.forall_isCut c hc
      · rfl
      · exact hafter.forall_isCut c hc

theorem Scales.forall_isCut {tail : List Char} {e : Int} (h : Scales tail e) :
    ∀ c ∈ tail, Datum.isCut c = false := by
  cases h with
  | nothing => simp
  | power hmark hsign hrun =>
      simp only [List.mem_append, List.mem_cons]
      rintro c (rfl | hc | hc)
      · rcases hmark with rfl | rfl <;> rfl
      · exact hsign.forall_isCut c hc
      · exact hrun.forall_isCut c hc

/-- No character of a decimal is cut. -/
theorem RendersDecimal.forall_isCut {q : ℚ} {text : List Char} (h : RendersDecimal q text) :
    ∀ c ∈ text, Datum.isCut c = false := by
  obtain ⟨sign, body, tail, negative, whole, fraction, e, rfl, hsign, hbody, htail, -⟩ := h
  simp only [List.mem_append]
  rintro c (hc | hc | hc)
  · exact hsign.forall_isCut c hc
  · exact hbody.forall_isCut c hc
  · exact htail.forall_isCut c hc

/-- No letter of a name is cut. -/
theorem RendersName.forall_isCut {text : List Char} (h : RendersName text) :
    ∀ c ∈ text, Datum.isCut c = false := by
  obtain ⟨sign, word, negative, rfl, hsign, hword⟩ := h
  have hletters : ∀ name ∈ ["inf", "infinity", "nan"],
      name.toList.all (fun c => !Datum.isCut c) := by decide
  simp only [List.mem_append]
  rintro c (hc | hc)
  · exact hsign.forall_isCut c hc
  · by_contra hcut
    rw [Bool.not_eq_false] at hcut
    have hmem : c.toLower ∈ word.map Char.toLower := List.mem_map_of_mem hc
    rw [toLower_of_isCut hcut, ← String.toList_ofList (l := word.map Char.toLower)] at hmem
    have hclear := List.all_eq_true.mp (hletters _ hword) c hmem
    rw [hcut] at hclear
    cases hclear

/-! ### Reading -/

/-- A run ends where no more characters of runs follow. -/
theorem splitRun_append {run rest : List Char} (hrun : ∀ c ∈ run, inRun digit? c)
    (hrest : ∀ c, rest.head? = some c → inRun digit? c = false) :
    splitRun digit? (run ++ rest) = (run, rest) := by
  have hstop : rest.takeWhile (inRun digit?) = [] ∧ rest.dropWhile (inRun digit?) = rest := by
    cases rest with
    | nil => exact ⟨rfl, rfl⟩
    | cons c rest => simp [List.takeWhile, List.dropWhile, hrest c rfl]
  rw [splitRun, List.takeWhile_append_of_pos hrun, List.dropWhile_append_of_pos hrun, hstop.1,
    hstop.2, List.append_nil]

/-- A sign is split off from what does not start with another. -/
theorem splitSign_of_signs {sign rest : List Char} {negative : Bool} (hsign : Signs sign negative)
    (hrest : ∀ c, rest.head? = some c → c ≠ '+' ∧ c ≠ '-') :
    splitSign (sign ++ rest) = (negative, rest) := by
  cases hsign with
  | plus | minus => rfl
  | none =>
      cases rest with
      | nil => rfl
      | cons c rest => simp [splitSign, hrest c rfl]

/-- What is split off is a sign. -/
theorem exists_signs_of_splitSign_eq {text rest : List Char} {negative : Bool}
    (h : splitSign text = (negative, rest)) :
    ∃ sign, Signs sign negative ∧ text = sign ++ rest := by
  unfold splitSign at h
  split at h <;> cases h
  · exact ⟨['-'], .minus, rfl⟩
  · exact ⟨['+'], .plus, rfl⟩
  · exact ⟨[], .none, rfl⟩

theorem SpellsIfAny.optionalDigits?_eq {run : List Char} {digits : List Nat}
    (h : SpellsIfAny run digits) : optionalDigits? digit? run = some digits := by
  cases h with
  | nothing => rfl
  | run hrun =>
      obtain ⟨c, d, hhead, -⟩ := hrun.exists_head?
      obtain ⟨rest, rfl⟩ := List.head?_eq_some_iff.mp hhead
      exact hrun.digits?_eq clear_universal.underscore

theorem SpellsIfAny.of_optionalDigits?_eq {run : List Char} {digits : List Nat}
    (h : optionalDigits? digit? run = some digits) : SpellsIfAny run digits := by
  cases run with
  | nil =>
      cases h
      exact .nothing
  | cons c rest => exact .run (.of_digits?_eq h)

theorem Scales.exponent?_eq {tail : List Char} {e : Int} (h : Scales tail e) :
    exponent? digit? tail = some e := by
  cases h with
  | nothing => rfl
  | power hmark hsign hrun =>
      simp only [exponent?, if_pos hmark, splitSign_append hsign hrun clear_universal,
        hrun.digits?_eq clear_universal.underscore, Option.map_some, withSign_value]

theorem Scales.of_exponent?_eq {tail : List Char} {e : Int} (h : exponent? digit? tail = some e) :
    Scales tail e := by
  cases tail with
  | nil =>
      cases h
      exact .nothing
  | cons mark rest =>
      simp only [exponent?] at h
      split_ifs at h with hmark
      rcases hsplit : splitSign rest with ⟨negative, run⟩
      rw [hsplit] at h
      obtain ⟨digits, hdigits, rfl⟩ := Option.map_eq_some_iff.mp h
      obtain ⟨sign, hsign, rfl⟩ := exists_signs_of_splitSign_eq hsplit
      rw [withSign_value]
      exact .power hmark hsign (.of_digits?_eq hdigits)

/-- An exponent starts with its mark. -/
theorem Scales.head?_eq {tail : List Char} {e : Int} (h : Scales tail e) {c : Char}
    (hc : tail.head? = some c) : c = 'e' ∨ c = 'E' := by
  cases h with
  | nothing => cases hc
  | power hmark _ _ =>
      cases hc
      exact hmark

/-- The digits around a point start with a digit or with the point. -/
theorem Pointed.head?_eq {body : List Char} {whole fraction : List Nat}
    (h : Pointed body whole fraction) :
    ∃ c rest, body = c :: rest ∧ (c = '.' ∨ ∃ d, digit? c = some d) := by
  have hrun : ∀ {run : List Char} {digits : List Nat}, Spells digit? run digits →
      ∃ c rest, run = c :: rest ∧ ∃ d, digit? c = some d := by
    intro run digits hrun
    obtain ⟨c, d, hhead, hc⟩ := hrun.exists_head?
    obtain ⟨rest, rfl⟩ := List.head?_eq_some_iff.mp hhead
    exact ⟨c, rest, rfl, d, hc⟩
  cases h with
  | without hwhole =>
      obtain ⟨c, rest, rfl, hc⟩ := hrun hwhole
      exact ⟨c, rest, rfl, .inr hc⟩
  | @point before after _ _ hbefore _ _ =>
      cases hbefore with
      | nothing => exact ⟨'.', after, rfl, .inl rfl⟩
      | run hwhole =>
          obtain ⟨c, rest, rfl, hc⟩ := hrun hwhole
          exact ⟨c, rest ++ '.' :: after, rfl, .inr hc⟩

/-- A name starts with one of two letters. -/
theorem IsName.toLower_head? {word : List Char} (h : IsName word) {c : Char}
    (hc : word.head? = some c) : c.toLower = 'i' ∨ c.toLower = 'n' := by
  have hfirst : ∀ name ∈ ["inf", "infinity", "nan"],
      name.toList.head?.all (fun c => c = 'i' ∨ c = 'n') := by decide
  have hname := hfirst _ h
  rw [String.toList_ofList, List.head?_map, hc] at hname
  exact of_decide_eq_true hname

theorem isName_iff {word : List Char} : IsName word ↔
    (String.ofList (word.map Char.toLower) = "inf" ∨
      String.ofList (word.map Char.toLower) = "infinity") ∨
        String.ofList (word.map Char.toLower) = "nan" := by
  simp [IsName, or_assoc]

/-- **A decimal without its sign is read as what is written.** -/
theorem Pointed.unsigned?_eq {body tail : List Char} {whole fraction : List Nat} {e : Int}
    (hbody : Pointed body whole fraction) (htail : Scales tail e) (negative : Bool) :
    unsigned? digit? negative (body ++ tail) =
      some (.finite negative (whole ++ fraction) (e - fraction.length)) := by
  have hname : ¬ IsName (body ++ tail) := by
    intro hname
    obtain ⟨c, rest, rfl, rfl | ⟨d, hd⟩⟩ := hbody.head?_eq
    · exact absurd (hname.toLower_head? rfl) (by decide)
    · rcases hname.toLower_head? rfl with hc | hc <;> rw [toLower_of_digit? hd] at hc <;>
        subst hc <;> cases hd
  rw [isName_iff, not_or] at hname
  -- the run of digits before the exponent ends with it
  have hmark : ∀ c, tail.head? = some c → inRun digit? c = false := by
    intro c hc
    rcases htail.head?_eq hc with rfl | rfl <;> decide
  unfold unsigned?
  rw [if_neg hname.1, if_neg hname.2]
  cases hbody with
  | without hwhole =>
      have hany : body ≠ [] := by
        rintro rfl
        cases hwhole
      have hsplit := splitRun_append hwhole.forall_inRun hmark
      have hdigits := hwhole.digits?_eq clear_universal.underscore
      have hexponent := htail.exponent?_eq
      -- what follows the run is nothing or starts with the mark, and is no point either way
      rcases tail with _ | ⟨c, rest⟩
      · rw [List.append_nil] at hsplit ⊢
        simp [hsplit, hany, hdigits, hexponent, optionalDigits?]
      · rcases htail.head?_eq rfl with rfl | rfl <;>
          simp [hsplit, hany, hdigits, hexponent, optionalDigits?]
  | @point before after _ _ hbefore hafter hsome =>
      have hpoint : ∀ c, ('.' :: (after ++ tail)).head? = some c → inRun digit? c = false := by
        rintro c ⟨⟩
        decide
      have hany : ¬ (before = [] ∧ after = []) := by
        rintro ⟨hbefore, hafter⟩
        rcases hsome with hne | hne
        · exact hne hbefore
        · exact hne hafter
      simp only [List.append_assoc, List.cons_append, splitRun_append hbefore.forall_inRun hpoint,
        splitRun_append hafter.forall_inRun hmark, Bool.and_eq_true, List.isEmpty_iff, hany,
        if_false, hbefore.optionalDigits?_eq, hafter.optionalDigits?_eq, htail.exponent?_eq]

theorem append_of_splitRun_eq {text run rest : List Char}
    (h : splitRun digit? text = (run, rest)) : text = run ++ rest := by
  cases h
  exact List.takeWhile_append_dropWhile.symm

/-- A text that is read as a decimal without a sign writes one, or it is a name. -/
theorem of_unsigned?_eq {negative : Bool} {text : List Char} {decimal : Decimal}
    (h : unsigned? digit? negative text = some decimal) :
    IsName text ∨ ∃ body tail whole fraction e, text = body ++ tail ∧
      Pointed body whole fraction ∧ Scales tail e := by
  by_cases hname : IsName text
  · exact .inl hname
  right
  rw [isName_iff, not_or] at hname
  unfold unsigned? at h
  rw [if_neg hname.1, if_neg hname.2] at h
  rcases hsplit : splitRun digit? text with ⟨before, rest⟩
  have htext := append_of_splitRun_eq hsplit
  simp only [hsplit] at h
  split at h
  · rename_i rest
    rcases hsplit' : splitRun digit? rest with ⟨after, tail⟩
    simp only [hsplit'] at h
    split_ifs at h with hempty
    split at h
    · rename_i whole fraction e hwhole hfraction he
      refine ⟨before ++ '.' :: after, tail, whole, fraction, e, ?_, ?_, .of_exponent?_eq he⟩
      · rw [htext, append_of_splitRun_eq hsplit', List.append_assoc]
        rfl
      · refine .point (.of_optionalDigits?_eq hwhole) (.of_optionalDigits?_eq hfraction) ?_
        by_contra hnot
        simp_all
    · cases h
  · split_ifs at h with hempty
    split at h
    · rename_i whole fraction e hwhole hfraction he
      have hbefore : before ≠ [] := by
        rintro rfl
        exact hempty rfl
      refine ⟨before, rest, whole, [], e, htext, .without ?_, .of_exponent?_eq he⟩
      cases SpellsIfAny.of_optionalDigits?_eq hwhole with
      | nothing => exact absurd rfl hbefore
      | run hrun => exact hrun
    · cases h

/-! ### The value -/

theorem Spells.forall_lt {run : List Char} {digits : List Nat} (h : Spells digit? run digits) :
    ∀ d ∈ digits, d < 10 := by
  induction h with
  | last hc => simpa using digit?_lt hc
  | next hc _ ih | underscore hc _ ih => simpa using ⟨digit?_lt hc, ih⟩

theorem SpellsIfAny.forall_lt {run : List Char} {digits : List Nat} (h : SpellsIfAny run digits) :
    ∀ d ∈ digits, d < 10 := by
  cases h with
  | nothing => simp
  | run hrun => exact hrun.forall_lt

theorem Pointed.forall_lt {body : List Char} {whole fraction : List Nat}
    (h : Pointed body whole fraction) : ∀ d ∈ whole ++ fraction, d < 10 := by
  cases h with
  | without hrun => simpa using hrun.forall_lt
  | point hbefore hafter _ =>
      exact List.forall_mem_append.mpr ⟨hbefore.forall_lt, hafter.forall_lt⟩

/-- What digits write is below the next power of ten. -/
theorem value_lt_of_forall_lt {digits : List Nat} (h : ∀ d ∈ digits, d < 10) :
    value digits < 10 ^ digits.length := by
  rw [value_eq_ofDigits, ← List.length_reverse]
  exact Nat.ofDigits_lt_base_pow_length (by decide) (by simpa using h)

/-- Moving the point behind the last digit takes as many powers of ten as there are digits behind
it. -/
theorem value_append_mul_zpow (whole fraction : List Nat) (e : Int) :
    (value (whole ++ fraction) : ℚ) * 10 ^ (e - fraction.length) =
      ((Nat.ofDigits 10 whole.reverse : Nat) +
        (Nat.ofDigits 10 fraction.reverse : Nat) / 10 ^ fraction.length) * 10 ^ e := by
  have hten : (10 : ℚ) ≠ 0 := by norm_num
  rw [value_eq_ofDigits, List.reverse_append, Nat.ofDigits_append, List.length_reverse,
    zpow_sub₀ hten, zpow_natCast]
  push_cast
  field_simp
  ring

/-- **A text that writes a rational number is read as a decimal with this value.** -/
theorem exists_toDecimal?_of_rendersDecimal {q : ℚ} {text : List Char}
    (h : RendersDecimal q (Text.trim Text.isWhiteSpace text)) :
    ∃ negative digits exponent,
      toDecimal? .universal text = some (.finite negative digits exponent) ∧
        (∀ d ∈ digits, d < 10) ∧ q = signed negative (value digits * 10 ^ exponent) := by
  obtain ⟨sign, body, tail, negative, whole, fraction, e, htext, hsign, hbody, htail, rfl⟩ := h
  have hsplit : splitSign (sign ++ (body ++ tail)) = (negative, body ++ tail) := by
    refine splitSign_of_signs hsign fun c hc => ?_
    obtain ⟨c', rest, rfl, hc'⟩ := hbody.head?_eq
    cases hc
    rcases hc' with rfl | ⟨d, hd⟩
    · decide
    · refine ⟨?_, ?_⟩ <;> rintro rfl <;> cases hd
  refine ⟨negative, whole ++ fraction, e - fraction.length, ?_, hbody.forall_lt, ?_⟩
  · have hblank : Text.trim Script.universal.isBlank text = sign ++ (body ++ tail) := htext
    simp only [toDecimal?, hblank, hsplit]
    exact hbody.unsigned?_eq htail negative
  · rw [value_append_mul_zpow]

theorem IsName.unsigned?_eq {word : List Char} (h : IsName word) (negative : Bool) :
    unsigned? digit? negative word = some (.infinite negative) ∨
      unsigned? digit? negative word = some .nan := by
  unfold unsigned?
  rcases isName_iff.mp h with hinfinite | hnan
  · exact .inl (if_pos hinfinite)
  · right
    rw [hnan, if_neg (by decide), if_pos rfl]

/-- A name is read as an infinite number or as no number. -/
theorem exists_toDecimal?_of_rendersName {text : List Char}
    (h : RendersName (Text.trim Text.isWhiteSpace text)) :
    ∃ negative, toDecimal? .universal text = some (.infinite negative) ∨
      toDecimal? .universal text = some .nan := by
  obtain ⟨sign, word, negative, htext, hsign, hword⟩ := h
  have hsplit : splitSign (sign ++ word) = (negative, word) := by
    refine splitSign_of_signs hsign fun c hc => ?_
    have hletter := hword.toLower_head? hc
    refine ⟨?_, ?_⟩ <;> rintro rfl <;> exact absurd hletter (by decide)
  have hblank : Text.trim Script.universal.isBlank text = sign ++ word := htext
  simp only [toDecimal?, hblank, hsplit]
  exact ⟨negative, hword.unsigned?_eq negative⟩

/-- **The texts that are read as decimals are those that write one and the names.** -/
theorem isSome_toDecimal?_iff (text : List Char) :
    (toDecimal? .universal text).isSome ↔
      (∃ q, RendersDecimal q (Text.trim Text.isWhiteSpace text)) ∨
        RendersName (Text.trim Text.isWhiteSpace text) := by
  constructor
  · intro h
    obtain ⟨decimal, hdecimal⟩ := Option.isSome_iff_exists.mp h
    rcases hsplit : splitSign (Text.trim Script.universal.isBlank text) with ⟨negative, rest⟩
    obtain ⟨sign, hsign, htext⟩ := exists_signs_of_splitSign_eq hsplit
    have htext : Text.trim Text.isWhiteSpace text = sign ++ rest := htext
    simp only [toDecimal?, hsplit] at hdecimal
    rw [htext]
    rcases of_unsigned?_eq hdecimal with hname |
      ⟨body, tail, whole, fraction, e, rfl, hbody, htail⟩
    · exact .inr ⟨sign, rest, negative, rfl, hsign, hname⟩
    · exact .inl ⟨_, sign, body, tail, negative, whole, fraction, e, rfl, hsign, hbody, htail, rfl⟩
  · rintro (⟨q, hq⟩ | hname)
    · obtain ⟨negative, digits, exponent, hread, -⟩ := exists_toDecimal?_of_rendersDecimal hq
      rw [hread]
      rfl
    · obtain ⟨negative, hread | hread⟩ := exists_toDecimal?_of_rendersName hname <;> rw [hread] <;>
        rfl

/-- **The texts that are read as integers are those that write one.** -/
theorem toInt?_eq_some_iff (text : List Char) (n : Int) :
    toInt? .universal text = some n ↔ Renders digit? n (Text.trim Text.isWhiteSpace text) := by
  constructor
  · intro h
    rcases hsplit : splitSign (Text.trim Script.universal.isBlank text) with ⟨negative, run⟩
    obtain ⟨sign, hsign, htext⟩ := exists_signs_of_splitSign_eq hsplit
    simp only [toInt?, hsplit] at h
    split at h
    · cases h
    · rename_i digits hdigits
      split_ifs at h with hlength
      cases h
      exact ⟨sign, run, negative, digits, htext, hsign, .of_digits?_eq hdigits, hlength,
        withSign_value negative digits⟩
  · intro h
    obtain ⟨before, after, hbefore, hafter, htext⟩ :=
      Text.exists_eq_append_trim_append Text.isWhiteSpace text
    rw [htext]
    exact toInt?_of_renders h clear_universal hbefore hafter

end Numeral

end TapeMachine
