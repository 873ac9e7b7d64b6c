import Mathlib.Data.Int.Log
import Mathlib.Data.Rat.Floor
import Mathlib.Tactic.FieldSimp
import Mathlib.Tactic.Linarith
import Mathlib.Tactic.Positivity
import Mathlib.Tactic.Ring
import TapeMachine.Binary64
import TapeMachine.Proofs.Numeral.Decimal

/-!
# Rounding to double precision

A number of double precision has at most 53 significant bits, none of them below the bit of
`2 ^ -1074` (`Binary64.OnGrid`). A rational number is rounded to the nearest of them, and to the
even one of two that are equally near (`Binary64.IsNearest`), unless it is not below the middle
between the greatest finite number and `2 ^ 1024`, which makes it infinite (`Binary64.Rounds`).

Ratios and decimals of any length are rounded in this way (`Binary64.ofRatio_rounds`,
`Binary64.ofDecimal_rounds`). The bit lengths of numerator and denominator give the unit of the 53rd
bit (`Binary64.unitExponent_eq`), a division gives the nearest multiple of it
(`Binary64.halfEven_roundHalfEven`), and no number with a finer unit is nearer, because all of those
are below the least multiple with 53 bits (`Binary64.HalfEven.isNearest`). The two shortcuts for
decimals far outside the range give what the long way would give.
-/

namespace TapeMachine

namespace Binary64

open Numeral (signed)

/-! ### Correct rounding -/

/-- A number has at most 53 significant bits, the last of them at -1074 or above. -/
def OnGrid (x : ℚ) : Prop :=
  ∃ m e : ℤ, |m| ≤ 2 ^ 53 ∧ -1074 ≤ e ∧ x = m * 2 ^ e

/-- `x` is the number of the grid that is nearest to `q`. If another one is equally near, then `x`
is the even one of the two: an even multiple of the distance between them. -/
structure IsNearest (q x : ℚ) : Prop where
  onGrid : OnGrid x
  le : ∀ y, OnGrid y → |x - q| ≤ |y - q|
  even : ∀ y, OnGrid y → |y - q| = |x - q| → y ≠ x → ∃ k : ℤ, x = 2 * k * |x - y|

/-- The size from which on numbers are too great: half a unit of the last place above the greatest
finite number, `2 ^ 1024 - 2 ^ 971`. -/
def overflowBound : ℚ :=
  2 ^ 1024 - 2 ^ 970

/-- A rational number is rounded to a number of double precision. -/
inductive Rounds (q : ℚ) : Binary64 → Prop
  | finite {negative : Bool} {mantissa : Nat} {exponent : Int} :
      |q| < overflowBound → IsNearest q (signed negative (mantissa * 2 ^ exponent)) →
      Rounds q (.finite negative mantissa exponent)
  | infinite {negative : Bool} : overflowBound ≤ signed negative q → Rounds q (.infinite negative)

theorem two_zpow_pos (e : ℤ) : (0 : ℚ) < 2 ^ e :=
  zpow_pos two_pos e

/-- Powers of two below `2 ^ 1024` are not too great. -/
theorem two_pow_le_overflowBound {k : Nat} (hk : k ≤ 1023) : 2 ^ k ≤ overflowBound := by
  calc (2 : ℚ) ^ k ≤ 2 ^ 1023 := pow_le_pow_right₀ one_le_two hk
    _ = 2 ^ 1024 - 2 ^ 1023 := by rw [pow_succ _ 1023, mul_two, add_sub_cancel_right]
    _ ≤ 2 ^ 1024 - 2 ^ 970 := sub_le_sub_left (pow_le_pow_right₀ one_le_two (by norm_num)) _

@[simp] theorem signed_signed (negative : Bool) (x : ℚ) :
    signed negative (signed negative x) = x := by
  cases negative <;> simp [signed]

@[simp] theorem abs_signed (negative : Bool) (x : ℚ) : |signed negative x| = |x| := by
  cases negative <;> simp [signed]

theorem OnGrid.neg {x : ℚ} (h : OnGrid x) : OnGrid (-x) := by
  obtain ⟨m, e, hm, he, rfl⟩ := h
  exact ⟨-m, e, by rwa [abs_neg], he, by push_cast; ring⟩

/-- A number less than half of the least one on the grid is rounded to zero. -/
theorem isNearest_zero {q : ℚ} (h : 2 * |q| < 2 ^ (-1074 : ℤ)) : IsNearest q 0 := by
  have hfar : ∀ y, OnGrid y → y ≠ 0 → |0 - q| < |y - q| := by
    rintro y ⟨m, e, -, he, rfl⟩ hne
    have hm : (1 : ℚ) ≤ |(m : ℚ)| := by
      have hpos : 1 ≤ |m| := Int.one_le_abs (by rintro rfl; simp at hne)
      exact_mod_cast hpos
    have hunit : (2 : ℚ) ^ (-1074 : ℤ) ≤ 2 ^ e := zpow_le_zpow_right₀ one_le_two he
    have hsize : (2 : ℚ) ^ (-1074 : ℤ) ≤ |(m : ℚ) * 2 ^ e| := by
      rw [abs_mul, abs_of_pos (two_zpow_pos e)]
      exact hunit.trans (le_mul_of_one_le_left (two_zpow_pos e).le hm)
    have htriangle := abs_sub_abs_le_abs_sub ((m : ℚ) * 2 ^ e) q
    rw [zero_sub, abs_neg]
    linarith
  refine ⟨⟨0, 0, by norm_num, by norm_num, by norm_num⟩, fun y hy => ?_, fun y hy htie hne => ?_⟩
  · by_cases hzero : y = 0
    · rw [hzero]
    · exact (hfar y hy hzero).le
  · exact absurd htie (hfar y hy hne).ne'

theorem rounds_zero {q : ℚ} (h : 2 * |q| < 2 ^ (-1074 : ℤ)) (negative : Bool) :
    Rounds q (.finite negative 0 0) := by
  have hzero : signed negative ((0 : Nat) * 2 ^ (0 : ℤ)) = 0 := by cases negative <;> simp [signed]
  refine .finite ?_ (hzero ▸ isNearest_zero h)
  have hunit : (2 : ℚ) ^ (-1074 : ℤ) ≤ 1 := zpow_le_one_of_nonpos₀ one_le_two (by norm_num)
  have hone : 1 ≤ overflowBound := two_pow_le_overflowBound (Nat.zero_le _)
  have hnonneg := abs_nonneg q
  linarith

/-- Rounding is symmetric. -/
theorem IsNearest.neg {q x : ℚ} (h : IsNearest q x) : IsNearest (-q) (-x) := by
  -- a competitor `y` of `-x` is at the distance from `-q` at which `-y` is from `q`
  have hflip : ∀ y : ℚ, |y - -q| = |-y - q| := fun y => by
    rw [← abs_neg]
    congr 1
    ring
  refine ⟨h.onGrid.neg, fun y hy => ?_, fun y hy htie hne => ?_⟩
  · rw [hflip, hflip, neg_neg]
    exact h.le (-y) hy.neg
  · rw [hflip, hflip, neg_neg] at htie
    obtain ⟨k, hk⟩ := h.even (-y) hy.neg htie (fun heq => hne (by rw [← heq, neg_neg]))
    refine ⟨-k, ?_⟩
    have hdist : |-x - y| = |x - -y| := by
      rw [← abs_neg]
      congr 1
      ring
    rw [hdist]
    push_cast
    linarith

theorem IsNearest.signed {q x : ℚ} (h : IsNearest q x) (negative : Bool) :
    IsNearest (signed negative q) (signed negative x) := by
  cases negative with
  | false => exact h
  | true => exact h.neg

/-! ### Rounding to an integer -/

/-- `m` is the integer nearest to `r`, and the even one of two that are equally near. -/
structure HalfEven (r : ℚ) (m : Nat) : Prop where
  le : |(m : ℚ) - r| ≤ 1 / 2
  even : |(m : ℚ) - r| = 1 / 2 → Even m

section remainder

variable (num : Nat) {den : Nat} (hden : 0 < den)
include hden

/-- A ratio is the quotient and a part of a unit. -/
theorem ratio_eq_quotient_add :
    (num : ℚ) / den = (num / den : Nat) + (num % den : Nat) / den := by
  have hpos : (0 : ℚ) < den := by exact_mod_cast hden
  field_simp
  exact_mod_cast (Nat.div_add_mod num den).symm

theorem remainder_lt_half_iff :
    ((num % den : Nat) : ℚ) / den < 1 / 2 ↔ 2 * (num % den) < den := by
  have hpos : (0 : ℚ) < den := by exact_mod_cast hden
  rw [div_lt_div_iff₀ hpos two_pos, one_mul, mul_comm]
  exact_mod_cast Iff.rfl

theorem half_lt_remainder_iff :
    1 / 2 < ((num % den : Nat) : ℚ) / den ↔ den < 2 * (num % den) := by
  have hpos : (0 : ℚ) < den := by exact_mod_cast hden
  rw [div_lt_div_iff₀ two_pos hpos, one_mul, mul_comm]
  exact_mod_cast Iff.rfl

/-- Rounding a ratio gives the nearest integer. -/
theorem halfEven_roundHalfEven : HalfEven (num / den) (roundHalfEven num den) := by
  have hnonneg : 0 ≤ ((num % den : Nat) : ℚ) / den := by positivity
  have hless : ((num % den : Nat) : ℚ) / den < 1 := by
    rw [div_lt_one (by exact_mod_cast hden)]
    exact_mod_cast Nat.mod_lt num hden
  unfold roundHalfEven
  simp only [← remainder_lt_half_iff num hden, ← half_lt_remainder_iff num hden]
  rw [ratio_eq_quotient_add num hden]
  generalize ((num % den : Nat) : ℚ) / den = part at *
  generalize num / den = quotient
  have hdown : |(quotient : ℚ) - quotient - part| = part := by
    rw [sub_self, zero_sub, abs_neg, abs_of_nonneg hnonneg]
  have hup : |((quotient + 1 : Nat) : ℚ) - quotient - part| = 1 - part := by
    rw [Nat.cast_add_one, add_sub_cancel_left, abs_of_pos (by linarith)]
  split_ifs with hlow hhigh
  · constructor <;> rw [← sub_sub, hdown]
    · exact hlow.le
    · exact fun h => absurd h hlow.ne
  · constructor <;> rw [← sub_sub, hup]
    · linarith
    · exact fun h => absurd h (by linarith : 1 - part < 1 / 2).ne
  · -- the tie: the quotient is increased exactly if it is odd
    have htie : part = 1 / 2 := le_antisymm (not_lt.mp hhigh) (not_lt.mp hlow)
    rcases Nat.mod_two_eq_zero_or_one quotient with hmod | hmod <;> rw [hmod]
    · exact ⟨by rw [Nat.add_zero, ← sub_sub, hdown, htie], fun _ => Nat.even_iff.mpr hmod⟩
    · refine ⟨by rw [← sub_sub, hup, htie]; norm_num, fun _ => ?_⟩
      exact (Nat.odd_iff.mpr hmod).add_one

end remainder

/-- No other integer is nearer, and if one is equally near, it is the next one. -/
theorem HalfEven.compare {r : ℚ} {m : Nat} (h : HalfEven r m) (k : ℤ) (hne : k ≠ m) :
    |(m : ℚ) - r| ≤ |(k : ℚ) - r| ∧
      (|(k : ℚ) - r| = |(m : ℚ) - r| → |(m : ℚ) - k| = 1 ∧ Even m) := by
  have hunit : (1 : ℚ) ≤ |(m : ℚ) - k| := by
    have hpos : 1 ≤ |(m : ℤ) - k| := Int.one_le_abs (sub_ne_zero.mpr hne.symm)
    exact_mod_cast hpos
  have htriangle : |(m : ℚ) - k| ≤ |(m : ℚ) - r| + |(k : ℚ) - r| := by
    rw [abs_sub_comm (k : ℚ) r]
    exact abs_sub_le (m : ℚ) r k
  have hhalf := h.le
  refine ⟨by linarith, fun htie => ⟨by linarith, h.even (by linarith)⟩⟩

/-- A bound from above is kept. -/
theorem HalfEven.le_of_lt {r : ℚ} {m k : Nat} (h : HalfEven r m) (hlt : r < k) : m ≤ k := by
  have hup := (abs_le.mp h.le).2
  have hnext : (m : ℚ) < (k + 1 : Nat) := by
    push_cast
    linarith
  exact Nat.lt_succ_iff.mp (by exact_mod_cast hnext)

/-- A bound from below is kept. -/
theorem HalfEven.le_of_le {r : ℚ} {m k : Nat} (h : HalfEven r m) (hle : k ≤ r) : k ≤ m := by
  have hdown := (abs_le.mp h.le).1
  have hnext : (k : ℚ) < (m + 1 : Nat) := by
    push_cast
    linarith
  exact Nat.lt_succ_iff.mp (by exact_mod_cast hnext)

/-- An even number is reached from the middle below it on. -/
theorem HalfEven.le_iff_of_even {r : ℚ} {m k : Nat} (h : HalfEven r m) (hk : Even k) :
    k ≤ m ↔ (k : ℚ) - 1 / 2 ≤ r := by
  obtain ⟨hdown, hup⟩ := abs_le.mp h.le
  constructor
  · intro hle
    have hle' : (k : ℚ) ≤ m := by exact_mod_cast hle
    linarith
  · intro hle
    by_contra hlt
    have hnext : ((m + 1 : Nat) : ℚ) ≤ k := by exact_mod_cast not_le.mp hlt
    push_cast at hnext
    -- then `r` is in the middle between `m` and `k`, and both are even
    have hm := h.even (by rw [abs_sub_comm, abs_of_nonneg] <;> linarith)
    have hsucc : k = m + 1 := by
      have heq : (k : ℚ) = (m + 1 : Nat) := by
        push_cast
        linarith
      exact_mod_cast heq
    rw [hsucc, Nat.even_add_one] at hk
    exact hk hm

/-! ### Rounding on the grid -/

section grid

variable {q : ℚ} {m : Nat} {e : ℤ}

/-- A number of the grid is a multiple of the unit `2 ^ e`, or it is below all numbers for which
this is the unit. -/
theorem OnGrid.multiple_or_lt {y : ℚ} (h : OnGrid y) (e : ℤ) :
    (∃ k : ℤ, y = k * 2 ^ e) ∨ -1074 < e ∧ y < 2 ^ 52 * 2 ^ e := by
  obtain ⟨k, j, hk, hj, rfl⟩ := h
  rcases le_or_gt e j with hle | hlt
  · left
    refine ⟨k * 2 ^ (j - e).toNat, ?_⟩
    have hsplit : (2 : ℚ) ^ j = 2 ^ (j - e).toNat * 2 ^ e := by
      rw [← zpow_natCast, ← zpow_add₀ two_ne_zero, Int.toNat_of_nonneg (by omega),
        sub_add_cancel]
    rw [hsplit]
    push_cast
    ring
  · have hbits : (k : ℚ) ≤ 2 ^ 53 := by exact_mod_cast (le_abs_self k).trans hk
    have hfiner : 2 ^ 53 * (2 : ℚ) ^ j ≤ 2 ^ 52 * 2 ^ e := by
      have hpow : (2 : ℚ) ^ (j + 1) ≤ 2 ^ e := zpow_le_zpow_right₀ one_le_two (by omega)
      rw [zpow_add_one₀ two_ne_zero] at hpow
      linarith
    have hle : k * (2 : ℚ) ^ j ≤ 2 ^ 52 * 2 ^ e :=
      (mul_le_mul_of_nonneg_right hbits (two_zpow_pos j).le).trans hfiner
    rcases hle.eq_or_lt with heq | hlt'
    · exact Or.inl ⟨2 ^ 52, by rw [heq]; push_cast; rfl⟩
    · exact Or.inr ⟨by omega, hlt'⟩

theorem abs_mul_zpow_sub (k q : ℚ) (e : ℤ) : |k * 2 ^ e - q| = |k - q / 2 ^ e| * 2 ^ e := by
  have hpos := two_zpow_pos e
  rw [← abs_of_pos hpos, ← abs_mul, abs_of_pos hpos, sub_mul, div_mul_cancel₀ q hpos.ne']

/-- No multiple of the unit is nearer than the nearest one. -/
theorem HalfEven.abs_sub_le (h : HalfEven (q / 2 ^ e) m) (k : ℤ) :
    |(m : ℚ) * 2 ^ e - q| ≤ |(k : ℚ) * 2 ^ e - q| := by
  by_cases heq : k = m
  · rw [heq, Int.cast_natCast]
  · rw [abs_mul_zpow_sub, abs_mul_zpow_sub]
    exact mul_le_mul_of_nonneg_right (h.compare k heq).1 (two_zpow_pos e).le

/-- A number below the unit's binade is farther away than the least number in it. -/
theorem HalfEven.abs_sub_lt (h : HalfEven (q / 2 ^ e) m) (hge : 2 ^ 52 ≤ q / 2 ^ e) {y : ℚ}
    (hy : y < 2 ^ 52 * 2 ^ e) : |(m : ℚ) * 2 ^ e - q| < |y - q| := by
  have hleast : 2 ^ 52 * 2 ^ e ≤ q := (le_div_iff₀ (two_zpow_pos e)).mp hge
  have hnear := h.abs_sub_le (2 ^ 52)
  rw [Int.cast_pow, Int.cast_ofNat] at hnear
  calc |(m : ℚ) * 2 ^ e - q| ≤ |2 ^ 52 * 2 ^ e - q| := hnear
    _ = q - 2 ^ 52 * 2 ^ e := by rw [abs_sub_comm, abs_of_nonneg (by linarith)]
    _ < q - y := by linarith
    _ = |y - q| := by rw [abs_sub_comm, abs_of_pos (by linarith)]

/-- The multiple of the unit that is nearest to a number is the number of the grid that is nearest
to it, if the unit is that of its 53rd significant bit. -/
theorem HalfEven.isNearest (h : HalfEven (q / 2 ^ e) m) (he : -1074 ≤ e)
    (hlt : q / 2 ^ e < 2 ^ 53) (hge : e = -1074 ∨ 2 ^ 52 ≤ q / 2 ^ e) :
    IsNearest q (m * 2 ^ e) := by
  have hpos := two_zpow_pos e
  have hbits : m ≤ 2 ^ 53 := h.le_of_lt (by exact_mod_cast hlt)
  refine ⟨⟨m, e, ?_, he, by push_cast; rfl⟩, fun y hy => ?_, fun y hy htie hne => ?_⟩
  · rw [Nat.abs_cast]
    exact_mod_cast hbits
  · rcases hy.multiple_or_lt e with ⟨k, rfl⟩ | ⟨hexp, hsmall⟩
    · exact h.abs_sub_le k
    · exact (h.abs_sub_lt (hge.resolve_left hexp.ne') hsmall).le
  · rcases hy.multiple_or_lt e with ⟨k, rfl⟩ | ⟨hexp, hsmall⟩
    · have hother : k ≠ m := by
        rintro rfl
        exact hne rfl
      rw [abs_mul_zpow_sub, abs_mul_zpow_sub] at htie
      obtain ⟨hnext, half, hhalf⟩ := (h.compare k hother).2 (mul_right_cancel₀ hpos.ne' htie)
      refine ⟨half, ?_⟩
      rw [← sub_mul, abs_mul, hnext, abs_of_pos hpos, hhalf]
      push_cast
      ring
    · exact absurd htie (h.abs_sub_lt (hge.resolve_left hexp.ne') hsmall).ne'

/-- A number is rounded up to the end of the range exactly if it is not below the bound, half a unit
of the last binade below the end. In that binade the bound is the middle between the greatest
mantissa, which is odd, and the next one. -/
theorem HalfEven.end_le_iff {r half unit : ℚ} (h : HalfEven r m) (hhalf : 0 < half)
    (hpos : 0 < unit) (hlt : r < 2 ^ 53)
    (hunit : unit ≤ half ∨ unit = 2 * half ∨ 4 * half ≤ unit ∧ 2 ^ 52 ≤ r) :
    2 ^ 54 * half ≤ m * unit ↔ (2 ^ 54 - 1) * half ≤ r * unit := by
  rcases hunit with hsmall | rfl | ⟨hgreat, hge⟩
  · -- the unit is too small for either side
    have hbits : m ≤ 2 ^ 53 := h.le_of_lt (by exact_mod_cast hlt)
    have hbits : (m : ℚ) ≤ 2 ^ 53 := by exact_mod_cast hbits
    have hm : (m : ℚ) * unit ≤ 2 ^ 53 * half := mul_le_mul hbits hsmall hpos.le (by norm_num)
    have hr : r * unit ≤ 2 ^ 53 * half := mul_le_mul hlt.le hsmall hpos.le (by norm_num)
    constructor <;> intro hle <;> linarith
  · have hiff : 2 ^ 53 ≤ (m : ℚ) ↔ 2 ^ 53 - 1 / 2 ≤ r := by
      exact_mod_cast h.le_iff_of_even (k := 2 ^ 53) (by decide)
    calc 2 ^ 54 * half ≤ m * (2 * half) ↔ 2 ^ 53 * (2 * half) ≤ m * (2 * half) := by
          rw [show (2 : ℚ) ^ 54 * half = 2 ^ 53 * (2 * half) by ring]
      _ ↔ 2 ^ 53 ≤ (m : ℚ) := mul_le_mul_iff_left₀ hpos
      _ ↔ 2 ^ 53 - 1 / 2 ≤ r := hiff
      _ ↔ (2 ^ 53 - 1 / 2) * (2 * half) ≤ r * (2 * half) := (mul_le_mul_iff_left₀ hpos).symm
      _ ↔ (2 ^ 54 - 1) * half ≤ r * (2 * half) := by
          rw [show ((2 : ℚ) ^ 53 - 1 / 2) * (2 * half) = (2 ^ 54 - 1) * half by ring]
  · -- the unit is so great that both sides hold
    have hm : 2 ^ 52 ≤ m := h.le_of_le (by exact_mod_cast hge)
    have hm : (2 : ℚ) ^ 52 ≤ m := by exact_mod_cast hm
    have hm' : 2 ^ 52 * (4 * half) ≤ m * unit := by gcongr
    have hr : 2 ^ 52 * (4 * half) ≤ r * unit := by gcongr
    constructor <;> intro _ <;> linarith

/-- A number is rounded to `2 ^ 1024` or more exactly if it is not below the bound. -/
theorem HalfEven.overflow_iff (h : HalfEven (q / 2 ^ e) m) (hlt : q / 2 ^ e < 2 ^ 53)
    (hge : e = -1074 ∨ 2 ^ 52 ≤ q / 2 ^ e) :
    2 ^ 1024 ≤ (m : ℚ) * 2 ^ e ↔ overflowBound ≤ q := by
  have hpower : (2 : ℚ) ^ 1024 = 2 ^ 54 * 2 ^ (970 : ℤ) := by
    rw [show (970 : ℤ) = (970 : Nat) from rfl, zpow_natCast, ← pow_add]
  have hbound : overflowBound = (2 ^ 54 - 1) * 2 ^ (970 : ℤ) := by
    rw [overflowBound, hpower, sub_mul, one_mul]
    rfl
  have hunit : (2 : ℚ) ^ e ≤ 2 ^ (970 : ℤ) ∨ (2 : ℚ) ^ e = 2 * 2 ^ (970 : ℤ) ∨
      4 * 2 ^ (970 : ℤ) ≤ (2 : ℚ) ^ e ∧ 2 ^ 52 ≤ q / 2 ^ e := by
    rcases lt_trichotomy e 971 with hless | rfl | hmore
    · exact .inl (zpow_le_zpow_right₀ one_le_two (by omega))
    · exact .inr (.inl (zpow_one_add₀ two_ne_zero 970))
    · refine .inr (.inr ⟨?_, hge.resolve_left (by omega)⟩)
      rw [show (4 : ℚ) = 2 ^ (2 : ℤ) by norm_num, ← zpow_add₀ two_ne_zero]
      exact zpow_le_zpow_right₀ one_le_two (by omega)
  have hiff := h.end_le_iff (two_zpow_pos 970) (two_zpow_pos e) hlt hunit
  rwa [div_mul_cancel₀ q (two_zpow_pos e).ne', ← hpower, ← hbound] at hiff

end grid

/-! ### Ratios -/

theorem twoTo_eq (n : Nat) : twoTo n = 2 ^ n := rfl

theorem tenTo_eq (n : Nat) : tenTo n = 10 ^ n := rfl

theorem cast_twoTo_toNat {e : ℤ} (he : 0 ≤ e) : (twoTo e.toNat : ℚ) = 2 ^ e := by
  rw [twoTo_eq, Nat.cast_pow, Nat.cast_ofNat, ← zpow_natCast, Int.toNat_of_nonneg he]

theorem scaleDown_pos (num : Nat) {den : Nat} (hden : 0 < den) (e : ℤ) :
    0 < (scaleDown num den e).2 := by
  unfold scaleDown
  split_ifs
  · exact Nat.mul_pos hden (Nat.two_pow_pos _)
  · exact hden

/-- Scaling divides the ratio by the power of two. -/
theorem scaleDown_ratio (num den : Nat) (e : ℤ) :
    ((scaleDown num den e).1 : ℚ) / (scaleDown num den e).2 = num / den / 2 ^ e := by
  unfold scaleDown
  split_ifs with he
  · rw [Nat.cast_mul, cast_twoTo_toNat he, div_mul_eq_div_div]
  · rw [Nat.cast_mul, cast_twoTo_toNat (by omega), zpow_neg, ← div_eq_mul_inv, div_right_comm]

theorem halfEven_scaleDown (num : Nat) {den : Nat} (hden : 0 < den) (e : ℤ) :
    HalfEven (num / den / 2 ^ e)
      (roundHalfEven (scaleDown num den e).1 (scaleDown num den e).2) := by
  rw [← scaleDown_ratio]
  exact halfEven_roundHalfEven _ (scaleDown_pos num hden e)

/-- What is too great is recognised from integers. -/
theorem twoTo_le_mul_iff {m : Nat} {e : ℤ} (hm : m ≤ 2 ^ 53) :
    0 ≤ e ∧ twoTo 1024 ≤ m * twoTo e.toNat ↔ (2 : ℚ) ^ 1024 ≤ m * 2 ^ e := by
  have hcast : 0 ≤ e → (twoTo 1024 ≤ m * twoTo e.toNat ↔ (2 : ℚ) ^ 1024 ≤ m * 2 ^ e) := by
    intro he
    rw [← cast_twoTo_toNat he, ← @Nat.cast_le ℚ, Nat.cast_mul, twoTo_eq 1024, Nat.cast_pow,
      Nat.cast_ofNat]
  refine ⟨fun h => (hcast h.1).mp h.2, fun h => ?_⟩
  have he : 0 ≤ e := by
    by_contra hneg
    have hunit : (2 : ℚ) ^ e ≤ 1 := zpow_le_one_of_nonpos₀ one_le_two (by omega)
    have hm' : (m : ℚ) ≤ 2 ^ 53 := by exact_mod_cast hm
    have hsmall : (m : ℚ) * 2 ^ e ≤ 2 ^ 53 :=
      (mul_le_of_le_one_right (Nat.cast_nonneg m) hunit).trans hm'
    have hless : (2 : ℚ) ^ 53 < 2 ^ 1024 := pow_lt_pow_right₀ one_lt_two (by norm_num)
    exact absurd (h.trans hsmall) (not_le.mpr hless)
  exact ⟨he, (hcast he).mpr h⟩

theorem zpow_log2_le {n : Nat} (hn : 0 < n) : (2 : ℚ) ^ (n.log2 : ℤ) ≤ n := by
  rw [zpow_natCast]
  exact_mod_cast Nat.log2_self_le hn.ne'

theorem lt_zpow_log2_add_one (n : Nat) : (n : ℚ) < 2 ^ (n.log2 + 1 : ℤ) := by
  have hlt : (n : ℚ) < (2 ^ (n.log2 + 1) : Nat) := by exact_mod_cast Nat.lt_log2_self
  exact_mod_cast hlt

section logarithm

variable {num den : Nat} (hnum : 0 < num) (hden : 0 < den)
include hnum hden

theorem ratio_pos : (0 : ℚ) < num / den :=
  div_pos (by exact_mod_cast hnum) (by exact_mod_cast hden)

theorem zpow_le_ratio_iff (k : ℤ) :
    (2 : ℚ) ^ k ≤ num / den ↔ k ≤ Int.log 2 ((num : ℚ) / den) := by
  exact_mod_cast Int.zpow_le_iff_le_log one_lt_two (ratio_pos hnum hden)

theorem ratio_lt_zpow_iff (k : ℤ) :
    (num : ℚ) / den < 2 ^ k ↔ Int.log 2 ((num : ℚ) / den) < k := by
  exact_mod_cast Int.lt_zpow_iff_log_lt one_lt_two (ratio_pos hnum hden)

/-- The logarithms of numerator and denominator leave two possibilities for that of the ratio. -/
theorem log_ratio_bounds :
    (num.log2 : ℤ) - den.log2 - 1 ≤ Int.log 2 ((num : ℚ) / den) ∧
      Int.log 2 ((num : ℚ) / den) < (num.log2 : ℤ) - den.log2 + 1 := by
  have hden' : (0 : ℚ) < den := by exact_mod_cast hden
  constructor
  · rw [← zpow_le_ratio_iff hnum hden, le_div_iff₀ hden']
    calc (2 : ℚ) ^ ((num.log2 : ℤ) - den.log2 - 1) * den
        ≤ 2 ^ ((num.log2 : ℤ) - den.log2 - 1) * 2 ^ (den.log2 + 1 : ℤ) :=
          mul_le_mul_of_nonneg_left (lt_zpow_log2_add_one den).le (two_zpow_pos _).le
      _ = 2 ^ (num.log2 : ℤ) := by
          rw [← zpow_add₀ two_ne_zero]
          congr 1
          ring
      _ ≤ num := zpow_log2_le hnum
  · rw [← ratio_lt_zpow_iff hnum hden, div_lt_iff₀ hden']
    calc (num : ℚ) < 2 ^ (num.log2 + 1 : ℤ) := lt_zpow_log2_add_one num
      _ = 2 ^ ((num.log2 : ℤ) - den.log2 + 1) * 2 ^ (den.log2 : ℤ) := by
          rw [← zpow_add₀ two_ne_zero]
          congr 1
          ring
      _ ≤ 2 ^ ((num.log2 : ℤ) - den.log2 + 1) * den :=
          mul_le_mul_of_nonneg_left (zpow_log2_le hden) (two_zpow_pos _).le

/-- Comparing the scaled ratio with `2 ^ 52` decides between the two. -/
theorem scaleDown_lt_iff :
    (scaleDown num den (num.log2 - den.log2 - 52)).1 <
        (scaleDown num den (num.log2 - den.log2 - 52)).2 * twoTo 52 ↔
      Int.log 2 ((num : ℚ) / den) < (num.log2 : ℤ) - den.log2 := by
  have hscaled : (0 : ℚ) < (scaleDown num den (num.log2 - den.log2 - 52)).2 := by
    exact_mod_cast scaleDown_pos num hden (num.log2 - den.log2 - 52)
  rw [← ratio_lt_zpow_iff hnum hden, ← @Nat.cast_lt ℚ, Nat.cast_mul, mul_comm,
    ← div_lt_iff₀ hscaled, scaleDown_ratio, div_lt_iff₀ (two_zpow_pos _), twoTo_eq, Nat.cast_pow,
    Nat.cast_ofNat, ← zpow_natCast, ← zpow_add₀ two_ne_zero]
  simp

/-- The exponent of the last bit kept is 52 less than that of the first bit, or the least one. -/
theorem unitExponent_eq :
    unitExponent num den = max (-1074) (Int.log 2 ((num : ℚ) / den) - 52) := by
  obtain ⟨hlower, hupper⟩ := log_ratio_bounds hnum hden
  unfold unitExponent
  simp only [scaleDown_lt_iff hnum hden]
  split_ifs with hsmall <;> omega

/-- The unit is that of the 53rd significant bit, unless this is below the least one. -/
theorem unitExponent_spec :
    -1074 ≤ unitExponent num den ∧ (num : ℚ) / den / 2 ^ unitExponent num den < 2 ^ 53 ∧
      (unitExponent num den = -1074 ∨ 2 ^ 52 ≤ (num : ℚ) / den / 2 ^ unitExponent num den) := by
  rw [unitExponent_eq hnum hden]
  refine ⟨le_max_left _ _, ?_, ?_⟩
  · rw [div_lt_iff₀ (two_zpow_pos _), ← zpow_natCast, ← zpow_add₀ two_ne_zero,
      ratio_lt_zpow_iff hnum hden]
    push_cast
    omega
  · rcases max_choice (-1074) (Int.log 2 ((num : ℚ) / den) - 52) with hmin | hlog
    · exact .inl hmin
    · right
      rw [hlog, le_div_iff₀ (two_zpow_pos _), ← zpow_natCast, ← zpow_add₀ two_ne_zero,
        zpow_le_ratio_iff hnum hden]
      push_cast
      omega

end logarithm

/-- **A ratio is rounded correctly.** -/
theorem ofRatio_rounds (negative : Bool) (num : Nat) {den : Nat} (hden : 0 < den) :
    Rounds (signed negative (num / den)) (ofRatio negative num den) := by
  unfold ofRatio
  split_ifs with hnum
  · refine rounds_zero ?_ negative
    rw [abs_signed, hnum, Nat.cast_zero, zero_div, abs_zero, mul_zero]
    exact two_zpow_pos _
  · obtain ⟨hmin, hlt, hge⟩ := unitExponent_spec (Nat.pos_of_ne_zero hnum) hden
    dsimp only
    have hround := halfEven_scaleDown num hden (unitExponent num den)
    generalize unitExponent num den = e at *
    generalize roundHalfEven (scaleDown num den e).1 (scaleDown num den e).2 = m at *
    have hbits : m ≤ 2 ^ 53 := hround.le_of_lt (by exact_mod_cast hlt)
    have htest : 0 ≤ e ∧ twoTo 1024 ≤ m * twoTo e.toNat ↔ overflowBound ≤ (num : ℚ) / den :=
      (twoTo_le_mul_iff hbits).trans (hround.overflow_iff hlt hge)
    split_ifs with hinfinite
    · exact .infinite (by rw [signed_signed]; exact htest.mp hinfinite)
    · refine .finite ?_ ((hround.isNearest hmin hlt hge).signed negative)
      rw [abs_signed, abs_of_nonneg (by positivity)]
      exact not_le.mp (fun hle => hinfinite (htest.mpr hle))

/-! ### Decimals -/

theorem ten_zpow_pos (e : ℤ) : (0 : ℚ) < 10 ^ e :=
  zpow_pos (by norm_num) e

theorem cast_tenTo_toNat {e : ℤ} (he : 0 ≤ e) : (tenTo e.toNat : ℚ) = 10 ^ e := by
  rw [tenTo_eq, Nat.cast_pow, Nat.cast_ofNat, ← zpow_natCast, Int.toNat_of_nonneg he]

/-- Four hundred decimal places go beyond the range on both sides. -/
theorem two_pow_lt_ten_pow : (2 : ℚ) ^ 1075 < 10 ^ 400 := by
  have hlt : 2 ^ 1075 < 10 ^ 400 := by decide +kernel
  exact_mod_cast hlt

theorem overflowBound_le_ten_zpow {e : ℤ} (he : 400 ≤ e) : overflowBound ≤ 10 ^ e := by
  calc overflowBound ≤ 2 ^ 1024 := sub_le_self _ (by positivity)
    _ ≤ 2 ^ 1075 := pow_le_pow_right₀ one_le_two (by norm_num)
    _ ≤ 10 ^ 400 := two_pow_lt_ten_pow.le
    _ = 10 ^ (400 : ℤ) := (zpow_natCast 10 400).symm
    _ ≤ 10 ^ e := zpow_le_zpow_right₀ (by norm_num) he

theorem two_mul_ten_zpow_lt {e : ℤ} (he : e ≤ -400) : 2 * (10 : ℚ) ^ e < 2 ^ (-1074 : ℤ) := by
  have hunit : (2 : ℚ) ^ (-1074 : ℤ) = 2 * (2 ^ 1075)⁻¹ := by
    rw [← zpow_natCast, ← zpow_neg, ← zpow_one_add₀ two_ne_zero]
    rfl
  have hpow : (10 : ℚ) ^ e ≤ (10 ^ 400)⁻¹ := by
    rw [← zpow_natCast, ← zpow_neg]
    exact zpow_le_zpow_right₀ (by norm_num) he
  rw [hunit]
  refine mul_lt_mul_of_pos_left (hpow.trans_lt ?_) two_pos
  exact inv_strictAnti₀ (by positivity) two_pow_lt_ten_pow

/-- **A decimal is rounded correctly.** -/
theorem ofDecimal_rounds (negative : Bool) {digits : List Nat} (hdigits : ∀ d ∈ digits, d < 10)
    (exponent : Int) :
    Rounds (signed negative (Numeral.value digits * 10 ^ exponent))
      (ofDecimal (.finite negative digits exponent)) := by
  have hten := ten_zpow_pos exponent
  unfold ofDecimal
  dsimp only
  split_ifs with hsmall hgreat hwhole
  · -- below half of the least number on the grid
    have hsize : 2 * ((Numeral.value digits : ℚ) * 10 ^ exponent) < 2 ^ (-1074 : ℤ) := by
      rcases hsmall with hzero | hplaces
      · rw [hzero, Nat.cast_zero, zero_mul, mul_zero]
        exact two_zpow_pos _
      · have hvalue : (Numeral.value digits : ℚ) < 10 ^ (digits.length : ℤ) := by
          rw [zpow_natCast]
          exact_mod_cast Numeral.value_lt_of_forall_lt hdigits
        calc 2 * ((Numeral.value digits : ℚ) * 10 ^ exponent)
            ≤ 2 * (10 ^ (digits.length : ℤ) * 10 ^ exponent) := by gcongr
          _ = 2 * 10 ^ ((digits.length : ℤ) + exponent) := by rw [zpow_add₀ (by norm_num)]
          _ < 2 ^ (-1074 : ℤ) := two_mul_ten_zpow_lt (by omega)
    refine rounds_zero ?_ negative
    rwa [abs_signed, abs_of_nonneg (mul_nonneg (Nat.cast_nonneg _) hten.le)]
  · -- from `2 ^ 1024` on
    have hone : (1 : ℚ) ≤ Numeral.value digits := by
      have hpos : 1 ≤ Numeral.value digits := by omega
      exact_mod_cast hpos
    refine .infinite ?_
    rw [signed_signed]
    exact (overflowBound_le_ten_zpow hgreat.le).trans (le_mul_of_one_le_left hten.le hone)
  · have hratio : ((Numeral.value digits * tenTo exponent.toNat : Nat) : ℚ) / (1 : Nat) =
        Numeral.value digits * 10 ^ exponent := by
      rw [Nat.cast_one, div_one, Nat.cast_mul, cast_tenTo_toNat hwhole]
    rw [← hratio]
    exact ofRatio_rounds negative _ one_pos
  · have hratio : (Numeral.value digits : ℚ) / tenTo (-exponent).toNat =
        Numeral.value digits * 10 ^ exponent := by
      rw [cast_tenTo_toNat (by omega), zpow_neg, div_inv_eq_mul]
    rw [← hratio]
    exact ofRatio_rounds negative _ (Nat.pow_pos (by decide))

/-- **A text that writes a rational number is read as the number that it is rounded to.** -/
theorem exists_ofText?_of_rendersDecimal {q : ℚ} {text : String}
    (h : Numeral.RendersDecimal q (Text.trim Text.isWhiteSpace text.toList)) :
    ∃ x, ofText? text = some x ∧ Rounds q x := by
  obtain ⟨negative, digits, exponent, hread, hdigits, rfl⟩ :=
    Numeral.exists_toDecimal?_of_rendersDecimal h
  refine ⟨_, ?_, ofDecimal_rounds negative hdigits exponent⟩
  rw [ofText?, hread]
  rfl

/-! ### What rounding keeps -/

theorem onGrid_intCast {n : ℤ} (hn : |n| ≤ 2 ^ 53) : OnGrid n :=
  ⟨n, 0, hn, by norm_num, by rw [zpow_zero, mul_one]⟩

theorem Rounds.overflowBound_le {q : ℚ} {negative : Bool} (h : Rounds q (.infinite negative)) :
    overflowBound ≤ |q| := by
  cases h with
  | infinite hle =>
      rw [← abs_signed negative q]
      exact hle.trans (le_abs_self _)

/-- A number of the grid that is not too great is rounded to itself. -/
theorem Rounds.eq_of_onGrid {q : ℚ} {x : Binary64} (h : Rounds q x) (hgrid : OnGrid q)
    (hlt : |q| < overflowBound) :
    ∃ negative mantissa exponent, x = .finite negative mantissa exponent ∧
      signed negative (mantissa * 2 ^ exponent) = q := by
  cases h with
  | finite _ hnear =>
      have hzero := hnear.le q hgrid
      rw [sub_self, abs_zero] at hzero
      exact ⟨_, _, _, rfl, sub_eq_zero.mp (abs_nonpos_iff.mp hzero)⟩
  | infinite hle => exact absurd (Rounds.infinite hle).overflowBound_le (not_le.mpr hlt)

/-- A number is not rounded to a finite number and to an infinite one. -/
theorem Rounds.eq_infinite {q : ℚ} {x : Binary64} (h : Rounds q x) {negative : Bool}
    (hinfinite : Rounds q (.infinite negative)) : ∃ negative', x = .infinite negative' := by
  cases h with
  | infinite => exact ⟨_, rfl⟩
  | finite hlt _ => exact absurd hinfinite.overflowBound_le (not_le.mpr hlt)

end Binary64

end TapeMachine
