import Mathlib.Data.ENat.Lattice

/-!
# The first time that something happens

Whether a run comes to an end, and after how many steps, is asked of every loop here. The answer is
a number that may be infinite: `firstTime P` is the least number with the property `P`, and `⊤` if
there is none. A loop that leaves for one of several reasons leaves at the least of their first
times (`firstTime_or`), and one that has a budget besides at the lesser of that and the budget
(`eq_min_firstTime`).
-/

namespace TapeMachine

variable {P Q : Nat → Prop} {n k : Nat}

/-- The least number with a property, infinite if no number has it. -/
noncomputable def firstTime (P : Nat → Prop) : ℕ∞ :=
  ⨅ n : { n // P n }, (n : ℕ∞)

/-- A number with the property is not before the first one. -/
theorem firstTime_le (h : P n) : firstTime P ≤ n :=
  iInf_le (fun n : { n // P n } => (n : ℕ∞)) ⟨n, h⟩

/-- The first time is so late if nothing earlier has the property. -/
theorem le_firstTime_iff : (n : ℕ∞) ≤ firstTime P ↔ ∀ i < n, ¬ P i := by
  constructor
  · intro h i hi hP
    have hle : (n : ℕ∞) ≤ i := h.trans (firstTime_le hP)
    exact absurd (Nat.cast_le.mp hle) (Nat.not_le.mpr hi)
  · intro h
    refine le_iInf fun i => Nat.cast_le.mpr ?_
    by_contra hlt
    exact h i (Nat.lt_of_not_le hlt) i.property

/-- The first time is the number that has the property and comes after none that has. -/
theorem firstTime_eq_coe_iff : firstTime P = n ↔ P n ∧ ∀ i < n, ¬ P i := by
  constructor
  · intro h
    obtain ⟨⟨i, hi⟩, heq⟩ := (ENat.iInf_eq_natCast_iff.mp h).1
    obtain rfl : i = n := Nat.cast_injective heq
    exact ⟨hi, le_firstTime_iff.mp h.ge⟩
  · rintro ⟨hn, hbefore⟩
    exact le_antisymm (firstTime_le hn) (le_firstTime_iff.mpr hbefore)

/-- The first time is infinite if the property never holds. -/
theorem firstTime_eq_top_iff : firstTime P = ⊤ ↔ ∀ n, ¬ P n := by
  rw [firstTime, ENat.iInf_natCast_eq_top, isEmpty_subtype]

/-- The first time of one thing or the other is the earlier of the two. -/
theorem firstTime_or : firstTime (fun n => P n ∨ Q n) = min (firstTime P) (firstTime Q) := by
  apply le_antisymm
  · refine le_min (le_iInf fun n => ?_) (le_iInf fun n => ?_)
    · exact firstTime_le (.inl n.property)
    · exact firstTime_le (.inr n.property)
  · refine le_iInf fun n => ?_
    rcases n.property with hP | hQ
    · exact (min_le_left _ _).trans (firstTime_le hP)
    · exact (min_le_right _ _).trans (firstTime_le hQ)

/-- What has happened by a certain time has happened for the first time when it first happens. -/
theorem firstTime_exists_le : (firstTime fun n => ∃ i ≤ n, P i) = firstTime P := by
  apply le_antisymm
  · exact le_iInf fun n => firstTime_le ⟨n, Nat.le_refl _, n.property⟩
  · refine le_iInf fun n => ?_
    obtain ⟨i, hi, hP⟩ := n.property
    exact (firstTime_le hP).trans (Nat.cast_le.mpr hi)

/-- Something that goes on within a budget, as long as the property does not hold, goes on until the
first time or the end of the budget. -/
theorem eq_min_firstTime (hle : k ≤ n) (hbefore : ∀ i < k, ¬ P i) (hend : k < n → P k) :
    (k : ℕ∞) = min (firstTime P) n := by
  rcases Nat.lt_or_eq_of_le hle with hlt | rfl
  · rw [firstTime_eq_coe_iff.mpr ⟨hend hlt, hbefore⟩, min_eq_left (Nat.cast_le.mpr hle)]
  · rw [min_eq_right (le_firstTime_iff.mpr hbefore)]

end TapeMachine
