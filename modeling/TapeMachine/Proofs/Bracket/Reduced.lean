import Mathlib.Order.Monotone.Basic
import TapeMachine.Proofs.Bracket.Matching

/-!
# The reduced text of a program

A program may hold characters that do nothing wherever they stand: comments, and brackets without a
partner. `Reduced.ofChars` is the text without them. A position that is kept moves to its *rank*,
the number of positions kept before it (`Reduced.getElem?_rank`).

Taking characters out moves every bracket and takes the openings that stay pending off the stack
under which later closings are matched. The pairs are the same all the same: the matcher, on the
reduced text, has exactly those openings pending that are kept (`Bracket.Scan.pairsFrom_restOf`), so
it finds the pairs of the text, each bracket at its rank (`Reduced.pairs_ofChars`).
-/

namespace TapeMachine

namespace Reduced

open TapeMachine.Bracket

/-! ### What is kept -/

/-- Whether a character is kept that stands at the given position of the text: it is a command that
is executed for its effect, or a bracket with a partner. -/
def keepsChar (text : List Char) (c : Char) (i : Nat) : Bool :=
  match Command.ofChar c with
  | .increment | .decrement | .right | .left | .print => true
  | .opening | .closing => !decide (Unpaired text i)
  | .comment => false

/-- Whether the character at a position of the text is kept. -/
def keeps (text : List Char) (i : Nat) : Bool :=
  text[i]?.any fun c => keepsChar text c i

/-- What is kept of the rest of the text, which starts at position `i`. -/
def restOf (text : List Char) (i : Nat) (rest : List Char) : List Char :=
  ((rest.zipIdx i).filter fun p => keepsChar text p.1 p.2).map Prod.fst

/-- What is kept of the text. -/
def ofChars (text : List Char) : List Char :=
  restOf text 0 text

/-- The number of positions before the given one that are kept. -/
def rank (text : List Char) (i : Nat) : Nat :=
  (List.range i).countP (keeps text)

section kept

variable {text rest : List Char} {i j : Nat} {c : Char}

theorem keeps_eq (hc : text[i]? = some c) : keeps text i = keepsChar text c i := by
  rw [keeps, hc, Option.any_some]

theorem exists_char_of_keeps (h : keeps text i = true) : ∃ c, text[i]? = some c := by
  obtain ⟨c, hc, -⟩ := (Option.any_eq_true _ _).mp h
  exact ⟨c, hc⟩

/-- A bracket is kept if it has a partner. -/
theorem keeps_of_bracket (hc : text[i]? = some '[' ∨ text[i]? = some ']') :
    keeps text i = !decide (Unpaired text i) := by
  rcases hc with hc | hc
  · exact keeps_eq hc
  · exact keeps_eq hc

/-- Both brackets of a pair are kept. -/
theorem keeps_of_mem_pairs {p : Nat × Nat} (h : p ∈ pairs text) :
    keeps text p.1 = true ∧ keeps text p.2 = true := by
  obtain ⟨hclosing, hopening⟩ := brackets_of_mem_pairs h
  have hpaired : ¬ Unpaired text p.1 ∧ ¬ Unpaired text p.2 :=
    ⟨fun hun => (hun p h).1 rfl, fun hun => (hun p h).2 rfl⟩
  rw [keeps_of_bracket (.inr hclosing), keeps_of_bracket (.inl hopening)]
  exact ⟨by simpa using hpaired.1, by simpa using hpaired.2⟩

/-- What is not kept has no partner. -/
theorem unpaired_of_not_keeps (h : keeps text i = false) : Unpaired text i := by
  intro p hp
  obtain ⟨hclosing, hopening⟩ := keeps_of_mem_pairs hp
  constructor
  · rintro rfl
    rw [h] at hclosing
    cases hclosing
  · rintro rfl
    rw [h] at hopening
    cases hopening

/-! ### Ranks -/

theorem rank_succ_of_keeps (h : keeps text i = true) : rank text (i + 1) = rank text i + 1 := by
  simp [rank, List.range_succ, List.countP_append, h]

theorem rank_succ_of_not_keeps (h : keeps text i = false) : rank text (i + 1) = rank text i := by
  simp [rank, List.range_succ, List.countP_append, h]

theorem rank_mono (text : List Char) : Monotone (rank text) := by
  apply monotone_nat_of_le_succ
  intro i
  by_cases h : keeps text i = true
  · rw [rank_succ_of_keeps h]
    exact Nat.le_succ _
  · rw [rank_succ_of_not_keeps (Bool.eq_false_iff.mpr h)]

/-- A position that is kept has a smaller rank than every later one. -/
theorem rank_lt_rank (h : keeps text i = true) (hij : i < j) : rank text i < rank text j := by
  have hle : rank text (i + 1) ≤ rank text j := rank_mono text hij
  rw [rank_succ_of_keeps h] at hle
  exact hle

/-- Different positions that are kept have different ranks. -/
theorem eq_of_rank_eq (hi : keeps text i = true) (hj : keeps text j = true)
    (h : rank text i = rank text j) : i = j := by
  rcases Nat.lt_trichotomy i j with hlt | heq | hgt
  · have := rank_lt_rank hi hlt
    omega
  · exact heq
  · have := rank_lt_rank hj hgt
    omega

theorem restOf_cons_of_keeps (h : keepsChar text c i = true) :
    restOf text i (c :: rest) = c :: restOf text (i + 1) rest := by
  simp [restOf, h]

theorem restOf_cons_of_not_keeps (h : keepsChar text c i = false) :
    restOf text i (c :: rest) = restOf text (i + 1) rest := by
  simp [restOf, h]

/-- From its rank on, the reduced text is what is kept from the position on. -/
theorem drop_rank (text : List Char) (i : Nat) :
    (ofChars text).drop (rank text i) = restOf text i (text.drop i) := by
  induction i with
  | zero => rfl
  | succ i ih =>
      by_cases hi : i < text.length
      · have hc : text[i]? = some text[i] := List.getElem?_eq_getElem hi
        rw [List.drop_eq_getElem_cons hi] at ih
        by_cases hkeeps : keeps text i = true
        · rw [restOf_cons_of_keeps (by rw [← keeps_eq hc, hkeeps])] at ih
          rw [rank_succ_of_keeps hkeeps, ← List.drop_drop, ih]
          rfl
        · rw [Bool.not_eq_true] at hkeeps
          rw [restOf_cons_of_not_keeps (by rw [← keeps_eq hc, hkeeps])] at ih
          rw [rank_succ_of_not_keeps hkeeps, ih]
      · have hnone : keeps text i = false := by
          rw [keeps, List.getElem?_eq_none (Nat.le_of_not_lt hi), Option.any_none]
        rw [rank_succ_of_not_keeps hnone, ih, List.drop_eq_nil_of_le (by omega),
          List.drop_eq_nil_of_le (by omega)]
        rfl

/-- **A character that is kept stands at its rank** in the reduced text. -/
theorem getElem?_rank (h : keeps text i = true) : (ofChars text)[rank text i]? = text[i]? := by
  obtain ⟨c, hc⟩ := exists_char_of_keeps h
  obtain ⟨hi, hget⟩ := List.getElem?_eq_some_iff.mp hc
  have hdrop := drop_rank text i
  rw [List.drop_eq_getElem_cons hi, hget,
    restOf_cons_of_keeps (by rw [← keeps_eq hc, h])] at hdrop
  have hhead : ((ofChars text).drop (rank text i))[0]? = (ofChars text)[rank text i]? :=
    List.getElem?_drop
  rw [← hhead, hdrop, hc]
  rfl

theorem rank_lt_length (h : keeps text i = true) : rank text i < (ofChars text).length := by
  obtain ⟨c, hc⟩ := exists_char_of_keeps h
  rw [← getElem?_rank h] at hc
  exact (List.getElem?_eq_some_iff.mp hc).1

/-- The end of the text has the end of the reduced text for its rank. -/
theorem rank_length (text : List Char) : rank text text.length = (ofChars text).length := by
  apply Nat.le_antisymm
  · suffices h : ∀ i, rank text i ≤ (ofChars text).length from h text.length
    intro i
    induction i with
    | zero => exact Nat.zero_le _
    | succ i ih =>
        by_cases hkeeps : keeps text i = true
        · rw [rank_succ_of_keeps hkeeps]
          exact rank_lt_length hkeeps
        · rw [rank_succ_of_not_keeps (Bool.eq_false_iff.mpr hkeeps)]
          exact ih
  · have hdrop := drop_rank text text.length
    rw [List.drop_length] at hdrop
    exact List.drop_eq_nil_iff.mp hdrop

end kept

end Reduced

/-! ### Pairs -/

open Reduced in
/-- **The matcher on the reduced text follows the matcher on the text.** The openings that are
pending for it are those that are kept. -/
theorem Bracket.Scan.pairsFrom_restOf {text rest : List Char} {i : Nat} {pending : List Nat}
    {found : List (Nat × Nat)} (h : Scan text i pending found rest) :
    pairsFrom (rank text i) ((pending.filter (keeps text)).map (rank text)) (restOf text i rest) =
      (pairsFrom i pending rest).map fun p => (rank text p.1, rank text p.2) := by
  induction rest generalizing i pending found with
  | nil => rfl
  | cons c rest ih =>
      have hkeeps : keeps text i = keepsChar text c i := keeps_eq h.getElem?
      by_cases hopen : c = '['
      · subst hopen
        have hrest := ih h.opening
        by_cases hkept : keeps text i = true
        · rw [rank_succ_of_keeps hkept, List.filter_cons_of_pos hkept] at hrest
          rw [restOf_cons_of_keeps (by rw [← hkeeps, hkept])]
          exact hrest
        · -- an opening that is not kept is not pending for the reduced text either
          rw [Bool.not_eq_true] at hkept
          rw [rank_succ_of_not_keeps hkept, List.filter_cons_of_neg (by simp [hkept])] at hrest
          rw [restOf_cons_of_not_keeps (by rw [← hkeeps, hkept])]
          exact hrest
      by_cases hclose : c = ']'
      · subst hclose
        cases pending with
        | nil =>
            have hkept : keeps text i = false := by
              rw [keeps_of_bracket (.inr h.getElem?)]
              simpa using h.unpaired_stray
            have hrest := ih h.stray
            rw [rank_succ_of_not_keeps hkept] at hrest
            rw [restOf_cons_of_not_keeps (by rw [← hkeeps, hkept])]
            exact hrest
        | cons opening pending =>
            have hpair : (i, opening) ∈ pairs text := by
              rw [h.closing.pairs_eq]
              simp
            obtain ⟨hkept, hopening⟩ := keeps_of_mem_pairs hpair
            have hrest := ih h.closing
            rw [rank_succ_of_keeps hkept] at hrest
            rw [restOf_cons_of_keeps (by rw [← hkeeps, hkept]), List.filter_cons_of_pos hopening]
            exact congrArg ((rank text i, rank text opening) :: ·) hrest
      · have hrest := ih (h.other hopen hclose)
        by_cases hkept : keeps text i = true
        · rw [rank_succ_of_keeps hkept] at hrest
          rw [restOf_cons_of_keeps (by rw [← hkeeps, hkept])]
          simp only [pairsFrom, if_neg hopen, if_neg hclose]
          exact hrest
        · rw [Bool.not_eq_true] at hkept
          rw [rank_succ_of_not_keeps hkept] at hrest
          rw [restOf_cons_of_not_keeps (by rw [← hkeeps, hkept])]
          simp only [pairsFrom, if_neg hopen, if_neg hclose]
          exact hrest

namespace Reduced

open TapeMachine.Bracket

/-- **The pairs of the reduced text** are those of the text, each bracket at its rank. -/
theorem pairs_ofChars (text : List Char) :
    pairs (ofChars text) = (pairs text).map fun p => (rank text p.1, rank text p.2) :=
  (Scan.start text).pairsFrom_restOf

/-- A bracket that is kept has its partner at the rank of its partner. -/
theorem mem_pairs_iff {text : List Char} {i : Nat} (h : keeps text i = true) (o' : Nat) :
    (rank text i, o') ∈ pairs (ofChars text) ↔ ∃ o, (i, o) ∈ pairs text ∧ o' = rank text o := by
  simp only [pairs_ofChars, List.mem_map, Prod.mk.injEq]
  constructor
  · rintro ⟨⟨k, o⟩, hpair, hk, ho⟩
    obtain rfl := eq_of_rank_eq (keeps_of_mem_pairs hpair).1 h hk
    exact ⟨o, hpair, ho.symm⟩
  · rintro ⟨o, hpair, rfl⟩
    exact ⟨(i, o), hpair, rfl, rfl⟩

-- the first `]` and the last `[` have no partner, and the letters are comments
example : ofChars "]a+[b-]c[.".toList = "+[-].".toList := by decide

end Reduced

end TapeMachine
