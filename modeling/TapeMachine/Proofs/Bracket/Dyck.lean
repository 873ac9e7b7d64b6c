import Mathlib.Combinatorics.Enumerative.DyckWord
import TapeMachine.Proofs.Bracket.Matching

/-!
# Partners and Dyck words

Which brackets are partners can be said without a stack: an opening and a later closing are, if the
brackets strictly between them form a Dyck word (`Bracket.Partners`). The matcher finds exactly
these pairs (`Bracket.mem_pairs_iff_partners`).

* **Everything found is a pair of partners.** At each position the pending openings are nested:
  between one and the next the brackets are balanced, and so they are from the innermost one to the
  position (`Bracket.Nested`). When the innermost one is taken off, what it enclosed becomes part of
  what the next one encloses.
* **All partners are found.** Over a text in which no beginning closes more than it opens, the
  matcher never takes an opening that was pending before (`Bracket.pairsFrom_suffix`). If the text
  is balanced it leaves none of its own either, so the opening that stands before it is the
  innermost one at the closing that stands behind it.
-/

namespace TapeMachine

namespace Bracket

/-! ### Balanced texts -/

/-- A bracket as a step of a Dyck word: up for an opening one, down for a closing one. -/
def step? : Char → Option DyckStep
  | '[' => some .U
  | ']' => some .D
  | _ => none

/-- The brackets of a text, as steps of a Dyck word. -/
def steps (text : List Char) : List DyckStep :=
  text.filterMap step?

/-- The brackets of a text form a Dyck word, whatever stands between them. -/
def Balanced (text : List Char) : Prop :=
  ∃ w : DyckWord, w.toList = steps text

theorem step?_of_other {c : Char} (hopen : c ≠ '[') (hclose : c ≠ ']') : step? c = none := by
  unfold step?
  split
  · exact absurd rfl hopen
  · exact absurd rfl hclose
  · rfl

theorem steps_opening (rest : List Char) : steps ('[' :: rest) = .U :: steps rest :=
  rfl

theorem steps_closing (rest : List Char) : steps (']' :: rest) = .D :: steps rest :=
  rfl

theorem steps_other {c : Char} (hopen : c ≠ '[') (hclose : c ≠ ']') (rest : List Char) :
    steps (c :: rest) = steps rest :=
  List.filterMap_cons_none (step?_of_other hopen hclose)

theorem steps_append (a b : List Char) : steps (a ++ b) = steps a ++ steps b :=
  List.filterMap_append

theorem balanced_nil : Balanced [] :=
  ⟨0, rfl⟩

/-- A character that is not a bracket may follow. -/
theorem Balanced.snoc_other {text : List Char} {c : Char} (h : Balanced text) (hopen : c ≠ '[')
    (hclose : c ≠ ']') : Balanced (text ++ [c]) := by
  obtain ⟨w, hw⟩ := h
  refine ⟨w, ?_⟩
  simp [hw, steps, step?_of_other hopen hclose]

/-- A balanced text in brackets may follow. -/
theorem Balanced.append_bracketed {a b : List Char} (ha : Balanced a) (hb : Balanced b) :
    Balanced (a ++ '[' :: (b ++ [']'])) := by
  obtain ⟨v, hv⟩ := ha
  obtain ⟨w, hw⟩ := hb
  refine ⟨v + w.nest, ?_⟩
  rw [steps_append, steps_opening, steps_append, ← hv, ← hw]
  rfl

/-- No beginning of a balanced text closes more than it opens. -/
theorem Balanced.count_le {text front : List Char} (h : Balanced text) (hfront : front <+: text) :
    (steps front).count .D ≤ (steps front).count .U := by
  obtain ⟨w, hw⟩ := h
  have htake : w.toList.take (steps front).length = steps front := by
    rw [hw]
    exact (List.prefix_iff_eq_take.mp (hfront.filterMap step?)).symm
  have hle := w.count_D_le_count_U (steps front).length
  rwa [htake] at hle

theorem Balanced.count_eq {text : List Char} (h : Balanced text) :
    (steps text).count .U = (steps text).count .D := by
  obtain ⟨w, hw⟩ := h
  rw [← hw]
  exact w.count_U_eq_count_D

/-! ### Partners -/

/-- The characters strictly between two positions. -/
def between (text : List Char) (o c : Nat) : List Char :=
  (text.take c).drop (o + 1)

/-- An opening bracket at `o` and a closing one at `c` that belong together: the brackets between
them form a Dyck word. -/
structure Partners (text : List Char) (o c : Nat) : Prop where
  lt : o < c
  opening : text[o]? = some '['
  closing : text[c]? = some ']'
  balanced : Balanced (between text o c)

section between

variable {text : List Char} {a b c : Nat} {ch : Char}

theorem between_succ (text : List Char) (a : Nat) : between text a (a + 1) = [] := by
  unfold between
  rw [List.drop_eq_nil_iff, List.length_take]
  omega

/-- A text is what stands before a position, the character there, and what stands behind. -/
theorem take_append_cons_drop (hb : text[b]? = some ch) :
    text.take b ++ ch :: text.drop (b + 1) = text := by
  obtain ⟨hlt, rfl⟩ := List.getElem?_eq_some_iff.mp hb
  rw [← List.drop_eq_getElem_cons hlt, List.take_append_drop]

/-- What stands before a position, divided at an earlier one. -/
theorem take_eq_append_between (hbc : b < c) (hb : text[b]? = some ch) :
    text.take c = text.take b ++ ch :: between text b c := by
  have hget : (text.take c)[b]? = some ch := by
    rw [List.getElem?_take_of_lt hbc, hb]
  have hsplit := take_append_cons_drop hget
  rw [List.take_take, Nat.min_eq_left (Nat.le_of_lt hbc)] at hsplit
  exact hsplit.symm

/-- A position between two others divides what is between them. -/
theorem between_split (hab : a < b) (hbc : b < c) (hb : text[b]? = some ch) :
    between text a c = between text a b ++ ch :: between text b c := by
  have hlt : b < text.length := (List.getElem?_eq_some_iff.mp hb).1
  have hle : a + 1 ≤ (text.take b).length := by
    rw [List.length_take]
    omega
  rw [between, take_eq_append_between hbc hb, List.drop_append_of_le_length hle]
  rfl

end between

/-! ### Everything found is a pair of partners -/

/-- Openings that are pending at a position, the innermost one first: the brackets between one and
the next are balanced, and so are those between the innermost one and the position. -/
inductive Nested (text : List Char) : Nat → List Nat → Prop
  | nil (i : Nat) : Nested text i []
  | cons {i o : Nat} {outer : List Nat} : o < i → text[o]? = some '[' →
      Balanced (between text o i) → Nested text o outer → Nested text i (o :: outer)

namespace Nested

variable {text : List Char} {i o : Nat} {pending : List Nat} {c : Char}

/-- An opening bracket becomes the innermost one. -/
theorem opening (h : Nested text i pending) (hi : text[i]? = some '[') :
    Nested text (i + 1) (i :: pending) := by
  refine .cons (Nat.lt_succ_self i) hi ?_ h
  rw [between_succ]
  exact balanced_nil

/-- A character that is not a bracket leaves the nesting as it is. -/
theorem other (h : Nested text i pending) (hi : text[i]? = some c) (hopen : c ≠ '[')
    (hclose : c ≠ ']') : Nested text (i + 1) pending := by
  cases h with
  | nil => exact .nil (i + 1)
  | @cons _ o outer hlt ho hbalanced houter =>
      refine .cons (Nat.lt_succ_of_lt hlt) ho ?_ houter
      rw [between_split hlt (Nat.lt_succ_self i) hi, between_succ]
      exact hbalanced.snoc_other hopen hclose

/-- A closing bracket is the partner of the innermost opening. -/
theorem partners (h : Nested text i (o :: pending)) (hi : text[i]? = some ']') :
    Partners text o i := by
  cases h with
  | cons hlt ho hbalanced _ => exact ⟨hlt, ho, hi, hbalanced⟩

/-- A closing bracket ends what its partner encloses, which is then enclosed by the next. -/
theorem closing (h : Nested text i (o :: pending)) (hi : text[i]? = some ']') :
    Nested text (i + 1) pending := by
  cases h with
  | cons hlt ho hinner houter =>
      cases houter with
      | nil => exact .nil (i + 1)
      | @cons _ o' outer hlt' ho' hbefore houter =>
          refine .cons (by omega) ho' ?_ houter
          rw [between_split (by omega : o' < i) (Nat.lt_succ_self i) hi, between_succ,
            between_split hlt' hlt ho, List.append_assoc, List.cons_append]
          exact hbefore.append_bracketed hinner

end Nested

/-- From a position at which the pending openings are nested, only partners are found. -/
theorem Scan.partners_of_mem {text rest : List Char} {i : Nat} {pending : List Nat}
    {found : List (Nat × Nat)} {p : Nat × Nat} (hscan : Scan text i pending found rest)
    (hnested : Nested text i pending) (h : p ∈ pairsFrom i pending rest) :
    Partners text p.2 p.1 := by
  fun_induction pairsFrom i pending rest generalizing found with
  | case1 => cases h
  | case2 i pending rest ih => exact ih hscan.opening (hnested.opening hscan.getElem?) h
  | case3 i rest _ ih => exact ih hscan.stray (.nil _) h
  | case4 i rest _ opening outer ih =>
      rcases List.mem_cons.mp h with rfl | h
      · exact hnested.partners hscan.getElem?
      · exact ih hscan.closing (hnested.closing hscan.getElem?) h
  | case5 i pending c rest hopen hclose ih =>
      exact ih (hscan.other hopen hclose) (hnested.other hscan.getElem? hopen hclose) h

/-! ### All partners are found -/

/-- Over a text no beginning of which closes more than it opens, with what is on top of the pending
openings counted in, the matcher takes nothing from those `below`. It goes on behind the text with
as many on top of them as are left over. -/
theorem pairsFrom_suffix {text : List Char} (i : Nat) (top below : List Nat) (more : List Char)
    (h : ∀ front, front <+: text →
      (steps front).count .D ≤ top.length + (steps front).count .U) :
    ∃ left, left.length + (steps text).count .D = top.length + (steps text).count .U ∧
      pairsFrom (i + text.length) (left ++ below) more <:+
        pairsFrom i (top ++ below) (text ++ more) := by
  have hup : ∀ rest : List DyckStep, (.U :: rest).count .D = rest.count .D := fun rest =>
    List.count_cons_of_ne (by decide)
  have hdown : ∀ rest : List DyckStep, (.D :: rest).count .U = rest.count .U := fun rest =>
    List.count_cons_of_ne (by decide)
  induction text generalizing i top with
  | nil => exact ⟨top, rfl, List.suffix_refl _⟩
  | cons c text ih =>
      have hlength : i + (c :: text).length = i + 1 + text.length := by
        rw [List.length_cons]
        omega
      have hfront : ∀ front, front <+: text → (steps (c :: front)).count .D ≤
          top.length + (steps (c :: front)).count .U := by
        intro front hfront
        exact h (c :: front) (List.cons_prefix_cons.mpr ⟨rfl, hfront⟩)
      rw [hlength]
      by_cases hopen : c = '['
      · subst hopen
        simp only [steps_opening, List.count_cons_self, hup] at hfront ⊢
        obtain ⟨left, hcount, hsuffix⟩ := ih (i + 1) (i :: top) fun front hprefix => by
          have hle := hfront front hprefix
          rw [List.length_cons]
          omega
        rw [List.length_cons] at hcount
        exact ⟨left, by omega, hsuffix⟩
      by_cases hclose : c = ']'
      · subst hclose
        simp only [steps_closing, List.count_cons_self, hdown] at hfront ⊢
        cases top with
        | nil =>
            -- the closing bracket alone is a beginning that closes too much
            have hle := hfront [] List.nil_prefix
            simp [steps] at hle
        | cons opening top =>
            simp only [List.length_cons] at hfront ⊢
            obtain ⟨left, hcount, hsuffix⟩ := ih (i + 1) top fun front hprefix => by
              have hle := hfront front hprefix
              omega
            exact ⟨left, by omega, hsuffix.trans (List.suffix_cons _ _)⟩
      · simp only [steps_other hopen hclose] at hfront ⊢
        obtain ⟨left, hcount, hsuffix⟩ := ih (i + 1) top hfront
        refine ⟨left, hcount, ?_⟩
        simp only [List.cons_append, pairsFrom, if_neg hopen, if_neg hclose]
        exact hsuffix

/-- A closing bracket behind a balanced text is paired with the opening that stands before it. -/
theorem mem_pairsFrom_of_balanced {text : List Char} (h : Balanced text) (o : Nat)
    (pending : List Nat) (more : List Char) :
    (o + 1 + text.length, o) ∈ pairsFrom o pending ('[' :: (text ++ ']' :: more)) := by
  obtain ⟨left, hcount, hsuffix⟩ :=
    pairsFrom_suffix (o + 1) [] (o :: pending) (']' :: more) fun front hfront => by
      have hle := h.count_le hfront
      rw [List.length_nil]
      omega
  have hleft : left = [] := by
    have heq := h.count_eq
    rw [List.length_nil] at hcount
    exact List.eq_nil_of_length_eq_zero (by omega)
  subst hleft
  exact hsuffix.subset List.mem_cons_self

/-- **The matcher finds the partners**, all of them and nothing else. -/
theorem mem_pairs_iff_partners (text : List Char) (o c : Nat) :
    (c, o) ∈ pairs text ↔ Partners text o c := by
  constructor
  · intro h
    exact (Scan.start text).partners_of_mem (.nil 0) h
  · intro h
    obtain ⟨hlt, -⟩ := List.getElem?_eq_some_iff.mp h.closing
    have horder := h.lt
    have hsplit : text.take o ++ '[' :: (between text o c ++ ']' :: text.drop (c + 1)) = text := by
      rw [← List.cons_append, ← List.append_assoc, ← take_eq_append_between horder h.opening]
      exact take_append_cons_drop h.closing
    have hlength : o + 1 + (between text o c).length = c := by
      unfold between
      simp only [List.length_drop, List.length_take]
      omega
    have hbefore : 0 + (text.take o).length = o := by
      rw [List.length_take]
      omega
    obtain ⟨left, -, hmore⟩ := (Scan.start (text.take o)).exists_end
    have hmem := mem_pairsFrom_of_balanced h.balanced o left (text.drop (c + 1))
    rw [hbefore] at hmore
    rw [hlength] at hmem
    rw [pairs, ← hsplit, hmore]
    exact List.mem_append_right _ hmem

/-! ### The table and the column of jumps -/

/-- The column of jumps holds the openings that the table has. -/
theorem getElem?_spread_eq_some_natCast_iff (text : List Char) (o c : Nat) :
    (spread text.length (pairs text))[c]? = some (o : Int) ↔ (pairs text).lookup c = some o := by
  by_cases hc : c < text.length
  · rw [getElem?_spread_pairs text hc, Option.some.injEq]
    rcases (pairs text).lookup c with _ | o'
    · simp only [Option.elim_none, noJump, reduceCtorEq]
    · simp only [Option.elim_some, Option.some.injEq]
      omega
  · obtain ⟨pending, hend⟩ := exists_scan_end text
    have hcolumn : (spread text.length (pairs text))[c]? = none := by
      rw [Array.getElem?_eq_none_iff, size_spread]
      omega
    rw [hcolumn, lookup_pairs_eq_some_iff]
    constructor
    · intro h
      cases h
    · intro h
      exact absurd (hend.found_lt _ h).1 hc

/-- **Which brackets are matched.** The table has the opening `o` for the position `c` exactly if
`o` comes before `c`, they hold an opening and a closing bracket, and the brackets strictly between
them form a Dyck word; it has no entry for `c` exactly if there is no such opening. The column of
jumps has one number for each character: that of the opening where there is one, and otherwise `-1`.
For texts of up to `2 ^ 31` characters the numbers fit 32 bits. -/
theorem matches_iff_dyck (text : List Char) :
    (∀ o c, (pairs text).lookup c = some o ↔ Partners text o c) ∧
    (∀ c, (pairs text).lookup c = none ↔ ¬ ∃ o, Partners text o c) ∧
    (spread text.length (pairs text)).size = text.length ∧
    (∀ o c : Nat, (spread text.length (pairs text))[c]? = some (o : Int) ↔ Partners text o c) ∧
    (∀ c, (spread text.length (pairs text))[c]? = some (-1) ↔
      c < text.length ∧ ¬ ∃ o, Partners text o c) ∧
    (text.length ≤ 2 ^ 31 → ∀ (c : Nat) (e : Int),
      (spread text.length (pairs text))[c]? = some e → -2 ^ 31 ≤ e ∧ e < 2 ^ 31) := by
  have htable : ∀ o c, (pairs text).lookup c = some o ↔ Partners text o c := fun o c =>
    (lookup_pairs_eq_some_iff text o c).trans (mem_pairs_iff_partners text o c)
  have hnone : ∀ c, (pairs text).lookup c = none ↔ ¬ ∃ o, Partners text o c := by
    intro c
    rw [Option.eq_none_iff_forall_ne_some, not_exists]
    exact forall_congr' fun o => not_congr (htable o c)
  refine ⟨htable, hnone, size_spread _ _, ?_, ?_, ?_⟩
  · intro o c
    rw [getElem?_spread_eq_some_natCast_iff, htable]
  · intro c
    rw [← hnone]
    constructor
    · intro h
      have hc : c < text.length := by
        rw [← size_spread text.length (pairs text)]
        exact (Array.getElem?_eq_some_iff.mp h).1
      refine ⟨hc, ?_⟩
      rw [getElem?_spread_pairs text hc, Option.some.injEq] at h
      rcases hlookup : (pairs text).lookup c with _ | o
      · rfl
      · rw [hlookup, Option.elim_some] at h
        omega
    · rintro ⟨hc, hlookup⟩
      rw [getElem?_spread_pairs text hc, hlookup]
      rfl
  · intro hlength c e h
    have hbounds := spread_pairs_bounds text h
    omega

/-- A closing bracket without a partner, a pair, and an opening bracket that stays pending. -/
theorem matches_iff_dyck_among_strays :
    (pairs "][[+]".toList).lookup 4 = some 2 ∧ Partners "][[+]".toList 2 4 ∧
    (spread 5 (pairs "][[+]".toList))[0]? = some (-1) ∧ (¬ ∃ o, Partners "][[+]".toList o 0) ∧
    ∀ (c : Nat) (e : Int), (spread 5 (pairs "][[+]".toList))[c]? = some e → e < 2 ^ 31 := by
  obtain ⟨htable, -, -, -, hnone, hfits⟩ := matches_iff_dyck "][[+]".toList
  have hlookup : (pairs "][[+]".toList).lookup 4 = some 2 := by decide +kernel
  have hstray : (spread 5 (pairs "][[+]".toList))[0]? = some (-1) := by decide +kernel
  exact ⟨hlookup, (htable 2 4).mp hlookup, hstray, ((hnone 0).mp hstray).2,
    fun c e h => (hfits (by decide +kernel) c e h).2⟩

end Bracket

end TapeMachine
