import TapeMachine.Program
import Mathlib.Data.List.Pairwise
import Mathlib.Tactic.SplitIfs

/-!
# What the bracket matcher finds

The matcher goes over the text once, with a stack of pending openings. `Bracket.Scan` is its
invariant: what has been found lies behind the current position, what is pending is an opening that
no pair found so far has used, and the pairs still to come are those of the rest. One lemma for each
kind of character takes the invariant one position further (`Scan.opening`, `Scan.closing`,
`Scan.stray`, `Scan.other`), so it holds at the end of every text (`Bracket.exists_scan_end`).

A program has its jumps twice. Single steps look them up in the table of pairs
(`Bracket.jumpAt?_eq_some_iff`), and the batch loop in a column of numbers. The column is the table
laid out, entry by entry (`Bracket.getElem?_spread_pairs`), so both lead to the same position
(`Program.targetAt?_eq`).
-/

namespace TapeMachine

namespace Bracket

/-! ### One pass over the text -/

/-- A position that no pair contains: it holds no bracket, or one without a partner. -/
def Unpaired (text : List Char) (i : Nat) : Prop :=
  ∀ p ∈ pairs text, p.1 ≠ i ∧ p.2 ≠ i

instance (text : List Char) (i : Nat) : Decidable (Unpaired text i) :=
  inferInstanceAs (Decidable (∀ p ∈ pairs text, p.1 ≠ i ∧ p.2 ≠ i))

/-- Bracket matching looks at the brackets only. -/
theorem pairsFrom_map {f : Char → Char} (hopening : ∀ c, f c = '[' ↔ c = '[')
    (hclosing : ∀ c, f c = ']' ↔ c = ']') (i : Nat) (pending : List Nat) (text : List Char) :
    pairsFrom i pending (text.map f) = pairsFrom i pending text := by
  induction text generalizing i pending with
  | nil => rfl
  | cons c rest ih =>
      rw [List.map_cons]
      unfold pairsFrom
      simp only [hopening, hclosing, ih]

/-- The matcher is at position `i`, has found some pairs and has some openings pending, and `rest`
is still to be read. -/
structure Scan (text : List Char) (i : Nat) (pending : List Nat) (found : List (Nat × Nat))
    (rest : List Char) : Prop where
  drop_eq : text.drop i = rest
  pairs_eq : pairs text = found ++ pairsFrom i pending rest
  found_lt : ∀ p ∈ found, p.1 < i ∧ p.2 < i
  /-- A pair joins an opening bracket and a closing one. -/
  found_brackets : ∀ p ∈ found, text[p.1]? = some ']' ∧ text[p.2]? = some '['
  found_sorted : found.Pairwise fun p q => p.1 < q.1
  found_openings : found.Pairwise fun p q => p.2 ≠ q.2
  /-- No opening is both pending and in a pair. -/
  fresh : ∀ p ∈ found, p.2 ∉ pending
  pending_lt : ∀ o ∈ pending, o < i
  pending_brackets : ∀ o ∈ pending, text[o]? = some '['
  pending_sorted : pending.Pairwise (· > ·)

namespace Scan

variable {text rest : List Char} {i o : Nat} {pending : List Nat} {found : List (Nat × Nat)}
  {c : Char}

/-- The pass starts with nothing found and nothing pending. -/
theorem start (text : List Char) : Scan text 0 [] [] text := by
  constructor <;> simp [pairs]

/-- The character that is read next is the one at the current position. -/
theorem getElem? (h : Scan text i pending found (c :: rest)) : text[i]? = some c := by
  have hget : (text.drop i)[0]? = text[i]? := List.getElem?_drop
  rw [h.drop_eq] at hget
  exact hget.symm

theorem drop_succ (h : Scan text i pending found (c :: rest)) : text.drop (i + 1) = rest := by
  rw [← List.drop_drop, h.drop_eq]
  rfl

/-- An opening bracket becomes pending. -/
theorem opening (h : Scan text i pending found ('[' :: rest)) :
    Scan text (i + 1) (i :: pending) found rest where
  drop_eq := h.drop_succ
  pairs_eq := h.pairs_eq
  found_lt p hp := by
    have := h.found_lt p hp
    omega
  found_brackets := h.found_brackets
  found_sorted := h.found_sorted
  found_openings := h.found_openings
  fresh p hp hmem := by
    rcases List.mem_cons.mp hmem with heq | hmem
    · have := h.found_lt p hp
      omega
    · exact h.fresh p hp hmem
  pending_lt o ho := by
    rcases List.mem_cons.mp ho with rfl | ho
    · omega
    · have := h.pending_lt o ho
      omega
  pending_brackets o ho := by
    rcases List.mem_cons.mp ho with rfl | ho
    · exact h.getElem?
    · exact h.pending_brackets o ho
  pending_sorted := List.pairwise_cons.mpr ⟨h.pending_lt, h.pending_sorted⟩

/-- A closing bracket is paired with the innermost opening that is pending. -/
theorem closing (h : Scan text i (o :: pending) found (']' :: rest)) :
    Scan text (i + 1) pending (found ++ [(i, o)]) rest := by
  have hmem : o ∈ o :: pending := List.mem_cons_self
  obtain ⟨hfirst, hsorted⟩ := List.pairwise_cons.mp h.pending_sorted
  refine ⟨h.drop_succ, ?_, ?_, ?_, ?_, ?_, ?_, ?_, ?_, hsorted⟩
  · rw [h.pairs_eq, List.append_assoc]
    rfl
  · intro p hp
    rcases List.mem_append.mp hp with hp | hp
    · have := h.found_lt p hp
      omega
    · have := h.pending_lt o hmem
      rw [List.mem_singleton.mp hp]
      omega
  · intro p hp
    rcases List.mem_append.mp hp with hp | hp
    · exact h.found_brackets p hp
    · rw [List.mem_singleton.mp hp]
      exact ⟨h.getElem?, h.pending_brackets o hmem⟩
  · rw [List.pairwise_append]
    refine ⟨h.found_sorted, List.pairwise_singleton .., ?_⟩
    intro p hp q hq
    rw [List.mem_singleton.mp hq]
    exact (h.found_lt p hp).1
  · rw [List.pairwise_append]
    refine ⟨h.found_openings, List.pairwise_singleton .., ?_⟩
    intro p hp q hq heq
    rw [List.mem_singleton.mp hq] at heq
    exact h.fresh p hp (heq ▸ hmem)
  · intro p hp
    rcases List.mem_append.mp hp with hp | hp
    · intro hin
      exact h.fresh p hp (List.mem_cons_of_mem _ hin)
    · rw [List.mem_singleton.mp hp]
      intro hin
      exact absurd (hfirst o hin) (Nat.lt_irrefl o)
  · intro o' ho'
    have := h.pending_lt o' (List.mem_cons_of_mem _ ho')
    omega
  · intro o' ho'
    exact h.pending_brackets o' (List.mem_cons_of_mem _ ho')

/-- Where a character is neither pushed nor paired, the pass only goes on. -/
theorem skip (h : Scan text i pending found (c :: rest))
    (hpairs : pairsFrom i pending (c :: rest) = pairsFrom (i + 1) pending rest) :
    Scan text (i + 1) pending found rest where
  drop_eq := h.drop_succ
  pairs_eq := by rw [h.pairs_eq, hpairs]
  found_lt p hp := by
    have := h.found_lt p hp
    omega
  found_brackets := h.found_brackets
  found_sorted := h.found_sorted
  found_openings := h.found_openings
  fresh := h.fresh
  pending_lt o ho := by
    have := h.pending_lt o ho
    omega
  pending_brackets := h.pending_brackets
  pending_sorted := h.pending_sorted

/-- A closing bracket with nothing pending is passed over. -/
theorem stray (h : Scan text i [] found (']' :: rest)) : Scan text (i + 1) [] found rest :=
  h.skip rfl

/-- A character that is not a bracket is passed over. -/
theorem other (h : Scan text i pending found (c :: rest)) (hopen : c ≠ '[') (hclose : c ≠ ']') :
    Scan text (i + 1) pending found rest :=
  h.skip (by simp only [pairsFrom, if_neg hopen, if_neg hclose])

end Scan

/-- From every position the pass goes on to the end, with every pair found. If more text followed,
the pass would go on there, with the openings that are pending at the end. -/
theorem Scan.exists_end {text rest : List Char} {i : Nat} {pending : List Nat}
    {found : List (Nat × Nat)} (h : Scan text i pending found rest) :
    ∃ left, Scan text (i + rest.length) left (pairs text) [] ∧
      ∀ more, pairsFrom i pending (rest ++ more) =
        pairsFrom i pending rest ++ pairsFrom (i + rest.length) left more := by
  induction rest generalizing i pending found with
  | nil =>
      have hall : pairs text = found := by simpa [pairsFrom] using h.pairs_eq
      rw [hall]
      exact ⟨pending, h, fun more => rfl⟩
  | cons c rest ih =>
      have hlength : i + (c :: rest).length = i + 1 + rest.length := by
        rw [List.length_cons]
        omega
      rw [hlength]
      by_cases hopen : c = '['
      · subst hopen
        exact ih h.opening
      by_cases hclose : c = ']'
      · subst hclose
        cases pending with
        | nil => exact ih h.stray
        | cons opening pending =>
            obtain ⟨left, hend, hmore⟩ := ih h.closing
            refine ⟨left, hend, fun more => ?_⟩
            exact congrArg ((i, opening) :: ·) (hmore more)
      · obtain ⟨left, hend, hmore⟩ := ih (h.other hopen hclose)
        refine ⟨left, hend, fun more => ?_⟩
        simp only [List.cons_append, pairsFrom, if_neg hopen, if_neg hclose, hmore more]

/-- The pass comes to the end of every text. -/
theorem exists_scan_end (text : List Char) :
    ∃ pending, Scan text text.length pending (pairs text) [] := by
  obtain ⟨pending, h, -⟩ := (Scan.start text).exists_end
  rw [Nat.zero_add] at h
  exact ⟨pending, h⟩

/-! ### Pairs -/

section pairs

variable {text rest : List Char} {i : Nat} {pending : List Nat} {found : List (Nat × Nat)}
  {c : Char}

/-- A pair joins an opening bracket and a closing one. -/
theorem brackets_of_mem_pairs {p : Nat × Nat} (h : p ∈ pairs text) :
    text[p.1]? = some ']' ∧ text[p.2]? = some '[' := by
  obtain ⟨pending, hend⟩ := exists_scan_end text
  exact hend.found_brackets p h

/-- An opening bracket has one partner at most. -/
theorem closing_unique {k k' : Nat} (h : (k, i) ∈ pairs text) (h' : (k', i) ∈ pairs text) :
    k = k' := by
  obtain ⟨pending, hend⟩ := exists_scan_end text
  have hsymm : Std.Symm fun p q : Nat × Nat => p.2 ≠ q.2 := ⟨fun _ _ hpq => hpq.symm⟩
  by_cases hk : k = k'
  · exact hk
  · have hpairs : (k, i) ≠ (k', i) := by
      intro heq
      exact hk (congrArg Prod.fst heq)
    have hne := hend.found_openings.forall h h' hpairs
    exact absurd rfl hne

/-- The pairs that are still to come close at or after the current position. -/
theorem le_of_mem_pairsFrom {p : Nat × Nat} (h : p ∈ pairsFrom i pending rest) : i ≤ p.1 := by
  fun_induction pairsFrom i pending rest with
  | case1 => cases h
  | case2 _ _ _ ih | case3 _ _ _ ih | case5 _ _ _ _ _ _ ih =>
      have := ih h
      omega
  | case4 i rest _ opening outer ih =>
      rcases List.mem_cons.mp h with rfl | h
      · exact Nat.le_refl i
      · have := ih h
        omega

/-- A character that is not a bracket is unpaired. -/
theorem unpaired_of_other (hc : text[i]? = some c) (hopen : c ≠ '[') (hclose : c ≠ ']') :
    Unpaired text i := by
  intro p hp
  obtain ⟨hkey, hvalue⟩ := brackets_of_mem_pairs hp
  constructor
  · rintro rfl
    exact hclose (Option.some.inj (hc.symm.trans hkey))
  · rintro rfl
    exact hopen (Option.some.inj (hc.symm.trans hvalue))

/-- A closing bracket that is met while nothing is pending is unpaired. -/
theorem Scan.unpaired_stray (h : Scan text i [] found (']' :: rest)) : Unpaired text i := by
  intro p hp
  constructor
  · -- what was found closes before this position, and what is to come closes after it
    rw [h.stray.pairs_eq, List.mem_append] at hp
    rcases hp with hp | hp
    · have := h.found_lt p hp
      omega
    · have := le_of_mem_pairsFrom hp
      omega
  · rintro rfl
    have hvalue := (brackets_of_mem_pairs hp).2
    rw [h.getElem?] at hvalue
    cases hvalue

/-- An opening bracket that is still pending at the end is unpaired. -/
theorem Scan.unpaired_pending (h : Scan text i pending (pairs text) []) {o : Nat}
    (ho : o ∈ pending) : Unpaired text o := by
  intro p hp
  constructor
  · rintro rfl
    have hkey := (brackets_of_mem_pairs hp).1
    rw [h.pending_brackets p.1 ho] at hkey
    cases hkey
  · rintro rfl
    exact h.fresh p hp ho

end pairs

/-! ### The table of jumps -/

/-- The table of pairs has one entry for a closing bracket at most. -/
theorem lookup_pairs_eq_some_iff (text : List Char) (o c : Nat) :
    (pairs text).lookup c = some o ↔ (c, o) ∈ pairs text := by
  obtain ⟨pending, hend⟩ := exists_scan_end text
  rw [List.lookup_eq_some_iff]
  constructor
  · rintro ⟨before, after, heq, -⟩
    rw [heq]
    exact List.mem_append_right _ List.mem_cons_self
  · intro h
    obtain ⟨before, after, heq⟩ := List.append_of_mem h
    have hsorted := hend.found_sorted
    rw [heq, List.pairwise_append] at hsorted
    refine ⟨before, after, heq, ?_⟩
    intro p hp
    have hlt := hsorted.2.2 p hp (c, o) List.mem_cons_self
    simpa using Nat.ne_of_gt hlt

/-- **A program jumps along the pairs of its brackets** and nowhere else. -/
theorem jumpAt?_eq_some_iff (text : List Char) (k i : Nat) :
    (Program.ofChars text).jumpAt? k = some i ↔ (k, i) ∈ pairs text := by
  have hlookup : (Program.ofChars text).jumpAt? k = (pairs text).lookup k := by
    simp [Program.jumpAt?, Program.ofChars]
  rw [hlookup, lookup_pairs_eq_some_iff]

/-- An unpaired position does not jump. -/
theorem jumpAt?_of_unpaired {text : List Char} {i : Nat} (h : Unpaired text i) :
    (Program.ofChars text).jumpAt? i = none := by
  rcases hjump : (Program.ofChars text).jumpAt? i with _ | target
  · rfl
  · exact absurd rfl (h _ ((jumpAt?_eq_some_iff text i target).mp hjump)).1

/-! ### The column of jumps -/

section spread

variable {matched : List (Nat × Nat)} {jumps : Array Int} {k : Nat}

/-- Spreads pairs over a column that may hold some already. -/
def spreadOver (jumps : Array Int) (matched : List (Nat × Nat)) : Array Int :=
  matched.foldl (fun jumps p => jumps.setIfInBounds p.1 (p.2 : Int)) jumps

theorem size_spreadOver (jumps : Array Int) (matched : List (Nat × Nat)) :
    (spreadOver jumps matched).size = jumps.size := by
  induction matched generalizing jumps with
  | nil => rfl
  | cons p matched ih =>
      rw [spreadOver, List.foldl_cons]
      exact (ih _).trans Array.size_setIfInBounds

/-- A position gets what is looked up for it, and keeps its entry if there is nothing. -/
theorem getElem?_spreadOver (hsorted : matched.Pairwise fun p q => p.1 < q.1)
    (hk : k < jumps.size) :
    (spreadOver jumps matched)[k]? =
      (matched.lookup k).elim jumps[k]? fun o => some (o : Int) := by
  induction matched generalizing jumps with
  | nil => rfl
  | cons p matched ih =>
      obtain ⟨hfirst, hrest⟩ := List.pairwise_cons.mp hsorted
      rw [spreadOver, List.foldl_cons]
      refine (ih hrest (by rwa [Array.size_setIfInBounds])).trans ?_
      by_cases hp : k = p.1
      · -- the later pairs close later
        have hlater : matched.lookup k = none := by
          rw [List.lookup_eq_none_iff]
          intro q hq
          have hlt := hfirst q hq
          rw [bne_iff_ne]
          omega
        have hnow : (p :: matched).lookup k = some p.2 := by
          rw [List.lookup_cons, hp, beq_self_eq_true]
        rw [hlater, hnow, hp]
        exact Array.getElem?_setIfInBounds_self_of_lt (hp ▸ hk)
      · have hother : (p :: matched).lookup k = matched.lookup k := by
          rw [List.lookup_cons, beq_false_of_ne hp]
        rw [hother, Array.getElem?_setIfInBounds_ne (Ne.symm hp)]

end spread

/-- There is one number per character. -/
theorem size_spread (length : Nat) (matched : List (Nat × Nat)) :
    (spread length matched).size = length :=
  (size_spreadOver _ _).trans Array.size_replicate

/-- The column of jumps has at each position what the table has for it. -/
theorem getElem?_spread_pairs (text : List Char) {k : Nat} (hk : k < text.length) :
    (spread text.length (pairs text))[k]? =
      some (((pairs text).lookup k).elim noJump fun o => (o : Int)) := by
  obtain ⟨pending, hend⟩ := exists_scan_end text
  have hblank : (Array.replicate text.length noJump)[k]? = some noJump := by
    rw [Array.getElem?_replicate, if_pos hk]
  refine (getElem?_spreadOver hend.found_sorted (by simpa using hk)).trans ?_
  rw [hblank]
  cases (pairs text).lookup k <;> rfl

/-- An entry of the column is the number of a position, or it says that there is no jump. -/
theorem spread_pairs_bounds (text : List Char) {k : Nat} {e : Int}
    (h : (spread text.length (pairs text))[k]? = some e) : -1 ≤ e ∧ e < text.length := by
  have hk : k < text.length := by
    rw [← size_spread text.length (pairs text)]
    exact (Array.getElem?_eq_some_iff.mp h).1
  rw [getElem?_spread_pairs text hk] at h
  cases h
  rcases hlookup : (pairs text).lookup k with _ | o
  · simp only [Option.elim_none, noJump]
    omega
  · obtain ⟨pending, hend⟩ := exists_scan_end text
    have hlt := (hend.found_lt _ ((lookup_pairs_eq_some_iff text o k).mp hlookup)).2
    simp only [Option.elim_some]
    omega

end Bracket

/-- **The table and the column lead to the same position.** -/
theorem Program.targetAt?_eq (p : Program) (position : Int) :
    p.targetAt? position = (p.jumpAt? position).map fun (target : Nat) => (target : Int) := by
  unfold Compiled.targetAt? jumpAt?
  split_ifs with hpos
  · rw [p.jumps_eq, p.table_eq]
    by_cases hk : position.toNat < p.text.toList.length
    · rw [← Array.length_toList, Bracket.getElem?_spread_pairs _ hk]
      rcases (Bracket.pairs p.text.toList).lookup position.toNat with _ | o
      · rfl
      · have hne : (o : Int) ≠ Bracket.noJump := by
          unfold Bracket.noJump
          omega
        simp [hne]
    · have hnone : (Bracket.spread p.text.size (Bracket.pairs p.text.toList))[position.toNat]? =
          none := by
        rw [Array.getElem?_eq_none_iff, Bracket.size_spread]
        simpa using hk
      have hlookup : (Bracket.pairs p.text.toList).lookup position.toNat = none := by
        rw [Option.eq_none_iff_forall_ne_some]
        intro o ho
        obtain ⟨pending, hend⟩ := Bracket.exists_scan_end p.text.toList
        exact hk (hend.found_lt _ ((Bracket.lookup_pairs_eq_some_iff _ o _).mp ho)).1
      rw [hnone, hlookup]
      rfl
  · rfl

end TapeMachine
