import TapeMachine.Proofs.Tape.WellFormed
import TapeMachine.Proofs.Token.Reading

/-!
# The line of a tape

A snapshot is shown as one line: its values as decimals with a blank between them, the one under the
head in square brackets. `Tape.readLine?` reads such a line word by word and gives the snapshot back
(`Tape.readLine?_renderSnapshot`), because a decimal has neither blanks nor brackets in it. No
character of a line ends it (`Tape.printable_of_mem_renderSnapshot`).

The text of a whole tape holds the line of its snapshot (`Tape.render_eq`).
-/

namespace TapeMachine

/-- A character other than a digit and the minus sign is in no decimal. -/
theorem Numeral.not_mem_ofInt {c : Char} (hminus : c ≠ '-') (hdigit : c.isDigit = false) (n : Int) :
    c ∉ (ofInt n).toList := by
  intro hmem
  rw [isDigit_of_mem_ofInt hmem hminus] at hdigit
  cases hdigit

namespace Tape

/-! ### The reader -/

/-- A word stands in square brackets. -/
def Bracketed (word : List Char) : Prop :=
  word.head? = some '[' ∧ word.getLast? = some ']'

instance (word : List Char) : Decidable (Bracketed word) :=
  inferInstanceAs (Decidable (_ ∧ _))

/-- Reads a word of a line: an integer, in square brackets if the head is there. -/
def readCell? (word : List Char) : Option (Int × Bool) :=
  if Bracketed word then
    (Numeral.toInt? .universal word.tail.dropLast).map (·, true)
  else
    (Numeral.toInt? .universal word).map (·, false)

/-- Reads a line, whose words have a blank between them. -/
def readLine? (line : List Char) : Option (List (Int × Bool)) :=
  (line.splitOn ' ').mapM readCell?

/-- A line shows a snapshot: it is read as the snapshot, and it has one word in brackets. -/
structure Shows (line : List Char) (cells : List (Cell × Bool)) : Prop where
  reads : readLine? line = some (cells.map fun cell => (cell.1.toInt, cell.2))
  one_bracketed : (line.splitOn ' ').countP (Bracketed ·) = 1

/-! ### Words -/

/-- A word of a line, as characters. -/
theorem toList_renderCell (cell : Cell × Bool) : (renderCell cell).toList =
    if cell.2 then '[' :: ((Numeral.ofInt cell.1.toInt).toList ++ [']'])
    else (Numeral.ofInt cell.1.toInt).toList := by
  unfold renderCell
  split_ifs
  · rw [String.toList_append, String.toList_append]
    rfl
  · rfl

/-- The word of a cell is in brackets if the head is there. -/
theorem bracketed_renderCell (cell : Cell × Bool) :
    Bracketed (renderCell cell).toList ↔ cell.2 = true := by
  rw [toList_renderCell]
  split_ifs with hmarked
  · have hlast : ('[' :: ((Numeral.ofInt cell.1.toInt).toList ++ [']'])).getLast? = some ']' := by
      rw [← List.cons_append, List.getLast?_concat]
    exact iff_of_true ⟨rfl, hlast⟩ hmarked
  · refine iff_of_false ?_ hmarked
    rintro ⟨hhead, -⟩
    exact Numeral.not_mem_ofInt (by decide) (by decide) _ (List.mem_of_head? hhead)

/-- A word is read as the cell that it shows. -/
theorem readCell?_renderCell (cell : Cell × Bool) :
    readCell? (renderCell cell).toList = some (cell.1.toInt, cell.2) := by
  have hread : Numeral.toInt? .universal (Numeral.ofInt cell.1.toInt).toList = some cell.1.toInt :=
    Numeral.toInt?_of_renders_alone (Cell.renders_toInt cell.1) Numeral.clear_universal
  have hbracketed := bracketed_renderCell cell
  by_cases hmarked : cell.2 = true
  · rw [readCell?, if_pos (hbracketed.mpr hmarked), toList_renderCell, if_pos hmarked,
      List.tail_cons, List.dropLast_concat, hread, hmarked]
    rfl
  · rw [readCell?, if_neg (mt hbracketed.mp hmarked), toList_renderCell, if_neg hmarked, hread,
      Bool.eq_false_of_not_eq_true hmarked]
    rfl

/-- A character of a word stands in its decimal, or is a bracket. -/
theorem mem_renderCell {c : Char} {cell : Cell × Bool} (h : c ∈ (renderCell cell).toList) :
    c ∈ (Numeral.ofInt cell.1.toInt).toList ∨ c = '[' ∨ c = ']' := by
  rw [toList_renderCell] at h
  split_ifs at h
  · rw [List.mem_cons, List.mem_append, List.mem_singleton] at h
    rcases h with h | h | h
    · exact .inr (.inl h)
    · exact .inl h
    · exact .inr (.inr h)
  · exact .inl h

/-- A word has no blank in it. -/
theorem blank_not_mem_renderCell (cell : Cell × Bool) : ' ' ∉ (renderCell cell).toList := by
  intro hmem
  rcases mem_renderCell hmem with hmem | hbracket | hbracket
  · exact Numeral.not_mem_ofInt (by decide) (by decide) _ hmem
  · exact absurd hbracket (by decide)
  · exact absurd hbracket (by decide)

/-! ### Lines -/

/-- A line, as characters. -/
theorem toList_renderSnapshot (cells : List (Cell × Bool)) : (renderSnapshot cells).toList =
    [' '].intercalate (cells.map fun cell => (renderCell cell).toList) := by
  rw [renderSnapshot, String.toList_intercalate, List.map_map]
  rfl

/-- The words of a line. -/
theorem splitOn_renderSnapshot {cells : List (Cell × Bool)} (hne : cells ≠ []) :
    (renderSnapshot cells).toList.splitOn ' ' = cells.map fun cell => (renderCell cell).toList := by
  rw [toList_renderSnapshot]
  refine List.splitOn_intercalate ' ' ?_ (by simpa using hne)
  intro word hword
  obtain ⟨cell, -, rfl⟩ := List.mem_map.mp hword
  exact blank_not_mem_renderCell cell

/-- **A line is read as the snapshot that it shows.** -/
theorem readLine?_renderSnapshot {cells : List (Cell × Bool)} (hne : cells ≠ []) :
    readLine? (renderSnapshot cells).toList =
      some (cells.map fun cell => (cell.1.toInt, cell.2)) := by
  have hwords : (fun cell : Cell × Bool => readCell? (renderCell cell).toList) =
      fun cell => pure (cell.1.toInt, cell.2) := funext readCell?_renderCell
  rw [readLine?, splitOn_renderSnapshot hne, List.mapM_map, Function.comp_def, hwords,
    List.mapM_pure]
  rfl

/-- As many words of a line are in brackets as cells are marked. -/
theorem countP_words {cells : List (Cell × Bool)} (hne : cells ≠ []) :
    ((renderSnapshot cells).toList.splitOn ' ').countP (Bracketed ·) = cells.countP (·.2) := by
  rw [splitOn_renderSnapshot hne, List.countP_map]
  refine List.countP_congr fun cell _ => ?_
  rw [Function.comp_apply, decide_eq_true_iff, bracketed_renderCell]

/-- A character of joined words stands in one of them, or separates them. -/
theorem exists_of_mem_intercalate {separator : List Char} {words : List (List Char)} {c : Char}
    (h : c ∈ separator.intercalate words) : c ∈ separator ∨ ∃ word ∈ words, c ∈ word := by
  induction words with
  | nil => cases h
  | cons word words ih =>
      cases words with
      | nil =>
          rw [List.intercalate_singleton] at h
          exact .inr ⟨word, List.mem_cons_self, h⟩
      | cons next rest =>
          rw [List.intercalate_cons_cons, List.mem_append, List.mem_append] at h
          rcases h with (h | h) | h
          · exact .inr ⟨word, List.mem_cons_self, h⟩
          · exact .inl h
          · obtain hseparator | ⟨other, hother, hmem⟩ := ih h
            · exact .inl hseparator
            · exact .inr ⟨other, List.mem_cons_of_mem _ hother, hmem⟩

/-- All characters of a line are printable, so none of them ends it. -/
theorem printable_of_mem_renderSnapshot {cells : List (Cell × Bool)} {c : Char}
    (h : c ∈ (renderSnapshot cells).toList) : Token.Printable c := by
  rw [toList_renderSnapshot] at h
  rcases exists_of_mem_intercalate h with hblank | ⟨word, hword, hmem⟩
  · rw [List.mem_singleton.mp hblank]
    decide
  · obtain ⟨cell, -, rfl⟩ := List.mem_map.mp hword
    rcases mem_renderCell hmem with hmem | rfl | rfl
    · exact Token.printable_of_mem_number hmem
    · decide
    · decide

/-! ### Whole tapes -/

/-- **The line of a tape shows its snapshot.** -/
theorem Linked.shows {t : Tape} {ids : List Nat} (h : t.Linked ids) :
    Shows (renderSnapshot t.snapshot).toList t.snapshot := by
  have hone : t.snapshot.countP (·.2) = 1 := h.wellFormed.one_current
  have hne : t.snapshot ≠ [] := by
    intro hnil
    rw [hnil] at hone
    cases hone
  exact ⟨readLine?_renderSnapshot hne, (countP_words hne).trans hone⟩

/-- The text of a tape holds the line of its snapshot. -/
theorem render_eq (t : Tape) : t.render = "Tape(" ++ renderSnapshot t.snapshot ++ ")" := by
  rw [render, renderSnapshot, snapshot, List.map_map]
  rfl

end Tape

end TapeMachine
