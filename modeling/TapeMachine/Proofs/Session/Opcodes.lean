import TapeMachine.Proofs.Numeral.Rendering
import TapeMachine.Proofs.Session.Reachable

/-!
# A program on its own tape

A session can put its program on the tape: the opcodes of those characters that a table has, in the
order of the text. The tape that comes of it owes nothing to the one before. It is laid out as a new
tape with these values is (`Tape.LaidOut`), whose cells are numbered along the tape
(`Tape.laidOut_row`). A program without any character of the table leaves the tape alone.

A table whose opcodes differ can be read backwards. The opcodes on the tape then spell the program,
less the characters that the table lacks (`Datum.map_nameOf?_offered`). The standard table has the
seven commands and no comment (`Datum.standard_table`).
-/

namespace TapeMachine

/-! ### Tapes with values laid out -/

namespace Tape

/-- A tape on which the given values stand from left to right, in cells that are numbered in this
order, with the head on the first. It has slots for twice as many cells, and sixteen at least. -/
structure LaidOut (t : Tape) (values : List Cell) : Prop where
  size_eq : t.size = values.length
  capacity_eq : t.capacity = max 16 (2 * values.length)
  current_eq : t.current = 0
  leftmost_eq : t.leftmost = 0
  rightmost_eq : t.rightmost + 1 = values.length
  order_eq : t.order = List.range values.length
  toList_eq : t.toList = values
  leftOf_eq : ∀ i < values.length, t.leftOf i = if i = 0 then none else some (i - 1)
  rightOf_eq : ∀ i < values.length,
    t.rightOf i = if i + 1 < values.length then some (i + 1) else none
  spare : ∀ id, values.length ≤ id → t.slot id = {}

/-- The values of a row, from left to right. -/
theorem toList_row {values : List Cell} (hne : values ≠ []) : (row values).toList = values := by
  rw [toList, entries, List.map_map, (linked_row hne).order_eq]
  refine List.ext_getElem (by simp) fun i _ hi => ?_
  simp only [List.getElem_map, List.getElem_range, Function.comp_apply, entry, valueAt, slot_row,
    dif_pos hi, rowSlot]

/-- **A row is laid out as its values say.** -/
theorem laidOut_row {values : List Cell} (hne : values ≠ []) : (row values).LaidOut values where
  size_eq := rfl
  capacity_eq := capacity_row values
  current_eq := rfl
  leftmost_eq := rfl
  rightmost_eq := Nat.sub_add_cancel (List.length_pos_iff.mpr hne)
  order_eq := (linked_row hne).order_eq
  toList_eq := toList_row hne
  leftOf_eq := fun i hi => by rw [leftOf, slot_row, dif_pos hi, rowSlot]
  rightOf_eq := fun i hi => by rw [rightOf, slot_row, dif_pos hi, rowSlot]
  spare := fun id hid => by rw [slot_row, dif_neg (Nat.not_lt.mpr hid)]

end Tape

/-! ### Tables of opcodes -/

/-- The characters that are commands. -/
theorem Command.ofChar_ne_comment_iff (c : Char) :
    Command.ofChar c ≠ .comment ↔ c ∈ ['+', '-', '>', '<', '.', '[', ']'] := by
  unfold Command.ofChar
  split <;> simp_all

namespace Datum

variable {fields : List (String × Datum)} {text : List Char} {name : String} {d : Datum}

/-- Whether a table has a character. -/
def HasKey (fields : List (String × Datum)) (c : Char) : Prop :=
  String.singleton c ∈ fields.map Prod.fst

instance (fields : List (String × Datum)) (c : Char) : Decidable (HasKey fields c) :=
  inferInstanceAs (Decidable (_ ∈ _))

/-- What a table has for the characters of a text, those aside that it does not have. -/
def offered (fields : List (String × Datum)) (text : List Char) : List Datum :=
  text.filterMap fun c => fields.lookup (String.singleton c)

theorem isSome_lookup_iff {c : Char} :
    (fields.lookup (String.singleton c)).isSome = true ↔ HasKey fields c := by
  rw [List.lookup_isSome_iff, HasKey, List.mem_map]
  constructor
  · rintro ⟨field, hmem, hname⟩
    exact ⟨field, hmem, (eq_of_beq hname).symm⟩
  · rintro ⟨field, hmem, hname⟩
    exact ⟨field, hmem, beq_iff_eq.mpr hname.symm⟩

/-- Something is offered if the text has a character of the table. -/
theorem offered_ne_nil_iff : offered fields text ≠ [] ↔ ∃ c ∈ text, HasKey fields c := by
  simp only [offered, ne_eq, List.filterMap_eq_nil_iff, not_forall, ← isSome_lookup_iff,
    Option.isSome_iff_ne_none, exists_prop]

/-- The opcodes of a text are the cell values of what the table offers for it. -/
theorem opcodes_record (fields : List (String × Datum)) (text : List Char) :
    opcodes (.record fields) text = .ok ((offered fields text).map toCell) := by
  have hfound : text.mapM (opcode? (.record fields)) =
      .ok (text.map fun c => (fields.lookup (String.singleton c)).map toCell) :=
    List.mapM_pure
  rw [opcodes, hfound, offered, List.map_filterMap]
  simp only [Except.map, List.filterMap_map, Function.comp_def, id]

/-- The name under which a table has a cell value. -/
def nameOf? (table : Datum) (v : Cell) : Option String :=
  match table with
  | .record fields => (fields.find? fun field => field.2.toCell == v).map Prod.fst
  | _ => none

/-- If no two opcodes of a table are the same, an opcode tells its name. -/
theorem nameOf?_of_lookup (hdistinct : fields.Pairwise fun a b => a.2.toCell ≠ b.2.toCell)
    (h : fields.lookup name = some d) : nameOf? (.record fields) d.toCell = some name := by
  induction fields with
  | nil => cases h
  | cons field fields ih =>
      obtain ⟨hfirst, hrest⟩ := List.pairwise_cons.mp hdistinct
      rw [List.lookup_cons] at h
      cases hname : name == field.1 with
      | true =>
          rw [hname] at h
          cases h
          simp only [nameOf?, List.find?_cons, beq_self_eq_true, Option.map_some, eq_of_beq hname]
      | false =>
          rw [hname] at h
          -- what is found further on has another opcode than the first field
          obtain ⟨before, after, hfields, -⟩ := List.lookup_eq_some_iff.mp h
          have hother : (field.2.toCell == d.toCell) = false :=
            beq_eq_false_iff_ne.mpr (hfirst (name, d) (by simp [hfields]))
          simp only [nameOf?, List.find?_cons, hother]
          exact ih hrest h

/-- **Read backwards, the opcodes of a text spell it**, less the characters that the table lacks. -/
theorem map_nameOf?_offered (hdistinct : fields.Pairwise fun a b => a.2.toCell ≠ b.2.toCell)
    (text : List Char) :
    ((offered fields text).map toCell).map (nameOf? (.record fields)) =
      (text.filter (HasKey fields ·)).map fun c => some (String.singleton c) := by
  induction text with
  | nil => rfl
  | cons c text ih =>
      rcases hc : fields.lookup (String.singleton c) with _ | d
      · have hoffered : offered fields (c :: text) = offered fields text := by
          simp only [offered, List.filterMap_cons, hc]
        rw [List.filter_cons_of_neg (by simp [← isSome_lookup_iff, hc]), ← ih, hoffered]
      · have hoffered : offered fields (c :: text) = d :: offered fields text := by
          simp only [offered, List.filterMap_cons, hc]
        rw [List.filter_cons_of_pos (by simp [← isSome_lookup_iff, hc]), List.map_cons, ← ih,
          hoffered, List.map_cons, List.map_cons, nameOf?_of_lookup hdistinct hc]

/-- The standard table has different opcodes for the characters that are commands, and none for
comments. -/
theorem standard_table : ∃ fields, standardOpcodes = .record fields ∧
    (fields.Pairwise fun a b => a.2.toCell ≠ b.2.toCell) ∧
    ∀ c, HasKey fields c ↔ Command.ofChar c ≠ .comment := by
  refine ⟨_, rfl, by decide, fun c => ?_⟩
  rw [Command.ofChar_ne_comment_iff]
  -- the names of the fields are these characters, each a text of its own
  constructor
  · intro hkey
    obtain ⟨k, hk, hname⟩ := List.mem_map.mp
      (show String.singleton c ∈ ['+', '-', '>', '<', '.', '[', ']'].map String.singleton from hkey)
    exact String.singleton_inj.mp hname ▸ hk
  · intro hmem
    exact List.mem_map_of_mem (f := String.singleton) hmem

end Datum

/-! ### Sessions -/

namespace Supervisor

open Datum

/-- The program of a session as characters. -/
def programChars (s : Supervisor) : List Char :=
  s.machine.program.text.toList

/-- Loading opcodes refills the tape and does nothing else. -/
theorem performAtFuel_loadOpcodes (s : Supervisor) (fuel : Nat) (fields : List (String × Datum)) :
    s.performAtFuel fuel (.loadOpcodes (.record fields)) = some (.ok .done,
      s.withMachine { s.machine with
        tape := s.machine.tape.refill ((offered fields s.programChars).map toCell) }) := by
  simp only [performAtFuel, Machine.perform_loadOpcodes, opcodes_record, Except.map, programChars]

/-- Refilling the tape from the opcodes as numbers is the same: a cell value offers itself. -/
theorem performAtFuel_refill_opcodes (s : Supervisor) (fuel : Nat) (items : List Datum) :
    s.performAtFuel fuel (.tape (.refill (.list (items.map fun d => .int d.toCell.toInt)))) =
      some (.ok .done,
        s.withMachine { s.machine with tape := s.machine.tape.refill (items.map toCell) }) := by
  have hcells : (items.map fun d => Datum.int d.toCell.toInt).map toCell = items.map toCell := by
    simp only [List.map_map, Function.comp_def, toCell_int_toInt]
  simp only [performAtFuel, Tape.perform_refill, toCells, members, Except.map, hcells]

/-- If the text has some character of the table, refilling the tape by its opcodes makes a new tape
with the values that the table offers. -/
theorem refill_offered {fields : List (String × Datum)} {text : List Char} (t : Tape)
    (h : ∃ c ∈ text, HasKey fields c) :
    Tape.ofDatum (.list (offered fields text)) =
        .ok (t.refill ((offered fields text).map toCell)) ∧
      (t.refill ((offered fields text).map toCell)).LaidOut ((offered fields text).map toCell) := by
  have hne : (offered fields text).map toCell ≠ [] := by
    rw [ne_eq, List.map_eq_nil_iff]
    exact offered_ne_nil_iff.mpr h
  have hempty : ¬ ((offered fields text).map toCell).isEmpty = true := by
    rwa [List.isEmpty_iff]
  rw [Tape.refill, if_neg hempty]
  exact ⟨congrArg Except.ok (if_neg hempty), Tape.laidOut_row hne⟩

/-- **A program is put on the tape character by character.** Whatever the tape was before, a table
that has some character of the program makes it the new tape with the values that the table has for
these characters, in the order of the text; the cell values go through a second reading unchanged. A
table that has none leaves the tape as it is. Nothing else changes in the session. By the standard
table, the tape spells the program without its comments. -/
theorem loadOpcodes_lays_out_program (s : Supervisor) (fuel : Nat) :
    (∀ fields : List (String × Datum), ∃ t,
      s.performAtFuel fuel (.loadOpcodes (.record fields)) =
        some (.ok .done, s.withMachine { s.machine with tape := t }) ∧
      s.performAtFuel fuel (.tape (.refill
          (.list ((offered fields s.programChars).map fun d => .int d.toCell.toInt)))) =
        some (.ok .done, s.withMachine { s.machine with tape := t }) ∧
      ((∃ c ∈ s.programChars, HasKey fields c) →
        Tape.ofDatum (.list (offered fields s.programChars)) = .ok t ∧
        t.LaidOut ((offered fields s.programChars).map toCell)) ∧
      ((∀ c ∈ s.programChars, ¬ HasKey fields c) → t = s.machine.tape)) ∧
    ((∃ c ∈ s.programChars, Command.ofChar c ≠ .comment) → ∃ t,
      s.performAtFuel fuel (.loadOpcodes standardOpcodes) =
        some (.ok .done, s.withMachine { s.machine with tape := t }) ∧
      t.toList.map standardOpcodes.nameOf? =
        (s.programChars.filter (Command.ofChar · ≠ .comment)).map
          fun c => some (String.singleton c)) := by
  constructor
  · intro fields
    refine ⟨_, s.performAtFuel_loadOpcodes fuel fields, s.performAtFuel_refill_opcodes fuel _,
      refill_offered s.machine.tape, ?_⟩
    intro hnone
    have hempty : offered fields s.programChars = [] := by
      by_contra hne
      obtain ⟨c, hc, hkey⟩ := offered_ne_nil_iff.mp hne
      exact hnone c hc hkey
    rw [hempty]
    rfl
  · obtain ⟨fields, htable, hdistinct, hkeys⟩ := standard_table
    rintro ⟨c, hc, hcommand⟩
    have hlaid := (refill_offered s.machine.tape ⟨c, hc, (hkeys c).mpr hcommand⟩).2
    refine ⟨_, htable ▸ s.performAtFuel_loadOpcodes fuel fields, ?_⟩
    rw [hlaid.toList_eq, htable, map_nameOf?_offered hdistinct]
    simp only [hkeys]

/-- A program with a character that the table lacks, on a tape that has been used. The opcodes are a
text with blanks around the number and a number beyond the range of cells. A table without any
character of the program, and the standard one. -/
theorem loadOpcodes_lays_out_program_on_used_tape :
    ∃ s : Supervisor, s.Reachable ∧ s.machine.tape.size = 2 ∧ s.machine.tape.current = 1 ∧
      (∃ t, s.performAtFuel 0 (.loadOpcodes
          (.record [("+", .text " 7 "), (">", .int 4294967301)])) =
          some (.ok .done, s.withMachine { s.machine with tape := t }) ∧
        t.LaidOut [5, 7, 7]) ∧
      s.performAtFuel 0 (.loadOpcodes (.record [("++", .int 1)])) =
        some (.ok .done, s.withMachine { s.machine with tape := s.machine.tape }) ∧
      ∃ t, s.performAtFuel 0 (.loadOpcodes standardOpcodes) =
          some (.ok .done, s.withMachine { s.machine with tape := t }) ∧
        t.toList.map standardOpcodes.nameOf? = [some ">", some "+", some "+"] := by
  let fresh : Supervisor := { machine := Machine.load ">b++" }
  have hfresh : Supervisor.ofDatum (.text ">b++") none = .ok fresh := rfl
  have hused : fresh.step.Reachable := .request (.start hfresh)
    (show fresh.performAtFuel 0 .watchedStep = some (.ok _, fresh.step) from rfl)
  obtain ⟨hrecord, hstandard⟩ := loadOpcodes_lays_out_program fresh.step 0
  refine ⟨fresh.step, hused, by decide +kernel, by decide +kernel, ?_, ?_, ?_⟩
  · obtain ⟨t, hload, -, hsome, -⟩ := hrecord [("+", .text " 7 "), (">", .int 4294967301)]
    have hlaid := (hsome ⟨'+', by decide +kernel, by decide +kernel⟩).2
    have hvalues : (offered [("+", .text " 7 "), (">", .int 4294967301)]
        fresh.step.programChars).map toCell = [5, 7, 7] := by decide +kernel
    rw [hvalues] at hlaid
    exact ⟨t, hload, hlaid⟩
  · obtain ⟨t, hload, -, -, hnone⟩ := hrecord [("++", .int 1)]
    have hlacks : (fresh.step.programChars.all (¬ HasKey [("++", .int 1)] ·)) = true := by
      decide +kernel
    rwa [hnone fun c hc => of_decide_eq_true (List.all_eq_true.mp hlacks c hc)] at hload
  · obtain ⟨t, hload, hspells⟩ := hstandard ⟨'+', by decide +kernel, by decide⟩
    exact ⟨t, hload, hspells.trans (by decide +kernel)⟩

end Supervisor

end TapeMachine
