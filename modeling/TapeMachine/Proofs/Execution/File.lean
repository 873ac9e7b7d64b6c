import Mathlib.Tactic.SplitIfs
import TapeMachine.Execution
import TapeMachine.Proofs.Encoding.RoundTrip
import TapeMachine.Proofs.Session.Action

/-!
# Executing a file is executing its text

What comes of a program file depends on the text in it alone: neither the encoding nor the kind of
line ends matters (`Execution.runFileAtFuel_of_text`). A file in UTF-8 cannot be decoded exactly if
it holds the bytes of no text.

`Text.Spells` says what a text stands for once its line ends are unified, apart from the function
that unifies them. `Execution.Stores` is a file with a text in it.
-/

namespace TapeMachine

/-! ### Line ends -/

namespace Text

/-- What a text stands for: every carriage return with a line feed after it, and every other
carriage return, stands for one line feed, and every other character for itself. -/
inductive Spells : List Char → List Char → Prop where
  | nil : Spells [] []
  | plain {c : Char} {written text : List Char} :
      c ≠ '\r' → Spells written text → Spells (c :: written) (c :: text)
  | pair {written text : List Char} :
      Spells written text → Spells ('\r' :: '\n' :: written) ('\n' :: text)
  | lone {written text : List Char} : written.head? ≠ some '\n' →
      Spells written text → Spells ('\r' :: written) ('\n' :: text)

theorem spells_unifyNewlines (written : List Char) : Spells written (unifyNewlines written) := by
  fun_induction unifyNewlines written with
  | case1 => exact .nil
  | case2 rest ih => exact .pair ih
  | case3 c rest hpair ih =>
      split_ifs with hc
      · subst hc
        refine .lone ?_ ih
        intro hhead
        obtain ⟨more, rfl⟩ := List.head?_eq_some_iff.mp hhead
        exact hpair more rfl rfl
      · exact .plain hc ih

/-- **Unifying the line ends of a text gives what it stands for**, and it stands for nothing
else. -/
theorem spells_iff {written text : List Char} :
    Spells written text ↔ unifyNewlines written = text := by
  refine ⟨?_, ?_⟩
  · intro h
    induction h with
    | nil => rfl
    | @plain c written text hc _ ih =>
        rw [unifyNewlines, if_neg hc, ih]
        rintro _ rfl
        exact absurd rfl hc
    | pair _ ih => rw [unifyNewlines, ih]
    | @lone written text hhead _ ih =>
        rw [unifyNewlines, if_pos rfl, ih]
        rintro rest - rfl
        exact hhead rfl
  · rintro rfl
    exact spells_unifyNewlines written

/-- The kinds of line ends. -/
inductive LineEnd where
  | lf
  | cr
  | crlf
deriving DecidableEq, Repr, Inhabited

namespace LineEnd

/-- The characters at the end of a line. -/
def chars : LineEnd → List Char
  | lf => ['\n']
  | cr => ['\r']
  | crlf => ['\r', '\n']

/-- A text with line ends of one kind in the place of line feeds. -/
def write (e : LineEnd) (text : List Char) : List Char :=
  text.flatMap fun c => if c = '\n' then e.chars else [c]

theorem write_cons (e : LineEnd) (c : Char) (text : List Char) :
    e.write (c :: text) = (if c = '\n' then e.chars else [c]) ++ e.write text :=
  List.flatMap_cons ..

theorem head?_write_cr (text : List Char) : (cr.write text).head? ≠ some '\n' := by
  cases text with
  | nil => simp [write]
  | cons c text =>
      rw [write_cons]
      split_ifs with hc
      · simp [chars]
      · simpa using hc

end LineEnd

/-- A text with line ends of one kind stands for the same text with line feeds. -/
theorem spells_write (e : LineEnd) {text : List Char} (h : '\r' ∉ text) :
    Spells (e.write text) text := by
  induction text with
  | nil => exact .nil
  | cons c text ih =>
      rw [List.mem_cons, not_or] at h
      obtain ⟨hc, htext⟩ := h
      rw [LineEnd.write_cons]
      split_ifs with hlf
      · subst hlf
        cases e with
        | lf => exact .plain (by decide) (ih htext)
        | cr => exact .lone (LineEnd.head?_write_cr text) (ih htext)
        | crlf => exact .pair (ih htext)
      · exact .plain (Ne.symm hc) (ih htext)

end Text

/-! ### Files with text in them -/

namespace ProgramFile

/-- A file that can be opened is read in the encoding that is named, and if it is not text, that is
a load error. -/
theorem read_of_ofName? {files : FileTree} {path encodingName : String} {encoding : Encoding}
    {bytes : List UInt8} (hname : Encoding.ofName? encodingName = some encoding)
    (hnul : Char.ofNat 0 ∉ path.toList)
    (hopened : files.read (FilePath.ofString path) = .ok bytes) :
    read files path encodingName = (decode encoding bytes).mapError fun flaw =>
      .load (cannotDecode (FilePath.ofString path) flaw) := by
  have hcontains : path.toList.contains (Char.ofNat 0) = false := by simpa using hnul
  simp only [read, hcontains, Bool.false_eq_true, if_false, ofOpened, hopened, hname]
  cases decode encoding bytes <;> rfl

/-- The file with a path is there and holds the bytes. -/
structure Holds (files : FileTree) (path : String) (bytes : List UInt8) : Prop where
  no_nul : Char.ofNat 0 ∉ path.toList
  read_eq : files.read (FilePath.ofString path) = .ok bytes

/-- The file with a path is there and holds the text in the encoding with a name. -/
def Stores (files : FileTree) (path encodingName : String) (text : List Char) : Prop :=
  ∃ encoding bytes, Encoding.ofName? encodingName = some encoding ∧
    encoding.encode? text = some bytes ∧ Holds files path bytes

/-- What is read from a file is what the text in it stands for. -/
theorem Stores.read_eq {files : FileTree} {path encodingName : String} {written text : List Char}
    (h : Stores files path encodingName written) (htext : Text.Spells written text) :
    read files path encodingName = .ok (String.ofList text) := by
  obtain ⟨encoding, bytes, hname, hbytes, hholds⟩ := h
  rw [read_of_ofName? hname hholds.no_nul hholds.read_eq, decode,
    Encoding.decode_of_encode? hbytes, ← Text.spells_iff.mp htext]
  rfl

/-- A file that holds the bytes of no text cannot be decoded as UTF-8, and any other can. -/
theorem Holds.read_utf8_cases {files : FileTree} {path encodingName : String} {bytes : List UInt8}
    (h : Holds files path bytes) (hname : Encoding.ofName? encodingName = some .utf8) :
    ((∀ text, Encoding.utf8.encode? text ≠ some bytes) ∧ ∃ flaw, read files path encodingName =
      .error (.load (cannotDecode (FilePath.ofString path) flaw))) ∨
    ((∃ text, Encoding.utf8.encode? text = some bytes) ∧
      ∃ text, read files path encodingName = .ok text) := by
  rw [read_of_ofName? hname h.no_nul h.read_eq, decode]
  rcases hdecode : Encoding.utf8.decode bytes with flaw | text
  · refine .inl ⟨?_, flaw, rfl⟩
    intro text htext
    rw [Encoding.decode_of_encode? htext] at hdecode
    cases hdecode
  · have hbytes := Encoding.Utf8.decode_eq_ok_iff.mp hdecode
    exact .inr ⟨⟨text, congrArg some hbytes.symm⟩, _, rfl⟩

end ProgramFile

/-! ### Faults of an execution -/

namespace Datum

theorem eq_unsuitable_of_opcode? {table : Datum} {c : Char} {fault : Fault}
    (h : table.opcode? c = .error fault) : fault = .unsuitable := by
  unfold opcode? at h
  split at h
  · cases h
  · split_ifs at h
    cases h
    rfl
  · split_ifs at h
    cases h
    rfl
  all_goals
    cases h
    rfl

theorem eq_unsuitable_of_mapM_opcode? {table : Datum} {text : List Char} {fault : Fault}
    (h : text.mapM table.opcode? = .error fault) : fault = .unsuitable := by
  induction text with
  | nil => cases h
  | cons c text ih =>
      rw [List.mapM_cons] at h
      rcases hc : table.opcode? c with fault' | found
      · rw [hc] at h
        cases h
        exact eq_unsuitable_of_opcode? hc
      · rcases hrest : text.mapM table.opcode? with fault' | rest
        · rw [hc, hrest] at h
          cases h
          exact ih hrest
        · rw [hc, hrest] at h
          cases h

theorem delayFault?_ne_load {d : Datum} {e : LoadError} : d.delayFault? ≠ some (.load e) := by
  unfold delayFault?
  split
  · simp
  · split_ifs <;> simp
  · split_ifs
    · split
      · dsimp only
        split_ifs <;> simp
      all_goals simp
    · simp
  all_goals simp

end Datum

namespace Execution

section faults

variable {fuel : Nat} {text : String} {options : Options} {e : LoadError}

/-- A program that has an opcode table starts on the tape that the table makes of it. -/
theorem prepare_of_opcodes {table : Datum} (h : options.opcodes = some table) :
    prepare text options = (table.opcodes (Machine.load text).program.text.toList).map fun cells =>
      { Machine.load text with tape := (Machine.load text).tape.refill cells } := by
  simp only [prepare, h, Machine.perform_loadOpcodes]
  rcases table.opcodes (Machine.load text).program.text.toList with fault | cells <;> rfl

theorem prepare_ne_load : prepare text options ≠ .error (.load e) := by
  intro h
  rcases hopcodes : options.opcodes with _ | table
  · rw [prepare, hopcodes] at h
    cases h
  · rw [prepare_of_opcodes hopcodes, Datum.opcodes] at h
    rcases hfound : (Machine.load text).program.text.toList.mapM table.opcode? with fault | found
    · rw [hfound] at h
      cases h
      cases Datum.eq_unsuitable_of_mapM_opcode? hfound
    · rw [hfound] at h
      cases h

theorem driveAtFuel_ne_load {s t : Supervisor} :
    driveAtFuel fuel options s ≠ some (.error (.load e), t) := by
  intro h
  unfold driveAtFuel at h
  split_ifs at h
  · obtain ⟨r, -, hr⟩ := Option.map_eq_some_iff.mp h
    cases hr
  · unfold Supervisor.runPacedAtFuel at h
    split at h
    · rename_i fault hdelay
      split_ifs at h
      · cases h
        exact Datum.delayFault?_ne_load hdelay
      · obtain ⟨r, -, hr⟩ := Option.map_eq_some_iff.mp h
        cases hr
    · obtain ⟨r, -, hr⟩ := Option.map_eq_some_iff.mp h
      cases hr

/-- The faults of executing a text are not those of loading it. -/
theorem runAtFuel_ne_load : runAtFuel fuel text options ≠ some (.error (.load e)) := by
  intro h
  unfold runAtFuel at h
  split at h
  · rename_i fault hprepare
    cases h
    exact prepare_ne_load hprepare
  · obtain ⟨⟨outcome, s⟩, hdrive, hout⟩ := Option.map_eq_some_iff.mp h
    cases outcome with
    | ok steps => cases hout
    | error fault =>
        cases hout
        exact driveAtFuel_ne_load hdrive

end faults

/-! ### The execution of a file -/

section files

variable {files files' : FileTree} {path path' encodingName encodingName' : String}
  {written written' text : List Char}

theorem runFileAtFuel_of_stores (h : ProgramFile.Stores files path encodingName written)
    (htext : Text.Spells written text) (fuel : Nat) (options : Options) :
    runFileAtFuel fuel files path encodingName options =
      runAtFuel fuel (String.ofList text) options := by
  rw [runFileAtFuel, h.read_eq htext]

theorem runFileAtFuel_congr (h : ProgramFile.Stores files path encodingName written)
    (h' : ProgramFile.Stores files' path' encodingName' written')
    (htext : Text.Spells written text) (htext' : Text.Spells written' text) (fuel : Nat)
    (options : Options) :
    runFileAtFuel fuel files path encodingName options =
      runFileAtFuel fuel files' path' encodingName' options := by
  rw [runFileAtFuel_of_stores h htext, runFileAtFuel_of_stores h' htext']

theorem cannot_decode_iff {bytes : List UInt8} (h : ProgramFile.Holds files path bytes)
    (hname : Encoding.ofName? encodingName = some .utf8) (fuel : Nat) (options : Options) :
    (∃ e reason, runFileAtFuel fuel files path encodingName options = some (.error (.load e)) ∧
      e.message = "cannot decode program: " ++ reason) ↔
      ∀ text, Encoding.utf8.encode? text ≠ some bytes := by
  obtain ⟨hnone, flaw, hread⟩ | ⟨⟨text, htext⟩, read, hread⟩ := h.read_utf8_cases hname
  · refine iff_of_true ⟨ProgramFile.cannotDecode (FilePath.ofString path) flaw, flaw.reason, ?_,
      rfl⟩ hnone
    rw [runFileAtFuel, hread]
  · refine iff_of_false ?_ fun hnone => hnone text htext
    rintro ⟨e, _, hrun, -⟩
    rw [runFileAtFuel, hread] at hrun
    exact runAtFuel_ne_load hrun

end files

/-- **The execution of a file depends on the text in it alone.** Whatever the options:

* a file that holds a text in some encoding, executed with that encoding named, does what the text
  does that it stands for, in which all line ends are line feeds;
* so two files do the same if their texts stand for the same, in whatever encodings they are,
* and in particular if they hold one text with two kinds of line ends;
* a file that is to be UTF-8 is reported as one that cannot be decoded exactly if it holds the bytes
  of no text.
-/
theorem runFileAtFuel_of_text :
    (∀ (files : FileTree) (path encodingName : String) (written : List Char),
      ProgramFile.Stores files path encodingName written →
      ∃ text, Text.Spells written text ∧ ∀ fuel options,
        runFileAtFuel fuel files path encodingName options =
          runAtFuel fuel (String.ofList text) options) ∧
    (∀ (files files' : FileTree) (path path' encodingName encodingName' : String)
      (written written' text : List Char),
      ProgramFile.Stores files path encodingName written →
      ProgramFile.Stores files' path' encodingName' written' →
      Text.Spells written text → Text.Spells written' text → ∀ fuel options,
        runFileAtFuel fuel files path encodingName options =
          runFileAtFuel fuel files' path' encodingName' options) ∧
    (∀ (files files' : FileTree) (path path' encodingName encodingName' : String)
      (text : List Char) (e e' : Text.LineEnd), '\r' ∉ text →
      ProgramFile.Stores files path encodingName (e.write text) →
      ProgramFile.Stores files' path' encodingName' (e'.write text) → ∀ fuel options,
        runFileAtFuel fuel files path encodingName options =
          runFileAtFuel fuel files' path' encodingName' options) ∧
    (∀ (files : FileTree) (path encodingName : String) (bytes : List UInt8),
      Encoding.ofName? encodingName = some .utf8 → ProgramFile.Holds files path bytes →
      ∀ fuel options,
        (∃ e reason, runFileAtFuel fuel files path encodingName options =
          some (.error (.load e)) ∧ e.message = "cannot decode program: " ++ reason) ↔
        ∀ text, Encoding.utf8.encode? text ≠ some bytes) := by
  refine ⟨?_, ?_, ?_, ?_⟩
  · intro files path encodingName written h
    have hspells := Text.spells_unifyNewlines written
    exact ⟨_, hspells, runFileAtFuel_of_stores h hspells⟩
  · intro files files' path path' encodingName encodingName' written written' text h h' htext htext'
    exact runFileAtFuel_congr h h' htext htext'
  · intro files files' path path' encodingName encodingName' text e e' hreturn h h'
    exact runFileAtFuel_congr h h' (Text.spells_write e hreturn) (Text.spells_write e' hreturn)
  · intro files path encodingName bytes hname h
    exact cannot_decode_iff h hname

/-- A text with a character of two surrogates, marked UTF-8 with one kind of line ends and UTF-16
with another; and the bytes of a surrogate, which are no UTF-8. -/
theorem runFileAtFuel_of_text_with_pair :
    (∀ fuel options,
      runFileAtFuel fuel
          { files := [(["a"], [0xEF, 0xBB, 0xBF, 0x2B, 0x0D, 0x0A, 0xF0, 0x9F, 0x98, 0x80])] }
          "a" "utf-8-sig" options =
        runAtFuel fuel "+\n😀" options) ∧
    (∀ fuel options,
      runFileAtFuel fuel
          { files := [(["a"], [0xEF, 0xBB, 0xBF, 0x2B, 0x0D, 0x0A, 0xF0, 0x9F, 0x98, 0x80])] }
          "a" "utf-8-sig" options =
        runFileAtFuel fuel
          { files := [(["b"], [0x2B, 0x00, 0x0D, 0x00, 0x3D, 0xD8, 0x00, 0xDE])] }
          "./b" "UTF-16-LE" options) ∧
    ∀ fuel options, ∃ e reason,
      runFileAtFuel fuel { files := [(["c"], [0xED, 0xA0, 0x80])] } "c" "utf-8" options =
        some (.error (.load e)) ∧ e.message = "cannot decode program: " ++ reason := by
  have ha : ProgramFile.Stores
      { files := [(["a"], [0xEF, 0xBB, 0xBF, 0x2B, 0x0D, 0x0A, 0xF0, 0x9F, 0x98, 0x80])] }
      "a" "utf-8-sig" (Text.LineEnd.crlf.write ['+', '\n', '😀']) :=
    ⟨.utf8Marked, _, by decide +kernel, rfl, by decide, rfl⟩
  have hb : ProgramFile.Stores
      { files := [(["b"], [0x2B, 0x00, 0x0D, 0x00, 0x3D, 0xD8, 0x00, 0xDE])] }
      "./b" "UTF-16-LE" (Text.LineEnd.cr.write ['+', '\n', '😀']) :=
    ⟨.utf16le, _, by decide +kernel, rfl, by decide, rfl⟩
  have hc : ProgramFile.Holds { files := [(["c"], [0xED, 0xA0, 0x80])] } "c" [0xED, 0xA0, 0x80] :=
    ⟨by decide, rfl⟩
  have hutf8 : Encoding.ofName? "utf-8" = some .utf8 := by decide +kernel
  have hnone : ∀ text, Encoding.utf8.encode? text ≠ some [0xED, 0xA0, 0x80] := by
    intro text htext
    cases Encoding.decode_of_encode? htext
  refine ⟨?_, ?_, ?_⟩
  · obtain ⟨text, htext, hrun⟩ := runFileAtFuel_of_text.1 _ _ _ _ ha
    obtain rfl : ['+', '\n', '😀'] = text := Text.spells_iff.mp htext
    exact hrun
  · exact runFileAtFuel_of_text.2.2.1 _ _ _ _ _ _ ['+', '\n', '😀'] .crlf .cr (by decide) ha hb
  · intro fuel options
    exact (runFileAtFuel_of_text.2.2.2 _ _ _ _ hutf8 hc fuel options).mpr hnone

end Execution

end TapeMachine
