import TapeMachine.CommandLine.Response
import TapeMachine.Proofs.CommandLine.Reading
import TapeMachine.Proofs.Execution.File

/-!
# A program from a file and from standard input

The same bytes are the same program, whether they stand in a file that is named or come on standard
input, as far as they are text. The two ways differ in their errors only: a file that is not text is
reported as a program that cannot be loaded, and standard input that is not text is not reported at
all (`CommandLine.undecodable_input_unreported`).

The two command lines differ in the name of the program. That nothing else in their settings differs
is `Invocation.ofArgs_insert`; that no more is needed for the same response is
`CommandLine.respondAtFuel_program`.
-/

namespace TapeMachine

/-! ### Loading -/

namespace ProgramFile

/-- A file that can be opened is read as UTF-8, and if it is not text, that is a load error. -/
theorem read_of_opened {files : FileTree} {path : String} {bytes : List UInt8}
    (hnul : Char.ofNat 0 ∉ path.toList)
    (hopened : files.read (FilePath.ofString path) = .ok bytes) :
    read files path standardEncoding = (decode .utf8 bytes).mapError fun flaw =>
      .load (cannotDecode (FilePath.ofString path) flaw) := by
  have hname : Encoding.ofName? standardEncoding = some .utf8 := by decide +kernel
  exact read_of_ofName? hname hnul hopened

end ProgramFile

namespace CommandLine

/-! ### Settings without a program -/

/-- The arguments around the place of a program: complete switches on either side that name no
program and ask for the settings. -/
structure Surrounds (before after : List String) (settings : Settings) : Prop where
  complete : ∃ settings', Invocation.ofArgs before = .run settings'
  asks : Invocation.ofArgs (before ++ after) = .run settings
  program_eq_none : settings.program = none
  no_separator : "--" ∉ before ++ after

/-- The name of the program has no part in the response. -/
theorem respondAtFuel_program (fuel : Nat) (name : String) (settings : Settings)
    (program : Option String) (loaded : Except Fault String) :
    respondAtFuel fuel name { settings with program := program } loaded =
      respondAtFuel fuel name settings loaded :=
  rfl

namespace Surrounds

variable {before after : List String} {settings : Settings}

/-- Without a program, standard input is run. -/
theorem runAtFuel_input (h : Surrounds before after settings) (fuel : Nat) (name : String)
    (input : List UInt8) (files : FileTree) :
    runAtFuel fuel name (before ++ after) input files =
      respondAtFuel fuel name settings (ProgramFile.ofInput input) := by
  unfold runAtFuel
  simp only [h.asks, Settings.source, h.program_eq_none]

/-- With a dash for the program, standard input is run. -/
theorem runAtFuel_dash (h : Surrounds before after settings) (fuel : Nat) (name : String)
    (input : List UInt8) (files : FileTree) :
    runAtFuel fuel name (before ++ "-" :: after) input files =
      respondAtFuel fuel name settings (ProgramFile.ofInput input) := by
  obtain ⟨settings', hbefore⟩ := h.complete
  have hplain : classify "-" = .ok (.plain "-") := rfl
  have hdash := Invocation.ofArgs_insert hbefore h.asks h.program_eq_none h.no_separator hplain
    (by decide)
  unfold runAtFuel
  simp only [hdash, Settings.source, if_true, respondAtFuel_program]

/-- With a plain word for the program, the file of that name is run. -/
theorem runAtFuel_file (h : Surrounds before after settings) {file : String}
    (hplain : file.toList.head? ≠ some '-') (fuel : Nat) (name : String) (input : List UInt8)
    (files : FileTree) :
    runAtFuel fuel name (before ++ file :: after) input files =
      respondAtFuel fuel name settings
        (ProgramFile.read files file ProgramFile.standardEncoding) := by
  have hdash : file ≠ "-" := by
    rintro rfl
    exact hplain rfl
  have hdashes : file ≠ "--" := by
    rintro rfl
    exact hplain rfl
  obtain ⟨settings', hbefore⟩ := h.complete
  have hfile := Invocation.ofArgs_insert hbefore h.asks h.program_eq_none h.no_separator
    (classify_of_head?_ne hplain) hdashes
  unfold runAtFuel
  simp only [hfile, Settings.source, hdash, if_false, respondAtFuel_program]

end Surrounds

/-! ### The two sources -/

/-- **A program means the same from a file and from standard input, if it is text.** Let a file hold
some bytes, and let the same bytes come on standard input. However the program is to be run, and
wherever among the switches it is named:

* if the bytes are UTF-8, then naming the file, naming a dash and naming nothing have the same
  response, or none of them has one;
* if they are not, naming the file has a report on loading for a response, and the other two fail
  without one.
-/
theorem response_of_source {before after : List String} {settings : Settings}
    (h : Surrounds before after settings) {file : String} {files : FileTree} {bytes : List UInt8}
    (hplain : file.toList.head? ≠ some '-') (hnul : Char.ofNat 0 ∉ file.toList)
    (hopened : files.read (FilePath.ofString file) = .ok bytes) (name : String)
    (input : List UInt8) (files' : FileTree) (fuel : Nat) :
    (∀ text, ProgramFile.decode .utf8 bytes = .ok text →
      runAtFuel fuel name (before ++ "-" :: after) bytes files' =
        runAtFuel fuel name (before ++ file :: after) input files ∧
      runAtFuel fuel name (before ++ after) bytes files' =
        runAtFuel fuel name (before ++ file :: after) input files) ∧
    (∀ flaw, ProgramFile.decode .utf8 bytes = .error flaw →
      runAtFuel fuel name (before ++ file :: after) input files =
        some (.ok (.ofLoadError (ProgramFile.cannotDecode (FilePath.ofString file) flaw))) ∧
      runAtFuel fuel name (before ++ "-" :: after) bytes files' =
        some (.error .undecodableInput) ∧
      runAtFuel fuel name (before ++ after) bytes files' = some (.error .undecodableInput)) := by
  rw [h.runAtFuel_file hplain, h.runAtFuel_dash, h.runAtFuel_input,
    ProgramFile.read_of_opened hnul hopened, ProgramFile.ofInput]
  refine ⟨?_, ?_⟩
  · intro text htext
    rw [htext]
    exact ⟨rfl, rfl⟩
  · intro flaw hflaw
    rw [hflaw]
    exact ⟨rfl, rfl, rfl⟩

/-- A file with two kinds of line ends, run in batches with a limit; and one that breaks off inside
a character. -/
theorem response_of_source_with_limit :
    (∀ fuel,
      runAtFuel fuel standardName ["--max-steps", "-1", "--max=90", "-", "--jit", "--tape"]
          [0x2B, 0x0D, 0x0A, 0x2E, 0x0D] {} =
        runAtFuel fuel standardName ["--max-steps", "-1", "--max=90", "./a b", "--jit", "--tape"] []
          { files := [(["a b"], [0x2B, 0x0D, 0x0A, 0x2E, 0x0D])] }) ∧
    ∀ fuel,
      runAtFuel fuel standardName ["-v", "run/broken", "--opcodes"] []
          { files := [(["run", "broken"], [0x2B, 0xC3])] } =
        some (.ok (.ofLoadError
          { message := "cannot decode program: unexpected end of data", source := "run/broken" })) ∧
      runAtFuel fuel standardName ["-v", "--opcodes"] [0x2B, 0xC3] {} =
        some (.error .undecodableInput) := by
  have hlimit : Surrounds ["--max-steps", "-1", "--max=90"] ["--jit", "--tape"]
      { limit := .value 90, batched := true, tape := true } :=
    ⟨⟨{ limit := .value 90 }, by decide +kernel⟩, by decide +kernel, rfl, by decide⟩
  have hopcodes : Surrounds ["-v"] ["--opcodes"] { opcodes := true, verbose := true } :=
    ⟨⟨{ verbose := true }, by decide +kernel⟩, by decide +kernel, rfl, by decide⟩
  have hopened : FileTree.read { files := [(["a b"], [0x2B, 0x0D, 0x0A, 0x2E, 0x0D])] }
      (FilePath.ofString "./a b") = .ok [0x2B, 0x0D, 0x0A, 0x2E, 0x0D] := by rfl
  have hopened' : FileTree.read { files := [(["run", "broken"], [0x2B, 0xC3])] }
      (FilePath.ofString "run/broken") = .ok [0x2B, 0xC3] := by rfl
  have htext : ProgramFile.decode .utf8 [0x2B, 0x0D, 0x0A, 0x2E, 0x0D] = .ok "+\n.\n" := by rfl
  have hflaw : ProgramFile.decode .utf8 [0x2B, 0xC3] = .error .unexpectedEnd := by rfl
  refine ⟨fun fuel => ?_, fun fuel => ?_⟩
  · exact ((response_of_source hlimit (by decide) (by decide) hopened standardName [] {}
      fuel).1 _ htext).1
  · obtain ⟨hfile, -, hinput⟩ := (response_of_source hopcodes (by decide) (by decide) hopened'
      standardName [] {} fuel).2 _ hflaw
    exact ⟨hfile, hinput⟩

/-- One byte that starts no character: in a file it is reported on, with status 1, and on standard
input it ends the program without a response. -/
theorem undecodable_input_unreported :
    (∀ fuel, ∃ response,
      runAtFuel fuel standardName ["p"] [] { files := [(["p"], [0xFF])] } = some (.ok response) ∧
        response.status = 1 ∧ response.stdout = "") ∧
    (∀ fuel, runAtFuel fuel standardName ["-"] [0xFF] {} = some (.error .undecodableInput)) ∧
    ∀ fuel, runAtFuel fuel standardName [] [0xFF] {} = some (.error .undecodableInput) := by
  refine ⟨fun fuel => ⟨.ofLoadError
    { message := "cannot decode program: invalid start byte", source := "p" }, ?_, rfl, rfl⟩,
    fun fuel => ?_, fun fuel => ?_⟩
  · rfl
  · rfl
  · rfl

end CommandLine

end TapeMachine
