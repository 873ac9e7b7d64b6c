import TapeMachine.CommandLine.Response
import TapeMachine.Proofs.Execution.File
import TapeMachine.Proofs.Session.Output
import TapeMachine.Proofs.Tape.Line

/-!
# What the command line prints

After a run, the command line prints the text of the run on a line of its own, unless it is empty,
and the tape on another line if it was asked for. With the tape, both can be recovered from what is
printed (`CommandLine.readPrintout?`): neither line has a line end in it, since all characters of
display tokens and of tape lines are printable, and the line of a tape shows its snapshot.

What is reported of a run is read off a session that can be reached
(`Execution.exists_reachable_of_runAtFuel`), so that all that is known of reachable sessions holds
of reports: which tokens are in the output, and that the head is on one cell of the tape.
-/

namespace TapeMachine

/-! ### Reports -/

namespace Execution

variable {fuel : Nat} {text : String} {options : Options} {report : Report}

/-- The supervisor on which a program starts belongs to a session. -/
theorem reachable_of_prepare {machine : Machine} (h : prepare text options = .ok machine) :
    ({ machine := machine } : Supervisor).Reachable := by
  have hstart : ({ machine := Machine.load text } : Supervisor).Reachable :=
    .start (show Supervisor.ofDatum (.text text) none = .ok _ from rfl)
  rcases hopcodes : options.opcodes with _ | table
  · rw [prepare, hopcodes] at h
    cases h
    exact hstart
  · rw [prepare_of_opcodes hopcodes] at h
    have hload : ({ machine := Machine.load text } : Supervisor).performAtFuel 0
        (.loadOpcodes table) = some (.ok .done, { machine := machine }) := by
      rcases hcells : table.opcodes (Machine.load text).program.text.toList with fault | cells
      · rw [hcells] at h
        cases h
      · rw [hcells] at h
        cases h
        simp only [Supervisor.performAtFuel, Machine.perform_loadOpcodes, hcells]
        rfl
    exact .request hstart hload

/-- Driving a supervisor is a request to its session. -/
theorem reachable_of_driveAtFuel {s s' : Supervisor} {steps : Except Fault Nat} (hs : s.Reachable)
    (h : driveAtFuel fuel options s = some (steps, s')) : s'.Reachable := by
  unfold driveAtFuel at h
  split_ifs at h
  · obtain ⟨⟨n, t⟩, hrun, hout⟩ := Option.map_eq_some_iff.mp h
    cases hout
    have hrequest : s.performAtFuel fuel (.runBatches options.limit options.batchSize) =
        some (.ok (.number n), s') := by
      simp only [Supervisor.performAtFuel, hrun, Option.map_some]
    exact .request hs hrequest
  · have hrequest : ∃ result, s.performAtFuel fuel (.run options.limit options.delay) =
        some (result, s') := by
      simp only [Supervisor.performAtFuel, h, Option.map_some]
      exact ⟨_, rfl⟩
    obtain ⟨result, hrequest⟩ := hrequest
    exact .request hs hrequest

/-- **A report is read off a session that can be reached.** -/
theorem exists_reachable_of_runAtFuel (h : runAtFuel fuel text options = some (.ok report)) :
    ∃ s : Supervisor, s.Reachable ∧ report.output = s.machine.output.toList ∧
      report.tape = s.machine.tape.snapshot := by
  unfold runAtFuel at h
  rcases hprepare : prepare text options with fault | machine
  · rw [hprepare] at h
    cases h
  · rw [hprepare] at h
    obtain ⟨⟨steps, s⟩, hdrive, hout⟩ := Option.map_eq_some_iff.mp h
    have hs := reachable_of_driveAtFuel (reachable_of_prepare hprepare) hdrive
    rcases steps with fault | steps
    · cases hout
    · cases hout
      exact ⟨s, hs, rfl, rfl⟩

/-- All characters of the text of a run are printable. -/
theorem printable_of_mem_text (h : runAtFuel fuel text options = some (.ok report)) :
    ∀ c ∈ report.text.toList, Token.Printable c := by
  obtain ⟨s, hs, houtput, -⟩ := exists_reachable_of_runAtFuel h
  obtain ⟨values, hvalues⟩ := hs.exists_hasPrinted
  intro c hc
  rw [Report.text, houtput, hvalues.output_eq, String.toList_join] at hc
  obtain ⟨token, htoken, hmem⟩ := List.mem_flatMap.mp hc
  obtain ⟨v, -, rfl⟩ := List.mem_map.mp htoken
  exact Token.printable_of_ofInt? (Token.ofInt?_toInt v) c hmem

/-- The line of the tape that is reported shows it. -/
theorem shows_tape (h : runAtFuel fuel text options = some (.ok report)) :
    Tape.Shows (Tape.renderSnapshot report.tape).toList report.tape := by
  obtain ⟨s, hs, -, htape⟩ := exists_reachable_of_runAtFuel h
  obtain ⟨ids, hids⟩ := hs.sound.tape
  rw [htape]
  exact hids.shows

end Execution

namespace CommandLine

/-! ### Reading what is printed -/

/-- Reads what is printed about a run with its tape: the text, if there is a line for it, and the
snapshot. -/
def readPrintout? (stdout : List Char) : Option (List Char × List (Int × Bool)) :=
  match stdout.splitOn '\n' with
  | [line, []] => (Tape.readLine? line).map ([], ·)
  | [text, line, []] => (Tape.readLine? line).map (text, ·)
  | _ => none

/-- What is printed about a run with its tape. -/
structure Printout (stdout : String) (report : Execution.Report) : Prop where
  /-- The text on a line of its own unless it is empty, and the line of the tape. -/
  stdout_eq : stdout = (if report.text = "" then "" else report.text ++ "\n") ++
    (Tape.renderSnapshot report.tape ++ "\n")
  /-- These are its lines, and the last of them ends it. -/
  lines : stdout.toList.splitOn '\n' =
    (if report.text = "" then [] else [report.text.toList]) ++
      [(Tape.renderSnapshot report.tape).toList, []]
  shows : Tape.Shows (Tape.renderSnapshot report.tape).toList report.tape
  reads : readPrintout? stdout.toList =
    some (report.text.toList, report.tape.map fun cell => (cell.1.toInt, cell.2))

/-- A line end is not printable. -/
theorem lineEnd_not_mem {chars : List Char} (h : ∀ c ∈ chars, Token.Printable c) :
    '\n' ∉ chars := by
  intro hmem
  exact absurd (h _ hmem) (by decide)

/-- **What is printed can be read**, if the text of the run has no line end in it. -/
theorem printout_reportText {report : Execution.Report} (htext : '\n' ∉ report.text.toList)
    (hshows : Tape.Shows (Tape.renderSnapshot report.tape).toList report.tape) :
    Printout (reportText true report) report := by
  have hline : '\n' ∉ (Tape.renderSnapshot report.tape).toList :=
    lineEnd_not_mem fun _ => Tape.printable_of_mem_renderSnapshot
  have hlast : (Tape.renderSnapshot report.tape ++ "\n").toList.splitOn '\n' =
      [(Tape.renderSnapshot report.tape).toList, []] := by
    rw [String.toList_append]
    exact List.splitOn_append_cons_self_of_not_mem hline []
  have hstdout : reportText true report = (if report.text = "" then "" else report.text ++ "\n") ++
      (Tape.renderSnapshot report.tape ++ "\n") := by
    simp only [reportText, String.isEmpty_iff, if_true]
  by_cases hempty : report.text = ""
  · have hlines : (reportText true report).toList.splitOn '\n' =
        [(Tape.renderSnapshot report.tape).toList, []] := by
      rw [hstdout, if_pos hempty, String.empty_append, hlast]
    refine ⟨hstdout, ?_, hshows, ?_⟩
    · rw [hlines, if_pos hempty, List.nil_append]
    · rw [readPrintout?, hlines]
      simp only [hshows.reads, Option.map_some, hempty]
      rfl
  · have hlines : (reportText true report).toList.splitOn '\n' =
        [report.text.toList, (Tape.renderSnapshot report.tape).toList, []] := by
      rw [hstdout, if_neg hempty, String.toList_append, String.toList_append, List.append_assoc,
        ← hlast]
      exact List.splitOn_append_cons_self_of_not_mem htext _
    refine ⟨hstdout, ?_, hshows, ?_⟩
    · rw [hlines, if_neg hempty, List.singleton_append]
    · rw [readPrintout?, hlines]
      simp only [hshows.reads, Option.map_some]

/-! ### Runs -/

/-- What loading the program comes to, from where the settings say. -/
def Settings.load (s : Settings) (input : List UInt8) (files : FileTree) : Except Fault String :=
  match s.source with
  | .input => ProgramFile.ofInput input
  | .file path => ProgramFile.read files path ProgramFile.standardEncoding

section runs

variable {fuel : Nat} {name : String} {settings : Settings} {loaded : Except Fault String}
  {args : List String} {input : List UInt8} {files : FileTree} {response : Response}

/-- A response to settings that has status zero tells of a run. -/
theorem exists_report_of_respondAtFuel
    (h : respondAtFuel fuel name settings loaded = some (.ok response))
    (hstatus : response.status = 0) :
    ∃ text options report, loaded = .ok text ∧ settings.options = .ok options ∧
      Execution.runAtFuel fuel text options = some (.ok report) ∧
      response = .ofReport name settings report := by
  unfold respondAtFuel at h
  split at h
  · cases h
    cases hstatus
  · cases h
  · rename_i text
    rcases hoptions : settings.options with fault | options
    · rw [hoptions] at h
      cases h
    · rw [hoptions] at h
      obtain ⟨result, hrun, hout⟩ := Option.map_eq_some_iff.mp h
      rcases result with fault | report
      · cases hout
      · cases hout
        exact ⟨text, options, report, rfl, rfl, hrun, rfl⟩

/-- **A response with status zero is that to a request for help, or it tells of a run.** -/
theorem help_or_exists_report (h : runAtFuel fuel name args input files = some (.ok response))
    (hstatus : response.status = 0) :
    (Invocation.ofArgs args = .help ∧ response = .ofHelp) ∨
      ∃ settings text options report, Invocation.ofArgs args = .run settings ∧
        settings.load input files = .ok text ∧ settings.options = .ok options ∧
        Execution.runAtFuel fuel text options = some (.ok report) ∧
        response = .ofReport name settings report := by
  unfold runAtFuel at h
  rcases hargs : Invocation.ofArgs args with _ | misuse | settings
  · rw [hargs] at h
    cases h
    exact .inl ⟨rfl, rfl⟩
  · rw [hargs] at h
    cases h
    cases hstatus
  · rw [hargs] at h
    obtain ⟨text, options, report, hload, hrest⟩ := exists_report_of_respondAtFuel h hstatus
    exact .inr ⟨settings, text, options, report, rfl, hload, hrest⟩

end runs

/-- **What is printed about a run with its tape tells the text and the tape.**

* All characters of a display token lie between the blank and the tilde.
* Let a command line have status zero. If it does not ask for help, a program has been run. If it
  asks for the tape, the text of the run is printed on a line of its own unless it is empty, then
  the line of the tape and nothing else; both lines are found by splitting at line ends, and the
  last is read as the tape of the report, one cell of it in brackets.
* The text of a tape that can be reached has this same line in it, for its snapshot.
-/
theorem printout_identifies_run :
    (∀ n token, Token.ofInt? n = some token → ∀ c ∈ token.toList, 32 ≤ c.toNat ∧ c.toNat ≤ 126) ∧
    (∀ fuel name args input files response,
      runAtFuel fuel name args input files = some (.ok response) → response.status = 0 →
      (Invocation.ofArgs args = .help ∧ response = .ofHelp) ∨
      ∃ settings text options report, Invocation.ofArgs args = .run settings ∧
        settings.load input files = .ok text ∧ settings.options = .ok options ∧
        Execution.runAtFuel fuel text options = some (.ok report) ∧
        (settings.tape = true → Printout response.stdout report)) ∧
    ∀ t : Tape, t.Reachable →
      t.render = "Tape(" ++ Tape.renderSnapshot t.snapshot ++ ")" ∧
      Tape.Shows (Tape.renderSnapshot t.snapshot).toList t.snapshot := by
  refine ⟨fun _ _ => Token.printable_of_ofInt?, ?_, ?_⟩
  · intro fuel name args input files response h hstatus
    obtain hhelp | ⟨settings, text, options, report, hargs, hload, hoptions, hrun, rfl⟩ :=
      help_or_exists_report h hstatus
    · exact .inl hhelp
    · refine .inr ⟨settings, text, options, report, hargs, hload, hoptions, hrun, ?_⟩
      intro htape
      have hprintout := printout_reportText
        (lineEnd_not_mem (Execution.printable_of_mem_text hrun)) (Execution.shows_tape hrun)
      rwa [Response.ofReport, htape]
  · intro t ht
    obtain ⟨ids, hids⟩ := ht.linked
    exact ⟨t.render_eq, hids.shows⟩

/-- A token that is written out; a program on standard input that prints it and goes on to a new
cell; and a tape that has grown to the left. -/
theorem printout_identifies_run_below_zero :
    (Token.ofInt? (-1) = some "<value -1>" ∧
      ∀ c ∈ "<value -1>".toList, 32 ≤ c.toNat ∧ c.toNat ≤ 126) ∧
    (∃ report, Execution.runAtFuel 9 "-.>." {} = some (.ok report) ∧
      runAtFuel 9 standardName ["--tape"] [0x2D, 0x2E, 0x3E, 0x2E] {} =
        some (.ok { status := 0, stdout := "<value -1><NUL>\n-1 [0]\n", stderr := "" }) ∧
      Printout "<value -1><NUL>\n-1 [0]\n" report) ∧
    (Tape.ofCells [3]).moveLeft.Reachable ∧ (Tape.ofCells [3]).moveLeft.render = "Tape([0] 3)" ∧
      Tape.Shows "[0] 3".toList [(0, true), (3, false)] := by
  obtain ⟨hprintable, hrun, htape⟩ := printout_identifies_run
  have htoken : Token.ofInt? (-1) = some "<value -1>" := by decide +kernel
  refine ⟨⟨htoken, hprintable _ _ htoken⟩, ?_, ?_⟩
  · have hresponse : runAtFuel 9 standardName ["--tape"] [0x2D, 0x2E, 0x3E, 0x2E] {} =
        some (.ok { status := 0, stdout := "<value -1><NUL>\n-1 [0]\n", stderr := "" }) := rfl
    have hargs : Invocation.ofArgs ["--tape"] = .run { tape := true } := by decide +kernel
    obtain ⟨hhelp, -⟩ | ⟨settings, text, options, report, hsettings, hload, hoptions, hreport,
      hprintout⟩ := hrun _ _ _ _ _ _ hresponse rfl
    · rw [hargs] at hhelp
      cases hhelp
    · rw [hargs] at hsettings
      cases hsettings
      have htext : text = "-.>." := (Except.ok.inj hload).symm
      have hdefault : options = {} := (Except.ok.inj hoptions).symm
      rw [htext, hdefault] at hreport
      exact ⟨report, hreport, hresponse, hprintout rfl⟩
  · have hmoved : (Tape.ofCells [3]).moveLeft.Reachable :=
      .request (.ofCells [3]) (show (Tape.ofCells [3]).perform .moveLeft = (.ok _, _) from rfl)
    have hsnapshot : (Tape.ofCells [3]).moveLeft.snapshot = [(0, true), (3, false)] := by
      decide +kernel
    have hline : Tape.renderSnapshot [(0, true), (3, false)] = "[0] 3" := by decide +kernel
    obtain ⟨hrender, hshows⟩ := htape _ hmoved
    rw [hsnapshot, hline] at hrender hshows
    exact ⟨hmoved, hrender, hshows⟩

end CommandLine

end TapeMachine
