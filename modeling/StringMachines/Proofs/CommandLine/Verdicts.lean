import StringMachines.CommandLine.Report
import StringMachines.Proofs.Erasing.Acceptance

/-!
# The verdicts that a command prints

`erase` goes through its inputs until one of them is refused for its length. What it has printed up
to there stays, a line for each input (`CommandLine.forall₂_output_eraseReport`), and the error of
the refused input comes behind it (`CommandLine.eraseReport_append`,
`CommandLine.eraseReport_of_long`). So the report follows the list of inputs up to the first that is
too long (`CommandLine.erase_prints_verdicts`).
-/

namespace StringMachines

namespace ErasingSystem

/-- The system answers an input that is not too long. -/
theorem exists_run_eq_ok (system : ErasingSystem) {input : Word}
    (hinput : input.length ≤ maximumInputLength) : ∃ verdict, system.run input = .ok verdict := by
  obtain ⟨verdict, hrun, -⟩ := system.exists_runWith_eq_ok system.settings hinput
  exact ⟨verdict, hrun⟩

/-- The system refuses an input that is too long. -/
theorem run_of_long (system : ErasingSystem) {input : Word}
    (hinput : maximumInputLength < input.length) :
    system.run input = .error (.inputTooLong input.length maximumInputLength) :=
  if_pos hinput

end ErasingSystem

namespace CommandLine

variable {system : ErasingSystem} {input : Word} {inputs before : List Word}

/-- The line for a verdict. -/
def verdictLine (verdict : ErasingSystem.Verdict) : String :=
  if verdict.accepted then "accepted" else "rejected"

/-- A report after some lines, after other lines. -/
theorem Report.after_after (report : Report)
    (output diagnostics output' diagnostics' : List String) :
    (report.after output diagnostics).after output' diagnostics' =
      report.after (output' ++ output) (diagnostics' ++ diagnostics) := by
  simp only [Report.after, List.append_assoc]

/-- The lines that a run adds to the diagnostics. -/
def logLines (system : ErasingSystem) (input : Word) (verdict : ErasingSystem.Verdict) :
    List String :=
  (if system.settings.verbose then system.runMessages input verdict else []).map fun msg =>
    " INFO " ++ Text.guarded msg

/-- A first input that is answered brings its line and its log in front of the report on the
others. -/
theorem eraseReport_cons {verdict : ErasingSystem.Verdict} (h : system.run input = .ok verdict)
    (inputs : List Word) :
    eraseReport system (input :: inputs) =
      (eraseReport system inputs).after [verdictLine verdict] (logLines system input verdict) := by
  rw [eraseReport, h]
  rfl

/-- What is reported of the first inputs stays when none of them is too long, and the report on the
others comes behind it. -/
theorem eraseReport_append
    (hbefore : ∀ input ∈ before, input.length ≤ ErasingSystem.maximumInputLength)
    (inputs : List Word) :
    eraseReport system (before ++ inputs) =
      (eraseReport system inputs).after (eraseReport system before).output
        (eraseReport system before).diagnostics := by
  induction before with
  | nil => rfl
  | cons input before ih =>
    obtain ⟨hinput, hbefore'⟩ := List.forall_mem_cons.1 hbefore
    obtain ⟨verdict, hrun⟩ := system.exists_run_eq_ok hinput
    rw [List.cons_append, eraseReport_cons hrun, eraseReport_cons hrun, ih hbefore',
      Report.after_after]
    rfl

/-- The report for an input that is too long. -/
theorem errorReport_inputTooLong (length : Nat) :
    errorReport (.inputTooLong length 1000) =
      { status := 42
        diagnostics := [s!"Error: Input string length {length} exceeds the maximum of 1000"] } := by
  have hmessage : "Error: " ++ (Error.inputTooLong length 1000).message =
      s!"Error: Input string length {length} exceeds the maximum of 1000" := by
    have hhead : "Error: Input string length " = "Error: " ++ "Input string length " := rfl
    have htail : " exceeds the maximum of 1000" = " exceeds the maximum of " ++ "1000" := rfl
    show "Error: " ++ ("Input string length " ++ toString length ++ " exceeds the maximum of " ++
        "1000") = "Error: Input string length " ++ toString length ++ " exceeds the maximum of 1000"
    rw [hhead, htail]
    simp only [String.append_assoc]
  rw [← hmessage]
  rfl

/-- A first input that is too long is all that is reported. -/
theorem eraseReport_of_long (hinput : ErasingSystem.maximumInputLength < input.length)
    (inputs : List Word) :
    eraseReport system (input :: inputs) =
      errorReport (.inputTooLong input.length ErasingSystem.maximumInputLength) := by
  rw [eraseReport, system.run_of_long hinput]

/-- When no input is too long, there is a line for each, and the command succeeds. -/
theorem forall₂_output_eraseReport (system : ErasingSystem)
    (hinputs : ∀ input ∈ inputs, input.length ≤ ErasingSystem.maximumInputLength) :
    List.Forall₂ (fun input line => ∃ verdict, system.run input = .ok verdict ∧
        line = verdictLine verdict) inputs (eraseReport system inputs).output ∧
      (eraseReport system inputs).status = 0 := by
  induction inputs with
  | nil => exact ⟨.nil, rfl⟩
  | cons input inputs ih =>
    obtain ⟨hinput, hinputs'⟩ := List.forall_mem_cons.1 hinputs
    obtain ⟨verdict, hrun⟩ := system.exists_run_eq_ok hinput
    obtain ⟨hlines, hstatus⟩ := ih hinputs'
    rw [eraseReport_cons hrun]
    exact ⟨.cons ⟨verdict, hrun, rfl⟩ hlines, hstatus⟩

/-- Either no input is too long, or there is a first that is. -/
theorem exists_answered (inputs : List Word) : ∃ answered,
    (∀ input ∈ answered, input.length ≤ ErasingSystem.maximumInputLength) ∧
      (inputs = answered ∨ ∃ long later, inputs = answered ++ long :: later ∧
        ErasingSystem.maximumInputLength < long.length) := by
  induction inputs with
  | nil => exact ⟨[], by simp, .inl rfl⟩
  | cons input inputs ih =>
    by_cases hinput : input.length ≤ ErasingSystem.maximumInputLength
    · obtain ⟨answered, hanswered, hrest⟩ := ih
      refine ⟨input :: answered, List.forall_mem_cons.2 ⟨hinput, hanswered⟩, ?_⟩
      rcases hrest with rfl | ⟨long, later, rfl, hlong⟩
      · exact .inl rfl
      · exact .inr ⟨long, later, rfl, hlong⟩
    · exact ⟨[], by simp, .inr ⟨input, inputs, rfl, Nat.lt_of_not_le hinput⟩⟩

variable {strings : List Word} {pattern : Word} {settings : Settings}

/-- The command reads its inputs, when the system can be built, and reports on them. -/
theorem run_eq_map_eraseReport {m : Type → Type} [Monad m] [LawfulMonad m]
    (hbuild : ErasingSystem.build strings pattern settings = .ok system)
    (read : Source → m (Except String ByteArray)) (source : InputSource) :
    EraseCommand.run read ⟨strings, pattern, settings, source⟩ =
      (fun | .error report => report | .ok inputs => eraseReport system inputs) <$>
        source.read read := by
  have hreport : ∀ inputs, EraseCommand.report ⟨strings, pattern, settings, source⟩ inputs =
      eraseReport system inputs := by
    intro inputs
    rw [EraseCommand.report, hbuild]
  rw [EraseCommand.run, hbuild, map_eq_pure_bind]
  refine bind_congr fun answer => ?_
  cases answer with
  | error report => rfl
  | ok inputs => exact congrArg pure (hreport inputs)

/-- **The verdicts that are printed stay, one for each input in front of the first that is too
long.** With a system that can be built, the command reports on the inputs that it reads, wherever
it reads them. It prints a line with the verdict on each input up to the first of more than 1000
characters, in order, and nothing else. When there is no such input the status is 0. Otherwise this
input is refused for its length: the status is 42, and the error comes behind what was written for
the inputs in front of it. -/
theorem erase_prints_verdicts
    (hbuild : ErasingSystem.build strings pattern settings = .ok system) :
    (∀ {m : Type → Type} [Monad m] [LawfulMonad m] (read : Source → m (Except String ByteArray))
      (source : InputSource),
      EraseCommand.run read ⟨strings, pattern, settings, source⟩ =
        (fun | .error report => report | .ok inputs => eraseReport system inputs) <$>
          source.read read) ∧
    ∀ inputs : List Word, ∃ answered,
      (∀ input ∈ answered, input.length ≤ 1000) ∧
      List.Forall₂ (fun input line => ∃ verdict, system.run input = .ok verdict ∧
          line = if verdict.accepted then "accepted" else "rejected")
        answered (eraseReport system inputs).output ∧
      (inputs = answered ∧ (eraseReport system inputs).status = 0 ∨
        ∃ long later, inputs = answered ++ long :: later ∧ 1000 < long.length ∧
          system.run long = .error (.inputTooLong long.length 1000) ∧
          (eraseReport system inputs).status = 42 ∧
          (eraseReport system inputs).diagnostics = (eraseReport system answered).diagnostics ++
            [s!"Error: Input string length {long.length} exceeds the maximum of 1000"]) := by
  refine ⟨fun read source => run_eq_map_eraseReport hbuild read source, fun inputs => ?_⟩
  obtain ⟨answered, hanswered, hrest⟩ := exists_answered inputs
  obtain ⟨hlines, hstatus⟩ := forall₂_output_eraseReport system hanswered
  refine ⟨answered, hanswered, ?_⟩
  rcases hrest with rfl | ⟨long, later, rfl, hlong⟩
  · exact ⟨hlines, .inl ⟨rfl, hstatus⟩⟩
  · rw [eraseReport_append hanswered, eraseReport_of_long hlong,
      ErasingSystem.maximumInputLength, errorReport_inputTooLong]
    refine ⟨?_, .inr ⟨long, later, rfl, hlong, system.run_of_long hlong, rfl, rfl⟩⟩
    show List.Forall₂ _ answered ((eraseReport system answered).output ++ [])
    rw [List.append_nil]
    exact hlines

/-- The empty input is accepted, and a long one behind it is refused, so that the last one is not
looked at. -/
theorem erase_prints_accepted : ∃ system,
    ErasingSystem.build [['a', 'b']] "(ab)*".toList {} = .ok system ∧
      ∃ report : Report,
        (EraseCommand.run (fun _ => pure (.error "")) ⟨[['a', 'b']], "(ab)*".toList, {},
          .operands [[], List.replicate 1001 'a', []]⟩ : Id Report) = report ∧
        report.output = ["accepted"] ∧ report.status = 42 := by
  have hread : Token.read "(ab)*".toList = [.atom (.group [['a', 'b']]), .operator .star] := by
    simp [Token.read, Word.upTo, Word.beyond, List.splitOn_cons_eq_if_modifyHead]
  obtain ⟨system, hbuild, -, htokens⟩ := ErasingSystem.exists_build_of_read [['a', 'b']] {} hread
    (by decide) ⟨'(', by simp, by decide⟩ (by decide) (by decide) (by decide)
  obtain ⟨hrun, hreports⟩ := erase_prints_verdicts hbuild
  refine ⟨system, hbuild, _, hrun _ _, ?_⟩
  show (eraseReport system _).output = _ ∧ (eraseReport system _).status = _
  have hlong : ¬ (List.replicate 1001 'a').length ≤ 1000 := by
    rw [List.length_replicate]
    decide
  generalize List.replicate 1001 'a' = second at hlong ⊢
  obtain ⟨answered, hanswered, hlines, hsplit⟩ := hreports [[], second, []]
  obtain ⟨rfl, -⟩ | ⟨long, later, hinputs, hrefused, -, hstatus, -⟩ := hsplit
  · exact absurd (hanswered second (by simp)) hlong
  -- the first input is not too long, and the second cannot be answered
  obtain rfl : answered = [[]] := by
    rcases answered with _ | ⟨first, _ | ⟨next, rest⟩⟩
    · obtain ⟨rfl, -⟩ := List.cons.inj hinputs
      exact absurd hrefused (by decide)
    · rw [(List.cons.inj hinputs).1]
    · obtain ⟨rfl, -⟩ := List.cons.inj (List.cons.inj hinputs).2
      exact absurd (hanswered second (by simp)) hlong
  have haccepts : system.pattern.accepts [] = true := by
    rw [Pattern.accepts, htokens]
    decide
  have hempty : system.run [] = .ok ⟨system.pattern.accepts [], []⟩ := rfl
  obtain ⟨line, lines, ⟨verdict, hverdict, rfl⟩, hnil, houtput⟩ :=
    List.forall₂_cons_left_iff.1 hlines
  obtain rfl := List.forall₂_nil_left_iff.1 hnil
  obtain rfl := Except.ok.inj (hempty.symm.trans hverdict)
  refine ⟨houtput.trans ?_, hstatus⟩
  rw [haccepts]
  rfl

end CommandLine

end StringMachines
