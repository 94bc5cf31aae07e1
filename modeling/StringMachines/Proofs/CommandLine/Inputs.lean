import StringMachines.CommandLine.Report

/-!
# The sources of the inputs

A command takes its inputs from its operands, from a file or from the standard input. In a file and
on the standard input they are lines: each has a newline behind it, where the last newline may be
left out unless the last line is empty (`Text.Holds`). Such a text is split into the same lines
again (`Text.lines_of_holds`), since no line has a newline in it and none ends with a carriage
return, which would be taken as a part of its ending. So the inputs are the same from all three
sources, and the commands, which look at nothing else of a source, report the same
(`CommandLine.sources_agree`).
-/

namespace StringMachines

namespace Text

variable {text last : Word} {inputs : List Word}

/-- A word that can be a line of a text. -/
def IsLine (w : Word) : Prop :=
  '\n' ∉ w ∧ w.getLast? ≠ some '\r'

/-- Lines as a text, each with a newline behind it. -/
def terminated (inputs : List Word) : Word :=
  inputs.flatMap (· ++ ['\n'])

/-- The text holds the lines. The newline behind the last line may be missing, unless this line is
empty. -/
def Holds (text : Word) (inputs : List Word) : Prop :=
  text = terminated inputs ∨
    ∃ before last, inputs = before ++ [last] ∧ last ≠ [] ∧ text = terminated before ++ last

/-- Nothing is taken off the end of a line. -/
theorem withoutReturn_of_isLine {w : Word} (h : IsLine w) : withoutReturn w = w :=
  if_neg h.2

/-- A first line stands in front of the first newline. -/
theorem terminated_cons (input : Word) (inputs : List Word) :
    terminated (input :: inputs) = input ++ '\n' :: terminated inputs := by
  rw [terminated, List.flatMap_cons, List.append_assoc]
  rfl

/-- Cutting at the newlines gives the lines, and what stands behind the last newline. -/
theorem splitOn_terminated_append (hinputs : ∀ input ∈ inputs, IsLine input)
    (hlast : '\n' ∉ last) :
    (terminated inputs ++ last).splitOn '\n' = inputs ++ [last] := by
  induction inputs with
  | nil => exact List.splitOn_eq_singleton hlast
  | cons input inputs ih =>
    obtain ⟨hinput, hinputs'⟩ := List.forall_mem_cons.1 hinputs
    rw [terminated_cons, List.append_assoc, List.cons_append,
      List.splitOn_append_cons_self_of_not_mem hinput.1, ih hinputs', List.cons_append]

/-- The lines of a text with something behind the last newline, or with nothing there. -/
theorem lines_terminated_append (hinputs : ∀ input ∈ inputs, IsLine input) (hlast : '\n' ∉ last) :
    lines (terminated inputs ++ last) = inputs ++ if last = [] then [] else [last] := by
  have hkept : inputs.map withoutReturn = inputs := by
    rw [List.map_congr_left fun input hinput => withoutReturn_of_isLine (hinputs input hinput),
      List.map_id']
  rw [lines, splitOn_terminated_append hinputs hlast, List.dropLast_concat, List.getLast?_concat,
    hkept, Option.filter_some]
  by_cases hempty : last = []
  · simp [hempty]
  · simp [hempty]

/-- A text that holds lines is split into these lines. -/
theorem lines_of_holds (hinputs : ∀ input ∈ inputs, IsLine input) (h : Holds text inputs) :
    lines text = inputs := by
  rcases h with rfl | ⟨before, last, rfl, hlast, rfl⟩
  · have hlines := lines_terminated_append hinputs List.not_mem_nil
    rwa [List.append_nil, if_pos rfl, List.append_nil] at hlines
  · obtain ⟨hbefore, hlast'⟩ := List.forall_mem_append.1 hinputs
    have hnewline : '\n' ∉ last := (hlast' last List.mem_cons_self).1
    rw [lines_terminated_append hbefore hnewline, if_neg hlast]

end Text

namespace CommandLine

variable {m : Type → Type} [Monad m] {read : Source → m (Except String ByteArray)}
  {inputs operands : List Word} {file? : Option Word} {source : InputSource}

/-- The three ways to give inputs with a file and operands: the inputs are the operands, and there
is no file; or a text that holds them is in the file, and there are no operands; or such a text is
on the standard input, and there is neither. -/
inductive Gives (read : Source → m (Except String ByteArray)) (inputs : List Word) :
    Option Word → List Word → Prop
  | operands : Gives read inputs none inputs
  | file {name text : Word} : Text.Holds text inputs →
      read (.file name) = pure (.ok (String.ofList text).toUTF8) →
      Gives read inputs (some name) []
  | standardInput {text : Word} : Text.Holds text inputs →
      read .standardInput = pure (.ok (String.ofList text).toUTF8) →
      Gives read inputs none []

/-- The inputs in the bytes of a text that holds them. -/
theorem Source.inputs_of_holds {text : Word} (hinputs : ∀ input ∈ inputs, Text.IsLine input)
    (htext : Text.Holds text inputs) (source : Source) :
    source.inputs (.ok (String.ofList text).toUTF8) = .ok inputs := by
  have hdecoded : String.fromUTF8? (String.ofList text).toUTF8 = some (String.ofList text) :=
    dif_pos (String.ofList text).isValidUTF8
  rw [Source.inputs, hdecoded]
  dsimp only
  rw [String.toList_ofList, Text.lines_of_holds hinputs htext]

variable [LawfulMonad m]

/-- A command reads its inputs in whichever way they are given. -/
theorem Gives.exists_read_eq (hne : inputs ≠ []) (hinputs : ∀ input ∈ inputs, Text.IsLine input)
    (h : Gives read inputs file? operands) :
    ∃ source, inputSource file? operands = .ok source ∧
      source.read read = pure (.ok inputs) := by
  cases h with
  | operands =>
    refine ⟨.operands inputs, ?_, rfl⟩
    obtain ⟨input, inputs, rfl⟩ := List.exists_cons_of_ne_nil hne
    rfl
  | @file name text htext hread =>
    refine ⟨.file name, rfl, ?_⟩
    rw [InputSource.read, hread, pure_bind, Source.inputs_of_holds hinputs htext]
  | @standardInput text htext hread =>
    refine ⟨.standardInput, rfl, ?_⟩
    rw [InputSource.read, hread, pure_bind, Source.inputs_of_holds hinputs htext]

/-- Of its source, `erase` looks at the inputs only. -/
theorem EraseCommand.run_eq_report (hread : source.read read = pure (.ok inputs))
    (command : EraseCommand) :
    EraseCommand.run read { command with inputs := source } = pure (command.report inputs) := by
  rw [EraseCommand.run]
  dsimp only
  cases hbuild : ErasingSystem.build command.strings command.pattern command.settings with
  | error e =>
    rw [EraseCommand.report, hbuild]
  | ok system =>
    dsimp only
    rw [hread, pure_bind]
    rfl

/-- Of its source, `transduce` looks at the inputs only. -/
theorem TransduceCommand.run_eq_report (hread : source.read read = pure (.ok inputs))
    (command : TransduceCommand) (budget : Nat) :
    TransduceCommand.run read budget { command with inputs := source } =
      pure (command.report budget inputs) := by
  rw [TransduceCommand.run, hread, pure_bind]
  rfl

/-- **The three sources of inputs agree.** Take inputs, at least one, none with a newline in it and
none that ends with a carriage return. They may be given as operands, or as the lines of a file, or
as the lines of the standard input without a file and operands; in a text the newline behind the
last input may be left out when this input is not empty. In all three cases these inputs are what a
command reads, and both commands report on them: what `erase` and `transduce` print is the same. -/
theorem sources_agree (hne : inputs ≠ [])
    (hinputs : ∀ input ∈ inputs, '\n' ∉ input ∧ input.getLast? ≠ some '\r')
    (h : Gives read inputs file? operands) :
    ∃ source, inputSource file? operands = .ok source ∧
      source.read read = pure (.ok inputs) ∧
      (∀ command : EraseCommand,
        EraseCommand.run read { command with inputs := source } = pure (command.report inputs)) ∧
      ∀ (command : TransduceCommand) (budget : Nat),
        TransduceCommand.run read budget { command with inputs := source } =
          pure (command.report budget inputs) := by
  obtain ⟨source, hsource, hread⟩ := h.exists_read_eq hne hinputs
  exact ⟨source, hsource, hread, EraseCommand.run_eq_report hread,
    TransduceCommand.run_eq_report hread⟩

/-- Three inputs in a file, one of them empty, without the last newline. -/
theorem sources_agree_file : ∃ source,
    inputSource (some ['f']) [] = .ok source ∧
      (source.read fun _ => pure (.ok (String.ofList ['a', '\r', 'b', '\n', '\n', 'c']).toUTF8) :
        Id (Except Report (List Word))) = pure (.ok [['a', '\r', 'b'], [], ['c']]) := by
  have htext : Text.Holds ['a', '\r', 'b', '\n', '\n', 'c'] [['a', '\r', 'b'], [], ['c']] :=
    .inr ⟨[['a', '\r', 'b'], []], ['c'], rfl, by decide, rfl⟩
  have hgives : Gives (m := Id)
      (fun _ => pure (.ok (String.ofList ['a', '\r', 'b', '\n', '\n', 'c']).toUTF8))
      [['a', '\r', 'b'], [], ['c']] (some ['f']) [] :=
    .file htext rfl
  obtain ⟨source, hsource, hread, -⟩ := sources_agree (by decide) (by decide) hgives
  exact ⟨source, hsource, hread⟩

end CommandLine

end StringMachines
