import ArithGrammar.Command
import ArithGrammar.Proofs.LineSplitting
import Mathlib.Data.List.TakeWhile

/-!
# A session prints what the arguments would

Without expressions among its arguments the command checks the lines that it reads from its input.
What it prints then is what it prints for the same lines as arguments, with a prompt in front of
each report and at the end where input is prompted for (`interactive_agrees_with_oneShot`).

The lines read are those of the input, up to the first empty one, if none of them is edited, and
prompts are for dumb terminals if no other plain one is used (`Environment.ReadsPlainly`).
-/
namespace ArithGrammar

/-- Editing changes no line of the session, and prompts depend on one name of a terminal. -/
structure Environment.ReadsPlainly (e : Environment) : Prop where
  edited_eq : ∀ line ∈ InputLines.untilEmpty e.input, LineEditing.edited? line = some line
  prompts_eq : Command.prompts e.terminal = decide (e.terminal = "dumb".toList)

/-- Without a backspace in the input nothing is edited. -/
theorem Environment.ReadsPlainly.of_not_mem {e : Environment}
    (hinput : LineEditing.backspace ∉ e.input)
    (hterminal : Command.prompts e.terminal = decide (e.terminal = "dumb".toList)) :
    e.ReadsPlainly := by
  refine ⟨fun line hline => LineEditing.edited_of_not_mem fun hmem => hinput ?_, hterminal⟩
  exact InputLines.mem_of_mem_line ((List.takeWhile_prefix _).subset hline) hmem

namespace InputLines

theorem exists_lines_eq_untilEmpty (s : Text) :
    ∃ rest, lines s = untilEmpty s ++ rest ∧ ∀ line ∈ rest.head?, line = [] := by
  refine ⟨(lines s).dropWhile (!·.isEmpty), List.takeWhile_append_dropWhile.symm, ?_⟩
  intro line hline
  have hnot := List.head?_dropWhile_not (!·.isEmpty) (lines s)
  rw [hline] at hnot
  simpa using hnot

end InputLines

namespace Command
variable {e : Environment} {options : Options}

theorem run_of_request (h : Request.ofArguments e.arguments = .ok (.check options)) :
    run e = if options.expressions.isEmpty then interactive options e else oneShot options e := by
  rw [run, h]

theorem fields_run (h : Request.ofArguments e.arguments = .ok (.check options)) :
    (run e).complaints = LogFilter.complaints e.filter ∧ (run e).usageError = none := by
  rw [run_of_request h]
  cases options.expressions.isEmpty <;> exact ⟨rfl, rfl⟩

theorem ofInput_of_plain (h : e.ReadsPlainly) :
    LinesRead.ofInput e.input = ⟨InputLines.untilEmpty e.input, false⟩ :=
  LinesRead.ofLines_of_edited h.edited_eq

/-- Where lines are prompted for, a prompt stands in front of each report and at the end. -/
theorem output_interactive (options : Options) (e : Environment) :
    let lines := (LinesRead.ofInput e.input).lines
    let told := report options.tokens (.ofNat options.maxDepth)
    (interactive options e).output = if prompts e.terminal then
      (lines.flatMap fun x => prompt ++ told x) ++ prompt else lines.flatMap told := by
  intro lines told
  cases hprompts : prompts e.terminal with
  | false =>
      simp only [interactive, hprompts, Bool.false_eq_true, if_false, List.nil_append,
        List.append_nil]
      rfl
  | true =>
      simp only [interactive, hprompts, if_true]
      rfl

theorem interactive_append {s t : Text} (h : e.input = s ++ '\n' :: t)
    (hends : ∃ line ∈ InputLines.lines (s ++ ['\n']),
      LineEditing.edited? line = some [] ∨ LineEditing.edited? line = none) :
    interactive options e = interactive options { e with input := s ++ ['\n'] } := by
  have hread : LinesRead.ofInput e.input = LinesRead.ofInput (s ++ ['\n']) := by
    rw [LinesRead.ofInput, h, InputLines.lines_append, LinesRead.ofLines_append hends]
    rfl
  rw [interactive, interactive, hread]

/-- A session ends well whatever the verdicts, unless a line breaks it off, and prints the reports
that are printed for the lines it reads as arguments, with prompts where there are any. Behind the
line that ends it nothing counts. Where nothing is edited, the lines read are those of the input up
to the first empty one. -/
theorem interactive_agrees_with_oneShot (e : Environment) (options : Options)
    (hrequest : Request.ofArguments e.arguments = .ok (.check options))
    (hnone : options.expressions = []) :
    let read := LinesRead.ofInput e.input
    let asked := { options with expressions := read.lines }
    let reports := (oneShot asked e).output
    let prompted := (read.lines.flatMap fun x =>
      prompt ++ report options.tokens (.ofNat options.maxDepth) x) ++ prompt
    (∃ rest, (InputLines.lines e.input).map LineEditing.edited? = read.lines.map some ++ rest ∧
      [] ∉ read.lines ∧ (∀ left ∈ rest.head?, left = some [] ∨ left = none) ∧
      (read.brokenOff = true ↔ rest.head? = some none)) ∧
    (run e).status = (if read.brokenOff then 101 else 0) ∧
    reports = read.lines.flatMap (report options.tokens (.ofNat options.maxDepth)) ∧
    (prompts e.terminal = false → (run e).output = reports) ∧
    (prompts e.terminal = true → (run e).output = prompted) ∧
    (read.lines = [] → reports = []) ∧
    (read.lines ≠ [] → ∀ e' : Environment, Request.ofArguments e'.arguments = .ok (.check asked) →
      (run e').output = reports) ∧
    (∀ s t, e.input = s ++ '\n' :: t →
      (∃ line ∈ InputLines.lines (s ++ ['\n']),
        LineEditing.edited? line = some [] ∨ LineEditing.edited? line = none) →
      run e = run { e with input := s ++ ['\n'] }) ∧
    (e.ReadsPlainly →
      read.lines = InputLines.untilEmpty e.input ∧
      (∃ rest, InputLines.lines e.input = read.lines ++ rest ∧ ∀ line ∈ rest.head?, line = []) ∧
      (run e).status = 0 ∧
      (e.terminal ≠ "dumb".toList → (run e).output = reports) ∧
      (e.terminal = "dumb".toList → (run e).output = prompted)) := by
  intro read asked reports prompted
  have hrun : run e = interactive options e := by
    rw [run_of_request hrequest, hnone]
    rfl
  have hstatus : (run e).status = if read.brokenOff then 101 else 0 := by
    rw [hrun]
    rfl
  have houtput : (run e).output = if prompts e.terminal then prompted else reports := by
    rw [hrun]
    exact output_interactive options e
  refine ⟨LinesRead.exists_map_edited _, hstatus, rfl, fun hterminal => ?_, fun hterminal => ?_,
    fun hlines => ?_, fun hlines e' hrequest' => ?_, fun s t hinput hends => ?_, fun hplain => ?_⟩
  · rw [houtput, hterminal, if_neg Bool.false_ne_true]
  · rw [houtput, hterminal, if_pos rfl]
  · change read.lines.flatMap _ = []
    rw [hlines]
    rfl
  · have hsome : asked.expressions.isEmpty = false := by simpa using hlines
    rw [run_of_request hrequest', hsome]
    rfl
  · have hrun' := run_of_request (e := { e with input := s ++ ['\n'] }) hrequest
    rw [hnone] at hrun'
    rw [hrun, hrun']
    exact interactive_append hinput hends
  · have hread : read = ⟨InputLines.untilEmpty e.input, false⟩ := ofInput_of_plain hplain
    have hlines : read.lines = InputLines.untilEmpty e.input := congrArg LinesRead.lines hread
    refine ⟨hlines, hlines ▸ InputLines.exists_lines_eq_untilEmpty e.input, ?_, ?_, ?_⟩
    · rw [hstatus, hread]
      rfl
    · intro hterminal
      rw [houtput, hplain.prompts_eq, decide_eq_false hterminal, if_neg Bool.false_ne_true]
    · intro hterminal
      rw [houtput, hplain.prompts_eq, decide_eq_true hterminal, if_pos rfl]

/-- Lines with both ends, a blank one and one without an end, and some that are not read. -/
theorem interactive_agrees_with_oneShot_of_blank_line :
    let e : Environment := ⟨["-t".toList, "--max-depth=1".toList],
      "(1)\r\n \n--2\n\n3".toList, "xterm".toList, [], none, none⟩
    let options : Options := ⟨true, 1, false, []⟩
    let read := LinesRead.ofInput e.input
    let asked := { options with expressions := read.lines }
    let reports := (oneShot asked e).output
    let prompted := (read.lines.flatMap fun x =>
      prompt ++ report options.tokens (.ofNat options.maxDepth) x) ++ prompt
    Request.ofArguments e.arguments = .ok (.check options) ∧ options.expressions = [] ∧
    e.ReadsPlainly ∧
    read = ⟨["(1)".toList, " ".toList, "--2".toList], false⟩ ∧
    Request.ofArguments (e.arguments ++ "--".toList :: read.lines) = .ok (.check asked) ∧
    (∃ rest, (InputLines.lines e.input).map LineEditing.edited? = read.lines.map some ++ rest ∧
      [] ∉ read.lines ∧ (∀ left ∈ rest.head?, left = some [] ∨ left = none) ∧
      (read.brokenOff = true ↔ rest.head? = some none)) ∧
    (run e).status = (if read.brokenOff then 101 else 0) ∧
    reports = read.lines.flatMap (report options.tokens (.ofNat options.maxDepth)) ∧
    (prompts e.terminal = false → (run e).output = reports) ∧
    (prompts e.terminal = true → (run e).output = prompted) ∧
    (read.lines = [] → reports = []) ∧
    (read.lines ≠ [] → ∀ e' : Environment, Request.ofArguments e'.arguments = .ok (.check asked) →
      (run e').output = reports) ∧
    (∀ s t, e.input = s ++ '\n' :: t →
      (∃ line ∈ InputLines.lines (s ++ ['\n']),
        LineEditing.edited? line = some [] ∨ LineEditing.edited? line = none) →
      run e = run { e with input := s ++ ['\n'] }) ∧
    (e.ReadsPlainly →
      read.lines = InputLines.untilEmpty e.input ∧
      (∃ rest, InputLines.lines e.input = read.lines ++ rest ∧ ∀ line ∈ rest.head?, line = []) ∧
      (run e).status = 0 ∧
      (e.terminal ≠ "dumb".toList → (run e).output = reports) ∧
      (e.terminal = "dumb".toList → (run e).output = prompted)) := by
  intro e options read asked reports prompted
  have hrequest : Request.ofArguments e.arguments = .ok (.check options) := by decide +kernel
  have hplain : e.ReadsPlainly := .of_not_mem (by decide +kernel) (by decide +kernel)
  exact ⟨hrequest, rfl, hplain, by decide +kernel, by decide +kernel,
    interactive_agrees_with_oneShot e options hrequest rfl⟩

end Command

end ArithGrammar
