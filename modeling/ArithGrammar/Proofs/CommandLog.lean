import ArithGrammar.Proofs.QuotedText
import ArithGrammar.Proofs.SessionOutput
import ArithGrammar.Proofs.TruthfulAccount

/-!
# The log of a run is made of the accounts of its expressions

Where a filter lets nothing through on the lines that are read, the log of a run is a warning, if
the depth asked for is too great, and then the account of each expression that is checked, in order
(`Command.log_run`). Each record of an account is a line that shows it as it is, and from the one at
the level `debug` the expression is read back, whatever characters it has. A filter changes nothing
but the log (`Command.log_run_concatenates`).
-/
namespace ArithGrammar
open Text

namespace Quoted

/-- The text that is quoted first on a line. -/
def first? (line : Text) : Option Text := decode? (line.dropWhile (· ≠ '\x22'))

theorem first?_append_encode {front : Text} (h : '\x22' ∉ front) (s rest : Text) :
    first? (front ++ (encode s ++ rest)) = some s := by
  have hfront : ∀ c ∈ front, decide (c ≠ '\x22') = true := by
    intro c hc
    rw [decide_eq_true_iff]
    rintro rfl
    exact h hc
  rw [first?, List.dropWhile_append_of_pos hfront]
  exact decode?_encode s rest

end Quoted

/-- How a recognition of the text ended is told behind the text itself. -/
theorem Attempt.exists_summary (x : Attempt Unit) (input : Text) : ∃ word rest,
    x.summary input = word ++ (Quoted.encode input ++ rest) ∧ '\x22' ∉ word := by
  cases hout : x.outcome with
  | ok u =>
      refine ⟨"accepted ".toList, " (".toList ++ (Text.ofNat x.tokens.length ++ " tokens)".toList),
        ?_, by decide +kernel⟩
      rw [x.summary_of_ok hout]
      simp only [List.append_assoc]
  | error failure =>
      refine ⟨"rejected ".toList, ": ".toList ++ failure.message, ?_, by decide +kernel⟩
      rw [x.summary_of_error hout]
      simp only [List.append_assoc]

theorem Attempt.column_lastRecord (x : Attempt Unit) (input : Text) :
    (x.lastRecord input).column = "DEBUG descent::parser] ".toList ++ x.summary input := by
  have hfront : Level.debug.label ++ List.replicate (5 - Level.debug.label.length) ' ' ++ [' '] ++
      recognitionTarget ++ [']', ' '] = "DEBUG descent::parser] ".toList := by decide +kernel
  rw [← hfront]
  rfl

theorem Attempt.first?_lastRecord (x : Attempt Unit) (input : Text) :
    Quoted.first? (x.lastRecord input).column = some input := by
  obtain ⟨word, rest, hsummary, hword⟩ := x.exists_summary input
  rw [x.column_lastRecord, hsummary, ← List.append_assoc]
  exact Quoted.first?_append_encode (List.not_mem_append (by decide +kernel) hword) input rest

theorem account_debug (limit : NestingLimit) (input : Text) :
    account (·.within (some .debug)) limit input = [(recognize limit input).lastRecord input] := rfl

theorem eq_lastRecord_of_mem_account {limit : NestingLimit} {input : Text} {r : Record}
    (h : r ∈ account (·.within (some .trace)) limit input) (hlevel : r.level = .debug) :
    r = (recognize limit input).lastRecord input := by
  rw [account_trace] at h
  rcases List.mem_append.mp h with h | h
  · obtain ⟨e, -, rfl⟩ := List.mem_map.mp h
    cases hlevel
  · exact List.mem_singleton.mp h

namespace Command
variable {e : Environment} {options : Options}

/-- The expressions that a run checks: those among its arguments or, if there are none, the lines
that it reads. -/
def checked (options : Options) (e : Environment) : List Text :=
  if options.expressions.isEmpty then (LinesRead.ofInput e.input).lines else options.expressions

theorem accountOf_of_pattern_none {filter : LogFilter} (h : filter.pattern = none)
    (limit : NestingLimit) (x : Text) :
    accountOf filter limit x = account (·.within (filter.most recognitionTarget)) limit x := by
  have hfits (r : Record) : filter.fits r = true := by
    rw [LogFilter.fits, h]
    rfl
  rw [accountOf, List.filter_eq_self.mpr fun r _ => hfits r]

theorem passes_of_not_within {filter : LogFilter} {r : Record}
    (h : r.level.within (filter.most r.target) = false) : filter.passes r = false := by
  rw [LogFilter.passes, h, Bool.false_and]

theorem eq_of_mem_historyRecords {path? file? : Option Text} {r : Record}
    (h : r ∈ historyRecords path? file?) :
    r.target = name ∧ r.level = .info ∨ r.target = lineTarget := by
  cases path? with
  | none => cases h
  | some path =>
      cases file? with
      | none =>
          rw [List.mem_singleton.mp h]
          exact .inl ⟨rfl, rfl⟩
      | some file =>
          obtain ⟨line, -, rfl⟩ := List.mem_map.mp h
          exact .inr rfl

/-- A filter that lets nothing through on lines, and only warnings on the command, leaves out the
records on the history. -/
theorem filter_historyRecords {filter : LogFilter} (hlines : filter.most lineTarget = none)
    (hinfo : Level.info.within (filter.most name) = false) (path? file? : Option Text) :
    (historyRecords path? file?).filter filter.passes = [] := by
  rw [List.filter_eq_nil_iff]
  intro r hr
  rw [Bool.not_eq_true]
  apply passes_of_not_within
  rcases eq_of_mem_historyRecords hr with ⟨htarget, hlevel⟩ | htarget
  · rw [htarget, hlevel]
    exact hinfo
  · rw [htarget, hlines]
    rfl

theorem log_run (hrequest : Request.ofArguments e.arguments = .ok (.check options))
    (hlines : (LogFilter.ofText e.filter).most lineTarget = none)
    (hinfo : Level.info.within ((LogFilter.ofText e.filter).most name) = false) :
    (run e).log = (warnings options.maxDepth).filter (LogFilter.ofText e.filter).passes ++
      (checked options e).flatMap
        (accountOf (LogFilter.ofText e.filter) (.ofNat options.maxDepth)) := by
  rw [run_of_request hrequest, checked]
  split_ifs with hempty
  · have hreading : [lineRecord e.terminal].filter (LogFilter.ofText e.filter).passes = [] := by
      rw [List.filter_singleton, passes_of_not_within]
      · rfl
      · change Level.debug.within ((LogFilter.ofText e.filter).most lineTarget) = false
        rw [hlines]
        rfl
    have hloading :
        (if options.noHistory then [] else historyRecords e.historyPath e.history).filter
          (LogFilter.ofText e.filter).passes = [] := by
      split_ifs
      · rfl
      · exact filter_historyRecords hlines hinfo e.historyPath e.history
    simp only [interactive, hreading, List.filter_append, hloading, List.append_nil,
      List.nil_append]
  · rfl

theorem run_filter (e : Environment) (filter : Text) :
    (run { e with filter := filter }).output = (run e).output ∧
      (run { e with filter := filter }).status = (run e).status ∧
      (run { e with filter := filter }).history = (run e).history := by
  simp only [run]
  cases Request.ofArguments e.arguments with
  | error error => exact ⟨rfl, rfl, rfl⟩
  | ok request =>
      cases request with
      | help => exact ⟨rfl, rfl, rfl⟩
      | version => exact ⟨rfl, rfl, rfl⟩
      | check options =>
          dsimp only
          cases options.expressions.isEmpty <;> exact ⟨rfl, rfl, rfl⟩

theorem plain_of_mem_warnings {n : Nat} {r : Record} (h : r ∈ warnings n) :
    Plain r.target ∧ Plain r.message := by
  rw [warnings] at h
  split_ifs at h
  · rw [List.mem_singleton.mp h]
    have hname : Plain name := by decide +kernel
    exact ⟨hname, (((Plain.append (by decide +kernel) (.ofNat n)).append
      (by decide +kernel)).append (.ofNat maxNesting))⟩
  · cases h

theorem column_warnings (n : Nat) : (warnings n).map Record.column =
    if 256 < n then
      ["WARN  exprcheck] --max-depth ".toList ++ Text.ofNat n ++ " lowered to 256".toList]
    else [] := by
  have hfront : Level.warn.label ++ List.replicate (5 - Level.warn.label.length) ' ' ++ [' '] ++
      name ++ [']', ' '] ++ "--max-depth ".toList = "WARN  exprcheck] --max-depth ".toList := by
    decide +kernel
  have hbehind : " lowered to ".toList ++ Text.ofNat maxNesting = " lowered to 256".toList := by
    decide +kernel
  rw [warnings]
  change List.map _ (if 256 < n then _ else _) = _
  split_ifs
  · rw [List.map_singleton, Record.column, ← hfront, ← hbehind]
    simp only [List.append_assoc]
  · rfl

/-- Plain records are shown as they are, each on a line of its own. -/
theorem errorLines_of_plain {c : Completion} (hcomplaints : c.complaints = [])
    (herror : c.usageError = none) (hplain : ∀ r ∈ c.log, Plain r.target ∧ Plain r.message) :
    c.errorLines = c.log.map Record.column ∧
      InputLines.lines (c.errorLines.flatMap (· ++ ['\n'])) = c.errorLines := by
  have hcolumn : ∀ r ∈ c.log, Plain r.column := fun r hr =>
    Record.plain_column (hplain r hr).1 (hplain r hr).2
  have hlines : c.errorLines = c.log.map Record.column := by
    rw [Completion.errorLines, Completion.complaintLines, Completion.usageLines, hcomplaints,
      herror, Completion.recordLines, List.map_congr_left fun r hr => (hcolumn r hr).visible_eq]
    exact List.append_nil _
  refine ⟨hlines, InputLines.lines_flatMap fun line hline => ?_⟩
  rw [hlines] at hline
  obtain ⟨r, hr, rfl⟩ := List.mem_map.mp hline
  exact ⟨(hcolumn r hr).lineFeed_not_mem, fun hlast =>
    (hcolumn r hr).carriageReturn_not_mem (List.mem_of_getLast? hlast)⟩

/-- Warnings of the command, and all that recognitions tell. -/
def tracing : Text := "exprcheck=warn,descent=trace".toList

/-- Only how recognitions ended. -/
def summing : Text := "descent=debug".toList

theorem ofText_tracing : LogFilter.ofText tracing =
    ⟨[⟨some "exprcheck".toList, some .warn⟩, ⟨some "descent".toList, some .trace⟩], none⟩ := by
  rfl

theorem ofText_summing : LogFilter.ofText summing =
    ⟨[⟨some "descent".toList, some .debug⟩], none⟩ := by
  rfl

theorem complaints_tracing : LogFilter.complaints tracing = [] := by rfl

theorem complaints_summing : LogFilter.complaints summing = [] := by rfl

theorem log_tracing (hrequest : Request.ofArguments e.arguments = .ok (.check options))
    (hfilter : e.filter = tracing) :
    (run e).log = warnings options.maxDepth ++ (checked options e).flatMap
      (account (·.within (some .trace)) (.ofNat options.maxDepth)) := by
  have hmost : (LogFilter.ofText e.filter).most recognitionTarget = some .trace ∧
      (LogFilter.ofText e.filter).most lineTarget = none ∧
      (LogFilter.ofText e.filter).most name = some .warn ∧
      (LogFilter.ofText e.filter).pattern = none := by
    rw [hfilter, ofText_tracing]
    exact ⟨rfl, rfl, rfl, rfl⟩
  obtain ⟨hrecognition, hlines, hname, hpattern⟩ := hmost
  have haccount : accountOf (LogFilter.ofText e.filter) (.ofNat options.maxDepth) =
      account (·.within (some .trace)) (.ofNat options.maxDepth) := by
    funext x
    rw [accountOf_of_pattern_none hpattern, hrecognition]
  have hwarnings : (warnings options.maxDepth).filter (LogFilter.ofText e.filter).passes =
      warnings options.maxDepth := by
    rw [warnings]
    split_ifs
    · rw [List.filter_singleton, LogFilter.passes, LogFilter.fits, hname, hpattern]
      rfl
    · rfl
  rw [log_run hrequest hlines (by rw [hname]; rfl), haccount, hwarnings]

theorem log_summing (hrequest : Request.ofArguments e.arguments = .ok (.check options))
    (hfilter : e.filter = summing) :
    (run e).log = (checked options e).map fun x =>
      (recognize (.ofNat options.maxDepth) x).lastRecord x := by
  have hmost : (LogFilter.ofText e.filter).most recognitionTarget = some .debug ∧
      (LogFilter.ofText e.filter).most lineTarget = none ∧
      (LogFilter.ofText e.filter).most name = none ∧
      (LogFilter.ofText e.filter).pattern = none := by
    rw [hfilter, ofText_summing]
    exact ⟨rfl, rfl, rfl, rfl⟩
  obtain ⟨hrecognition, hlines, hname, hpattern⟩ := hmost
  have haccount : accountOf (LogFilter.ofText e.filter) (.ofNat options.maxDepth) =
      fun x => [(recognize (.ofNat options.maxDepth) x).lastRecord x] := by
    funext x
    rw [accountOf_of_pattern_none hpattern, hrecognition, account_debug]
  have hwarnings : (warnings options.maxDepth).filter (LogFilter.ofText e.filter).passes = [] := by
    rw [warnings]
    split_ifs
    · rw [List.filter_singleton, LogFilter.passes, hname]
      rfl
    · rfl
  rw [log_run hrequest hlines (by rw [hname]; rfl), haccount, hwarnings, List.nil_append]
  exact List.map_eq_flatMap.symm

/-- A record on a recognition belongs to the account of an expression, whatever the filter is. -/
theorem mem_account_of_mem_log {r : Record}
    (hrequest : Request.ofArguments e.arguments = .ok (.check options)) (h : r ∈ (run e).log)
    (htarget : r.target = recognitionTarget) :
    ∃ x ∈ checked options e, ∃ wanted, r ∈ account wanted (.ofNat options.maxDepth) x := by
  have hne : recognitionTarget ≠ name ∧ recognitionTarget ≠ lineTarget := by decide +kernel
  have hwarnings : r ∉ warnings options.maxDepth := by
    intro hr
    rw [warnings] at hr
    split_ifs at hr
    · rw [List.mem_singleton.mp hr] at htarget
      exact hne.1 htarget.symm
    · cases hr
  have hhistory : r ∉ historyRecords e.historyPath e.history := by
    intro hr
    rcases eq_of_mem_historyRecords hr with ⟨hr, -⟩ | hr
    · exact hne.1 (htarget.symm.trans hr)
    · exact hne.2 (htarget.symm.trans hr)
  have hline : r ≠ lineRecord e.terminal := by
    rintro rfl
    exact hne.2 htarget.symm
  have haccount {x : Text} {filter : LogFilter}
      (hr : r ∈ accountOf filter (.ofNat options.maxDepth) x) :
      ∃ wanted, r ∈ account wanted (.ofNat options.maxDepth) x :=
    ⟨_, List.mem_of_mem_filter hr⟩
  rw [run_of_request hrequest] at h
  rw [checked]
  split_ifs at h ⊢ with hempty
  · simp only [interactive, List.mem_append, List.mem_filter, List.mem_flatMap,
      List.mem_singleton] at h
    rcases h with (⟨hr | hr, -⟩ | ⟨x, hx, ⟨hr, -⟩ | hr⟩) | ⟨hr, -⟩
    · exact absurd hr hwarnings
    · split_ifs at hr
      · cases hr
      · exact absurd hr hhistory
    · exact absurd hr hline
    · exact ⟨x, hx, haccount hr⟩
    · exact absurd hr hline
  · simp only [oneShot, List.mem_append, List.mem_filter, List.mem_flatMap] at h
    rcases h with ⟨hr, -⟩ | ⟨x, hx, hr⟩
    · exact absurd hr hwarnings
    · exact ⟨x, hx, haccount hr⟩

theorem plain_of_mem_log {r : Record}
    (hrequest : Request.ofArguments e.arguments = .ok (.check options)) (h : r ∈ (run e).log)
    (htarget : r.target = recognitionTarget) : Plain r.target ∧ Plain r.message := by
  have hname : Plain recognitionTarget := by decide +kernel
  obtain ⟨x, -, wanted, hmem⟩ := mem_account_of_mem_log hrequest h htarget
  exact ⟨htarget ▸ hname, (Record.plain_of_mem_account hmem).2⟩

theorem column_mem_errorLines {c : Completion} {r : Record} (h : r ∈ c.log)
    (hplain : Plain r.column) : r.column ∈ c.errorLines := by
  refine List.mem_append_left _ (List.mem_append_right _ ?_)
  exact List.mem_map.mpr ⟨r, h, hplain.visible_eq⟩

theorem errorLines_tracing (hrequest : Request.ofArguments e.arguments = .ok (.check options))
    (hfilter : e.filter = tracing) :
    (run e).errorLines = (warnings options.maxDepth).map Record.column ++
        (checked options e).flatMap (fun x =>
          (account (·.within (some .trace)) (.ofNat options.maxDepth) x).map Record.column) ∧
      InputLines.lines ((run e).errorLines.flatMap (· ++ ['\n'])) = (run e).errorLines := by
  obtain ⟨hcomplaints, herror⟩ := fields_run hrequest
  rw [hfilter, complaints_tracing] at hcomplaints
  have hlog := log_tracing hrequest hfilter
  obtain ⟨hlines, hunbroken⟩ := errorLines_of_plain hcomplaints herror fun r hr => by
    rw [hlog] at hr
    rcases List.mem_append.mp hr with hwarning | haccount
    · exact plain_of_mem_warnings hwarning
    · obtain ⟨x, -, hmem⟩ := List.mem_flatMap.mp haccount
      exact plain_of_mem_log hrequest (hlog ▸ hr) (Record.plain_of_mem_account hmem).1
  refine ⟨?_, hunbroken⟩
  rw [hlines, hlog, List.map_append, List.map_flatMap]

theorem errorLines_summing (hrequest : Request.ofArguments e.arguments = .ok (.check options))
    (hfilter : e.filter = summing) :
    (run e).errorLines = (checked options e).map (fun x =>
        ((recognize (.ofNat options.maxDepth) x).lastRecord x).column) ∧
      InputLines.lines ((run e).errorLines.flatMap (· ++ ['\n'])) = (run e).errorLines := by
  obtain ⟨hcomplaints, herror⟩ := fields_run hrequest
  rw [hfilter, complaints_summing] at hcomplaints
  have hlog := log_summing hrequest hfilter
  obtain ⟨hlines, hunbroken⟩ := errorLines_of_plain hcomplaints herror fun r hr => by
    have hmem := hr
    rw [hlog] at hmem
    obtain ⟨x, -, rfl⟩ := List.mem_map.mp hmem
    exact plain_of_mem_log hrequest hr rfl
  refine ⟨?_, hunbroken⟩
  rw [hlines, hlog, List.map_map]
  rfl

/-- With a filter for recognitions the error output of a run is the warning, if the depth asked for
is too great, and then what each expression is due, in order: its account, or only how its
recognition ended. A record on a recognition is one plain line whatever the expression is and
whatever else is let through, and the last one of each gives the expression back. The filter changes
neither the output nor the status nor the history. -/
theorem log_run_concatenates (e : Environment) (options : Options)
    (hrequest : Request.ofArguments e.arguments = .ok (.check options)) :
    let limit := NestingLimit.ofNat options.maxDepth
    let expressions := checked options e
    let filtered (filter : Text) := run { e with filter := filter }
    let traced := (filtered tracing).errorLines
    let summed := (filtered summing).errorLines
    (options.expressions ≠ [] → expressions = options.expressions) ∧
    (options.expressions = [] →
      (∀ line ∈ InputLines.untilEmpty e.input, LineEditing.edited? line = some line) →
      expressions = InputLines.untilEmpty e.input) ∧
    traced = (if 256 < options.maxDepth then
        ["WARN  exprcheck] --max-depth ".toList ++ Text.ofNat options.maxDepth ++
          " lowered to 256".toList]
      else []) ++
      expressions.flatMap (fun x => (account (·.within (some .trace)) limit x).map Record.column) ∧
    summed = expressions.map (fun x =>
      "DEBUG descent::parser] ".toList ++ (recognize limit x).summary x) ∧
    InputLines.lines (traced.flatMap (· ++ ['\n'])) = traced ∧
    InputLines.lines (summed.flatMap (· ++ ['\n'])) = summed ∧
    (∀ filter, ∀ r ∈ (filtered filter).log, r.target = recognitionTarget →
      r.column ∈ (filtered filter).errorLines ∧ Plain r.column) ∧
    summed.map Quoted.first? = expressions.map some ∧
    (∀ x, ∀ r ∈ account (·.within (some .trace)) limit x, r.level = .debug →
      Quoted.first? r.column = some x) ∧
    ∀ filter, (filtered filter).output = (run e).output ∧
      (filtered filter).status = (run e).status ∧ (filtered filter).history = (run e).history := by
  intro limit expressions filtered traced summed
  obtain ⟨htraced, hunbroken⟩ := errorLines_tracing (e := { e with filter := tracing }) hrequest rfl
  obtain ⟨hsummed, hunbroken'⟩ :=
    errorLines_summing (e := { e with filter := summing }) hrequest rfl
  refine ⟨fun hsome => ?_, fun hnone hedited => ?_, ?_, ?_, hunbroken, hunbroken',
    fun filter r hr htarget => ?_, ?_, fun x r hr hlevel => ?_, run_filter e⟩
  · exact if_neg (by simpa using hsome)
  · have hread : LinesRead.ofInput e.input = ⟨InputLines.untilEmpty e.input, false⟩ :=
      LinesRead.ofLines_of_edited hedited
    change checked options e = _
    rw [checked, hnone, hread]
    rfl
  · rw [← column_warnings]
    exact htraced
  · refine hsummed.trans (List.map_congr_left fun x _ => ?_)
    exact Attempt.column_lastRecord _ x
  · obtain ⟨hname, hmessage⟩ :=
      plain_of_mem_log (e := { e with filter := filter }) hrequest hr htarget
    have hcolumn := Record.plain_column hname hmessage
    exact ⟨column_mem_errorLines hr hcolumn, hcolumn⟩
  · change List.map Quoted.first? (run { e with filter := summing }).errorLines = _
    rw [hsummed, List.map_map]
    exact List.map_congr_left fun x _ => Attempt.first?_lastRecord _ x
  · rw [eq_lastRecord_of_mem_account hr hlevel]
    exact Attempt.first?_lastRecord _ x

/-- Expressions that would forge a line of the log if they stood in it as they are. -/
theorem log_run_concatenates_of_forged_line :
    let e : Environment := ⟨["--max-depth".toList, "300".toList, "1\nDEBUG x".toList,
      "\"\r\\\x1b[0m".toList, "y".toList], [], "xterm".toList, [], none, none⟩
    let options : Options := ⟨false, 300, false, ["1\nDEBUG x".toList,
      "\"\r\\\x1b[0m".toList, "y".toList]⟩
    let limit := NestingLimit.ofNat options.maxDepth
    let expressions := checked options e
    let filtered (filter : Text) := run { e with filter := filter }
    let traced := (filtered tracing).errorLines
    let summed := (filtered summing).errorLines
    Request.ofArguments e.arguments = .ok (.check options) ∧
    summed = ["DEBUG descent::parser] rejected \"1\\nDEBUG x\": syntax mismatch".toList,
      "DEBUG descent::parser] rejected \"\\\"\\r\\\\\\u\x7b1b\x7d[0m\": syntax mismatch".toList,
      "DEBUG descent::parser] accepted \"y\" (1 tokens)".toList] ∧
    traced.head? = some "WARN  exprcheck] --max-depth 300 lowered to 256".toList ∧
    (options.expressions ≠ [] → expressions = options.expressions) ∧
    (options.expressions = [] →
      (∀ line ∈ InputLines.untilEmpty e.input, LineEditing.edited? line = some line) →
      expressions = InputLines.untilEmpty e.input) ∧
    traced = (if 256 < options.maxDepth then
        ["WARN  exprcheck] --max-depth ".toList ++ Text.ofNat options.maxDepth ++
          " lowered to 256".toList]
      else []) ++
      expressions.flatMap (fun x => (account (·.within (some .trace)) limit x).map Record.column) ∧
    summed = expressions.map (fun x =>
      "DEBUG descent::parser] ".toList ++ (recognize limit x).summary x) ∧
    InputLines.lines (traced.flatMap (· ++ ['\n'])) = traced ∧
    InputLines.lines (summed.flatMap (· ++ ['\n'])) = summed ∧
    (∀ filter, ∀ r ∈ (filtered filter).log, r.target = recognitionTarget →
      r.column ∈ (filtered filter).errorLines ∧ Plain r.column) ∧
    summed.map Quoted.first? = expressions.map some ∧
    (∀ x, ∀ r ∈ account (·.within (some .trace)) limit x, r.level = .debug →
      Quoted.first? r.column = some x) ∧
    ∀ filter, (filtered filter).output = (run e).output ∧
      (filtered filter).status = (run e).status ∧ (filtered filter).history = (run e).history := by
  intro e options limit expressions filtered traced summed
  have hrequest : Request.ofArguments e.arguments = .ok (.check options) := by decide +kernel
  exact ⟨hrequest, by decide +kernel, by decide +kernel, log_run_concatenates e options hrequest⟩

end Command

end ArithGrammar
