import ArithGrammar.Command
import ArithGrammar.Proofs.EditedLines
import Mathlib.Data.List.Destutter

/-!
# Runs that share a history

The history of many runs is that of a single session which reads all their lines
(`Command.history_composes`). A file that is written gives back the entries it was written for,
whatever backslashes they have in them (`History.ofFile_toFile`), and the entries are the last of
the lines of which none repeats the one before it (`History.foldl_add`). So it makes no difference
where a session ends and the next one goes on (`History.afterSession_afterSession`).
-/
namespace ArithGrammar

namespace History
variable {entries ls more : List Text} {entry line : Text}

theorem escape_cons (c : Char) (entry : Text) : escape (c :: entry) =
    (if c = '\\' then ['\\', '\\'] else if c = '\n' then ['\\', 'n'] else [c]) ++ escape entry :=
  List.flatMap_cons

theorem unescape?_cons {c : Char} (hc : c ≠ '\\') (cs : Text) :
    unescape? (c :: cs) = (unescape? cs).map (c :: ·) := by
  rw [unescape?]
  · exact if_neg hc
  · rintro cs rfl
    exact absurd rfl hc
  · rintro cs rfl
    exact absurd rfl hc

theorem unescape?_escape (entry : Text) : unescape? (escape entry) = some entry := by
  induction entry with
  | nil => rfl
  | cons c entry ih =>
      rw [escape_cons]
      split_ifs with hslash hfeed
      · rw [List.cons_append, List.singleton_append, unescape?, ih, hslash]
        rfl
      · rw [List.cons_append, List.singleton_append, unescape?, ih, hfeed]
        rfl
      · rw [List.singleton_append, unescape?_cons hslash, ih]
        rfl

theorem lineFeed_not_mem_escape (entry : Text) : '\n' ∉ escape entry := by
  intro h
  obtain ⟨c, -, hc⟩ := List.mem_flatMap.mp h
  split_ifs at hc with hslash hfeed
  · revert hc
    decide
  · revert hc
    decide
  · exact hfeed (List.mem_singleton.mp hc).symm

theorem getLast?_escape (h : (escape entry).getLast? = some '\r') :
    entry.getLast? = some '\r' := by
  obtain rfl | ⟨front, c, rfl⟩ := entry.eq_nil_or_concat
  · cases h
  · rw [List.concat_eq_append, escape, List.flatMap_append, List.flatMap_singleton] at h
    rw [List.concat_eq_append, List.getLast?_concat]
    split_ifs at h
    · rw [List.getLast?_append_of_ne_nil _ (List.cons_ne_nil _ _)] at h
      cases h
    · rw [List.getLast?_append_of_ne_nil _ (List.cons_ne_nil _ _)] at h
      cases h
    · rwa [List.getLast?_concat] at h

/-- A file gives back the entries that it was written for. -/
theorem ofFile_toFile (h : ∀ entry ∈ entries, entry.getLast? ≠ some '\r') :
    ofFile (toFile entries) = entries.foldl add [] := by
  have hlines : InputLines.lines (toFile entries) = header :: entries.map escape := by
    refine InputLines.lines_flatMap fun line hline => ?_
    rcases List.mem_cons.mp hline with rfl | hline
    · decide +kernel
    · obtain ⟨entry, hentry, rfl⟩ := List.mem_map.mp hline
      exact ⟨lineFeed_not_mem_escape entry, mt getLast?_escape (h entry hentry)⟩
  have hread (entry : Text) : unescape (escape entry) = entry := by
    rw [unescape, unescape?_escape, Option.getD_some]
  rw [ofFile, hlines]
  simp only [if_true, List.map_map, Function.comp_def, hread, List.map_id']

def latest (entries : List Text) : List Text := entries.drop (entries.length - capacity)

theorem add_of_isNew (h : isNew entries line = true) :
    add entries line = latest (entries ++ [line]) := by
  rw [add, if_pos h, latest, List.length_append, List.length_singleton]

theorem isNew_iff (hne : line ≠ []) : isNew entries line = true ↔ entries.getLast? ≠ some line := by
  rw [isNew, Bool.and_eq_true, decide_eq_true_iff, and_iff_right]
  simpa using hne

theorem getLast?_latest (entries : List Text) : (latest entries).getLast? = entries.getLast? := by
  rw [latest, List.getLast?_drop]
  split_ifs with h
  · have hcapacity : 0 < capacity := by decide
    have hnil : entries = [] := List.eq_nil_of_length_eq_zero (by omega)
    rw [hnil]
    rfl
  · rfl

theorem latest_latest_concat (entries : List Text) (line : Text) :
    latest (latest entries ++ [line]) = latest (entries ++ [line]) := by
  have hcapacity : 0 < capacity := by decide
  by_cases hle : entries.length ≤ capacity
  · rw [latest.eq_def entries, Nat.sub_eq_zero_of_le hle, List.drop_zero]
  · have hlength : (latest entries).length = capacity := by
      rw [latest, List.length_drop]
      omega
    rw [latest, latest.eq_def (entries ++ [line]), List.length_append, List.length_append, hlength,
      List.length_singleton, Nat.add_sub_cancel_left,
      List.drop_append_of_le_length (by omega), List.drop_append_of_le_length (by omega), latest,
      List.drop_drop]
    congr 2
    omega

theorem latest_latest (entries : List Text) : latest (latest entries) = latest entries := by
  have hlength : (latest entries).length ≤ capacity := by
    rw [latest, List.length_drop]
    omega
  rw [latest.eq_def (latest entries), Nat.sub_eq_zero_of_le hlength, List.drop_zero]

theorem destutter'_concat (first line : Text) (ls : List Text) :
    (ls ++ [line]).destutter' (· ≠ ·) first =
      if (ls.destutter' (· ≠ ·) first).getLast? = some line then ls.destutter' (· ≠ ·) first
      else ls.destutter' (· ≠ ·) first ++ [line] := by
  induction ls generalizing first with
  | nil =>
      rw [List.nil_append, List.destutter'_singleton, List.destutter'_nil]
      by_cases h : first = line <;> simp [h]
  | cons next ls ih =>
      rw [List.cons_append]
      by_cases h : first ≠ next
      · rw [List.destutter'_cons_pos _ h, List.destutter'_cons_pos _ h, ih, List.getLast?_cons]
        have hlast : ((ls.destutter' (· ≠ ·) next).getLast?.getD first = line) ↔
            (ls.destutter' (· ≠ ·) next).getLast? = some line := by
          cases hd : (ls.destutter' (· ≠ ·) next).getLast? with
          | none => exact absurd (List.getLast?_eq_none_iff.mp hd) (List.destutter'_ne_nil ls _)
          | some last => simp
        simp only [Option.some.injEq, hlast]
        split_ifs <;> rfl
      · rw [List.destutter'_cons_neg _ h, List.destutter'_cons_neg _ h, ih]

/-- A line that does not repeat the one before it stays behind the others. -/
theorem destutter_concat (ls : List Text) (line : Text) :
    (ls ++ [line]).destutter (· ≠ ·) =
      if (ls.destutter (· ≠ ·)).getLast? = some line then ls.destutter (· ≠ ·)
      else ls.destutter (· ≠ ·) ++ [line] := by
  cases ls with
  | nil => rfl
  | cons first ls => exact destutter'_concat first line ls

/-- The entries are the last of the lines of which none repeats the one before it. -/
theorem foldl_add (hne : ∀ line ∈ ls, line ≠ []) :
    ls.foldl add [] = latest (ls.destutter (· ≠ ·)) := by
  induction ls using List.reverseRecOn with
  | nil => rfl
  | append_singleton ls line ih =>
      rw [List.foldl_concat, ih fun l hl => hne l (List.mem_append_left _ hl), destutter_concat]
      have hline : line ≠ [] := hne line (List.mem_append_right _ (List.mem_singleton_self line))
      have hnew : isNew (latest (ls.destutter (· ≠ ·))) line = true ↔
          (ls.destutter (· ≠ ·)).getLast? ≠ some line := by
        rw [isNew_iff hline, getLast?_latest]
      split_ifs with hlast
      · rw [add_of_not_isNew]
        rw [← Bool.not_eq_true, hnew]
        exact not_not.mpr hlast
      · rw [add_of_isNew (hnew.mpr hlast), latest_latest_concat]

theorem mem_of_mem_latest_destutter (h : entry ∈ latest (ls.destutter (· ≠ ·))) : entry ∈ ls :=
  ((List.drop_sublist _ _).trans (List.destutter_sublist _ ls)).subset h

theorem foldl_add_foldl_add (hne : ∀ line ∈ ls, line ≠ []) :
    (ls.foldl add []).foldl add [] = ls.foldl add [] := by
  have hchain : (latest (ls.destutter (· ≠ ·))).IsChain (· ≠ ·) :=
    (List.isChain_destutter _ ls).suffix (List.drop_suffix _ _)
  rw [foldl_add hne, foldl_add fun line hline => hne line (mem_of_mem_latest_destutter hline),
    List.destutter_of_isChain _ _ hchain, latest_latest]

theorem foldl_add_of_not_any (h : ls.any (isNew entries) = false) :
    ls.foldl add entries = entries := by
  induction ls with
  | nil => rfl
  | cons line ls ih =>
      rw [List.any_cons, Bool.or_eq_false_iff] at h
      rw [List.foldl_cons, add_of_not_isNew h.1, ih h.2]

theorem afterSession_none (hne : ∀ line ∈ ls, line ≠ []) :
    afterSession none ls = if ls = [] then none else some (toFile (ls.foldl add [])) := by
  cases ls with
  | nil => rfl
  | cons line ls =>
      have hnew : isNew [] line = true := (isNew_iff (hne line List.mem_cons_self)).mpr nofun
      rw [if_neg (List.cons_ne_nil line ls), afterSession, Option.elim_none, List.any_cons, hnew,
        Bool.true_or, if_pos rfl]

/-- A session goes on where the one before it ended. -/
theorem afterSession_afterSession (hne : ∀ line ∈ ls ++ more, line ≠ [])
    (hreturn : ∀ line ∈ ls, line.getLast? ≠ some '\r') :
    afterSession (afterSession none ls) more = afterSession none (ls ++ more) := by
  obtain ⟨hls, hmore⟩ := List.forall_mem_append.mp hne
  cases ls with
  | nil => rfl
  | cons first ls =>
      have hentries : ofFile (toFile ((first :: ls).foldl add [])) =
          (first :: ls).foldl add [] := by
        rw [ofFile_toFile, foldl_add_foldl_add hls]
        intro entry hentry
        rw [foldl_add hls] at hentry
        exact hreturn entry (mem_of_mem_latest_destutter hentry)
      rw [afterSession_none hls, if_neg (List.cons_ne_nil first ls), afterSession_none hne,
        if_neg (List.append_ne_nil_of_left_ne_nil (List.cons_ne_nil first ls) more), afterSession,
        Option.elim_some, hentries, List.foldl_append]
      split_ifs with hnew
      · rfl
      · rw [foldl_add_of_not_any (eq_false_of_ne_true hnew)]

end History

namespace Command

/-- Whether a run with these arguments reads lines that it keeps. -/
def keepsLines (arguments : List Text) : Bool :=
  match Request.ofArguments arguments with
  | .ok (.check options) => options.expressions.isEmpty && !options.noHistory
  | _ => false

/-- The lines that a run puts on record. It keeps none if it is broken off. -/
def recorded (e : Environment) : List Text :=
  let read := LinesRead.ofInput e.input
  if keepsLines e.arguments && !read.brokenOff then read.lines else []

/-- The history file after the runs, where there is none at first. -/
def historyAfter (runs : List Environment) : Option Text :=
  runs.foldl (fun history e => (run { e with history := history }).history) none

theorem history_run (e : Environment) :
    (run e).history = History.afterSession e.history (recorded e) := by
  rw [run, recorded, keepsLines]
  cases Request.ofArguments e.arguments with
  | error error => rfl
  | ok request =>
      cases request with
      | help => rfl
      | version => rfl
      | check options =>
          cases hexpressions : options.expressions.isEmpty with
          | false => simp only [hexpressions]; rfl
          | true =>
              simp only [hexpressions, if_true, interactive, Bool.true_and]
              cases options.noHistory <;> cases (LinesRead.ofInput e.input).brokenOff <;> rfl

theorem mem_recorded {e : Environment} {line : Text} (h : line ∈ recorded e) :
    line ≠ [] ∧ '\n' ∉ line ∧ LineEditing.backspace ∉ line := by
  rw [recorded] at h
  split_ifs at h
  · exact LinesRead.mem_ofInput h
  · cases h

/-- Where editing changes nothing, the lines up to the first empty one are put on record. -/
theorem recorded_of_edited {e : Environment}
    (h : ∀ line ∈ InputLines.untilEmpty e.input, LineEditing.edited? line = some line) :
    recorded e = if keepsLines e.arguments then InputLines.untilEmpty e.input else [] := by
  have hread : LinesRead.ofInput e.input = ⟨InputLines.untilEmpty e.input, false⟩ :=
    LinesRead.ofLines_of_edited h
  rw [recorded, hread]
  simp only [Bool.not_false, Bool.and_true]

/-- The runs leave what a first session leaves that reads their lines. -/
theorem historyAfter_eq {runs : List Environment}
    (hreturn : ∀ e ∈ runs, ∀ line ∈ recorded e, line.getLast? ≠ some '\r') :
    historyAfter runs = History.afterSession none (runs.flatMap recorded) := by
  induction runs using List.reverseRecOn with
  | nil => rfl
  | append_singleton runs e ih =>
      have hlines : ∀ line ∈ runs.flatMap recorded ++ recorded e, line ≠ [] := by
        intro line hline
        rcases List.mem_append.mp hline with hline | hline
        · obtain ⟨e', -, hline⟩ := List.mem_flatMap.mp hline
          exact (mem_recorded hline).1
        · exact (mem_recorded hline).1
      have hends : ∀ line ∈ runs.flatMap recorded, line.getLast? ≠ some '\r' := by
        intro line hline
        obtain ⟨e', he', hline⟩ := List.mem_flatMap.mp hline
        exact hreturn e' (List.mem_append_left _ he') line hline
      rw [historyAfter, List.foldl_concat, history_run, ← historyAfter,
        ih fun e' he' => hreturn e' (List.mem_append_left _ he'), List.flatMap_append,
        List.flatMap_singleton]
      exact History.afterSession_afterSession hlines hends

/-- However many runs share a history, and whatever else they do, it is in the end that of a single
session which reads all the lines they put on record, written one below the other. There is no file
if there is none of them. Otherwise it holds, and gives back, the last of the lines of which none
repeats the one before it. A run puts its lines up to the first empty one on record as they are,
if it keeps lines and editing changes none of them. -/
theorem history_composes (runs : List Environment)
    (hreturn : ∀ e ∈ runs, ∀ line ∈ recorded e, line.getLast? ≠ some '\r') :
    let lines := runs.flatMap recorded
    let file := historyAfter runs
    let entries := History.latest (lines.destutter (· ≠ ·))
    (∀ e, keepsLines e.arguments = true → e.input = lines.flatMap (· ++ ['\n']) →
      e.history = none → (run e).history = file) ∧
    (lines = [] → file = none) ∧
    (lines ≠ [] → file = some (History.toFile entries)) ∧
    file.elim [] History.ofFile = entries ∧
    ∀ e : Environment,
      (∀ line ∈ InputLines.untilEmpty e.input, LineEditing.edited? line = some line) →
      recorded e = if keepsLines e.arguments then InputLines.untilEmpty e.input else [] := by
  intro lines file entries
  have hlines : ∀ line ∈ lines, line ≠ [] ∧ '\n' ∉ line ∧ LineEditing.backspace ∉ line := by
    intro line hline
    obtain ⟨e, -, hline⟩ := List.mem_flatMap.mp hline
    exact mem_recorded hline
  have hends : ∀ line ∈ lines, line.getLast? ≠ some '\r' := by
    intro line hline
    obtain ⟨e, he, hline⟩ := List.mem_flatMap.mp hline
    exact hreturn e he line hline
  have hfile : file = if lines = [] then none else some (History.toFile entries) := by
    rw [show entries = lines.foldl History.add [] from
        (History.foldl_add fun line hline => (hlines line hline).1).symm,
      ← History.afterSession_none fun line hline => (hlines line hline).1]
    exact historyAfter_eq hreturn
  refine ⟨fun e hkeeps hinput hnone => ?_, fun hnil => ?_, fun hne => ?_, ?_,
    fun e => recorded_of_edited⟩
  · have hrecorded : recorded e = lines := by
      rw [recorded, hinput, LinesRead.ofInput_flatMap hlines hends, hkeeps]
      rfl
    rw [history_run, hrecorded, hnone]
    exact (historyAfter_eq hreturn).symm
  · rw [hfile, if_pos hnil]
  · rw [hfile, if_neg hne]
  · rw [hfile]
    split_ifs with hnil
    · exact (congrArg (fun ls : List Text => History.latest (ls.destutter (· ≠ ·))) hnil).symm
    · have hends' : ∀ entry ∈ entries, entry.getLast? ≠ some '\r' := fun entry hentry =>
        hends entry (History.mem_of_mem_latest_destutter hentry)
      rw [Option.elim_some, History.ofFile_toFile hends']
      have hagain := History.foldl_add_foldl_add fun line hline => (hlines line hline).1
      rwa [History.foldl_add fun line hline => (hlines line hline).1] at hagain

/-- Lines with backslashes, one that looks like the first line of a file and is repeated by the next
session, and runs that keep nothing in between. -/
theorem history_composes_of_repeated_line :
    let runs : List Environment :=
      [⟨["-t".toList], "a\\b\r\n#V2\n\n9\n".toList, [], [], none, History.fileName⟩,
        ⟨["1+2".toList, "(x".toList], "3\n".toList, [], [], none, History.fileName⟩,
        ⟨["--no-history".toList], "4\n".toList, [], [], none, History.fileName⟩,
        ⟨["--max-depth".toList], "5\n".toList, [], [], none, History.fileName⟩,
        ⟨["x".toList, "--help".toList], "6\n".toList, [], [], none, History.fileName⟩,
        ⟨[], "#V2\n \n\\n".toList, [], [], none, History.fileName⟩]
    let lines := runs.flatMap recorded
    let file := historyAfter runs
    let entries := History.latest (lines.destutter (· ≠ ·))
    (∀ e ∈ runs, ∀ line ∈ recorded e, line.getLast? ≠ some '\r') ∧
    lines = ["a\\b".toList, "#V2".toList, "#V2".toList, " ".toList, "\\n".toList] ∧
    file = some "#V2\na\\\\b\n#V2\n \n\\\\n\n".toList ∧
    (∀ e, keepsLines e.arguments = true → e.input = lines.flatMap (· ++ ['\n']) →
      e.history = none → (run e).history = file) ∧
    (lines = [] → file = none) ∧
    (lines ≠ [] → file = some (History.toFile entries)) ∧
    file.elim [] History.ofFile = entries ∧
    ∀ e : Environment,
      (∀ line ∈ InputLines.untilEmpty e.input, LineEditing.edited? line = some line) →
      recorded e = if keepsLines e.arguments then InputLines.untilEmpty e.input else [] := by
  intro runs lines file entries
  have hreturn : ∀ e ∈ runs, ∀ line ∈ recorded e, line.getLast? ≠ some '\r' := by decide +kernel
  exact ⟨hreturn, by decide +kernel, by decide +kernel, history_composes runs hreturn⟩

end Command

end ArithGrammar
