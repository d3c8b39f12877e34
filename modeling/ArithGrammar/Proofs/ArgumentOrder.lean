import ArithGrammar.Proofs.PlainArguments
import ArithGrammar.Proofs.SessionOutput
import Mathlib.Data.List.Perm.Basic
import Mathlib.Data.List.Nodup
import Mathlib.Data.List.Pairwise

/-!
# Options may stand anywhere

Options and expressions may be mixed in any way. What they ask for is told by the options together
and by the expressions in order (`Settled.asked`), and reading them in any mixture comes to it
(`Settled.read_mixed`): an option adds what it says to what is settled, an expression is put behind
the others, and a depth that is pending waits for whatever comes next. So a run is the same as with
all options in front and the expressions behind the end of the options
(`Command.run_takes_all_or_nothing`).
-/
namespace ArithGrammar
open Argument (endOfOptions depthName isOption isOption_eq_false_iff)

/-- An option among the arguments: letters behind one hyphen, a long name, or a depth with a value
in an argument of its own or behind an equals sign. -/
inductive WrittenOption where
  | letters (switches : List Switch) (hsome : switches ≠ [])
      (hletter : ∀ switch ∈ switches, switch.letter? ≠ none)
  | long (switch : Switch) (hplain : switch ≠ .maxDepth)
  | depth (value : Text) (n : Nat) (hvalue : Numeral.value value = .ok n)
  | depthAssigned (value : Text) (n : Nat) (hvalue : Numeral.value value = .ok n)

namespace WrittenOption

def words : WrittenOption → List Text
  | letters switches _ _ => ['-' :: switches.filterMap Switch.letter?]
  | long switch _ => ['-' :: '-' :: switch.longName]
  | depth value _ _ => [depthName, value]
  | depthAssigned value _ _ => [depthName ++ '=' :: value]

def switches : WrittenOption → List Switch
  | letters switches _ _ => switches
  | long switch _ => [switch]
  | depth .. | depthAssigned .. => [.maxDepth]

def depth? : WrittenOption → Option Nat
  | letters .. | long .. => none
  | depth _ n _ | depthAssigned _ n _ => some n

theorem mem_switches_of_depth? {o : WrittenOption} {n : Nat} (h : o.depth? = some n) :
    Switch.maxDepth ∈ o.switches := by
  cases o with
  | letters | long => cases h
  | depth | depthAssigned => exact List.mem_singleton_self _

/-- The arguments hold the options and the expressions, each of them in order, in any mixture. -/
inductive Mixed : List WrittenOption → List Text → List Text → Prop
  | nil : Mixed [] [] []
  | option {os : List WrittenOption} {xs arguments : List Text} (o : WrittenOption)
      (h : Mixed os xs arguments) : Mixed (o :: os) xs (o.words ++ arguments)
  | expression {os : List WrittenOption} {xs arguments : List Text} (x : Text)
      (h : Mixed os xs arguments) : Mixed os (x :: xs) (x :: arguments)

theorem Mixed.of_options (os : List WrittenOption) : Mixed os [] (os.flatMap words) := by
  induction os with
  | nil => exact .nil
  | cons o os ih =>
      rw [List.flatMap_cons]
      exact .option o ih

end WrittenOption

namespace Switch

def request? : Switch → Option Request
  | help => some .help
  | version => some .version
  | tokens | maxDepth | noHistory => none

theorem ofLetter?_eq_some {switch : Switch} {c : Char} (h : switch.letter? = some c) :
    ofLetter? c = some switch := by
  cases switch <;> cases h <;> decide

end Switch

namespace Settled
variable {s t : Settled} {os : List WrittenOption} {xs : List Text}

def has (s : Settled) : Switch → Bool
  | .tokens => s.tokens
  | .maxDepth => s.maxDepth.isSome
  | .noHistory => s.noHistory
  | .help | .version => false

/-- What is settled with some more switches, and with a depth if there is none yet. -/
def also (s : Settled) (switches : List Switch) (depth? : Option Nat) : Settled :=
  { s with
    tokens := s.tokens || decide (.tokens ∈ switches)
    maxDepth := s.maxDepth.or depth?
    noHistory := s.noHistory || decide (.noHistory ∈ switches) }

@[simp] theorem also_nil (s : Settled) : s.also [] none = s := by
  simp [also]

@[simp] theorem also_also (s : Settled) (switches switches' : List Switch)
    (depth? depth?' : Option Nat) : (s.also switches depth?).also switches' depth?' =
      s.also (switches ++ switches') (depth?.or depth?') := by
  simp [also, Bool.or_assoc, Option.or_assoc]

theorem has_also {switches : List Switch} {depth? : Option Nat} {switch : Switch}
    (hhas : s.has switch = false) (hmem : switch ∉ switches)
    (hdepth : switch = .maxDepth → depth? = none) :
    (s.also switches depth?).has switch = false := by
  cases switch with
  | tokens | noHistory => simp_all [has, also]
  | maxDepth => simp_all [has, also]
  | help | version => rfl

theorem settle_nothing (h : s.pending = .nothing) : s.settle = .ok s := by
  rw [settle, h]

theorem takeSwitch_of_has_eq_false {switch : Switch} (hhas : s.has switch = false)
    (hplain : switch ≠ .maxDepth) : s.takeSwitch switch =
      .ok (switch.request?.elim (.inl (s.also [switch] none)) .inr) := by
  cases switch with
  | tokens | noHistory =>
      simp only [has] at hhas
      simp [takeSwitch, hhas, Switch.request?, also]
  | maxDepth => exact absurd rfl hplain
  | help | version => rfl

theorem takeLetters_of_has_eq_false {switches : List Switch} (hnothing : s.pending = .nothing)
    (hhas : ∀ switch ∈ switches, s.has switch = false) (hnodup : switches.Nodup)
    (hletter : ∀ switch ∈ switches, switch.letter? ≠ none) :
    s.takeLetters (switches.filterMap Switch.letter?) =
      .ok ((switches.findSome? Switch.request?).elim (.inl (s.also switches none)) .inr) := by
  induction switches generalizing s with
  | nil => rw [also_nil]; rfl
  | cons switch switches ih =>
      rw [List.forall_mem_cons] at hhas hletter
      rw [List.nodup_cons] at hnodup
      obtain ⟨c, hc⟩ := Option.ne_none_iff_exists'.mp hletter.1
      have hplain : switch ≠ .maxDepth := by
        rintro rfl
        cases hc
      rw [List.filterMap_cons_some hc, takeLetters_cons (Switch.ofLetter?_eq_some hc),
        settle_nothing hnothing]
      change (s.takeSwitch switch).bind _ = _
      rw [takeSwitch_of_has_eq_false hhas.1 hplain, List.findSome?_cons]
      cases hrequest : switch.request? with
      | some r => rfl
      | none =>
          change (s.also [switch] none).takeLetters _ = _
          rw [ih (s := s.also [switch] none) hnothing _ hnodup.2 hletter.2, also_also]
          · rfl
          · intro switch' hmem
            refine has_also (hhas.2 switch' hmem) ?_ fun _ => rfl
            rw [List.mem_singleton]
            rintro rfl
            exact hnodup.1 hmem

theorem settle_settled (h : s.settle = .ok t) : t.settle = .ok t :=
  settle_nothing (settle_ok h).2.1

theorem takeLetters_of_settle (h : s.settle = .ok t) (c : Char) (cs : Text) :
    s.takeLetters (c :: cs) = t.takeLetters (c :: cs) := by
  cases hswitch : Switch.ofLetter? c with
  | none => rw [takeLetters, takeLetters, hswitch]
  | some switch =>
      rw [takeLetters_cons hswitch, takeLetters_cons hswitch, h, settle_settled h]

theorem takeLong_of_settle (h : s.settle = .ok t) (name : Text) (value? : Option Text) :
    s.takeLong name value? = t.takeLong name value? := by
  unfold takeLong
  rw [h, settle_settled h]

theorem takePlain_of_settle (h : s.settle = .ok t) (argument : Text) :
    s.takePlain argument = .ok { t with expressions := t.expressions ++ [argument] } := by
  unfold takePlain
  split
  next hawaited => cases (settle_ok h).2.2 hawaited
  · rw [h]
    rfl

theorem takeArgument_of_settle (h : s.settle = .ok t) (argument : Text) :
    s.takeArgument argument = t.takeArgument argument := by
  unfold takeArgument
  split
  · split
    · exact takeLong_of_settle h _ _
    · exact takeLong_of_settle h _ _
  · exact takeLetters_of_settle h _ _
  · rw [takePlain_of_settle h, takePlain_of_settle (settle_settled h)]

/-- Whatever comes next finds what is pending settled, if it is no value that is awaited. -/
theorem read_of_settle (h : s.settle = .ok t) (arguments : List Text) :
    s.read arguments = t.read arguments := by
  have hfinish : s.finish = t.finish := by rw [finish, finish, h, settle_settled h]
  cases arguments with
  | nil => exact hfinish
  | cons argument rest =>
      by_cases hend : argument = endOfOptions
      · rw [hend, read_end, read_end]
        cases rest with
        | nil => exact hfinish
        | cons argument rest => rw [takeRest, takeRest, h, settle_settled h]
      · rw [read_cons hend, read_cons hend, takeArgument_of_settle h]

/-- What is to be checked if no more options come, with more expressions. -/
def options (s : Settled) (xs : List Text) : Options :=
  ⟨s.tokens, s.maxDepth.getD maxNesting, s.noHistory, s.expressions ++ xs⟩

/-- The rest of an argument list that has no options is taken for expressions. -/
def Ends (rest xs : List Text) : Prop :=
  ∀ s : Settled, s.pending = .nothing → s.read rest = .ok (.check (s.options xs))

theorem ends_nil : Ends [] [] := by
  intro s hnothing
  change s.settle.map _ = _
  rw [settle_nothing hnothing, options, List.append_nil]
  rfl

theorem takeRest_of_nothing (hnothing : s.pending = .nothing) (rest : List Text) :
    s.takeRest rest = .ok { s with expressions := s.expressions ++ rest } := by
  induction rest generalizing s with
  | nil => rw [List.append_nil]; rfl
  | cons argument rest ih =>
      rw [takeRest, settle_nothing hnothing]
      refine (ih (by exact hnothing)).trans ?_
      rw [List.append_assoc]
      rfl

theorem ends_endOfOptions (xs : List Text) : Ends (endOfOptions :: xs) xs := by
  intro s hnothing
  rw [read_end, takeRest_of_nothing hnothing]
  change { s with expressions := s.expressions ++ xs }.read [] = _
  rw [ends_nil { s with expressions := s.expressions ++ xs } hnothing, options, List.append_nil]
  rfl

theorem read_expression {x : Text} (hnothing : s.pending = .nothing) (hx : isOption x = false)
    (rest : List Text) :
    s.read (x :: rest) = { s with expressions := s.expressions ++ [x] }.read rest := by
  have hend : x ≠ endOfOptions := by
    rintro rfl
    cases hx
  rw [read_cons hend, takeArgument_of_plain hx, takePlain_of_settle (settle_nothing hnothing)]
  rfl

theorem isOption_of_value {value : Text} {n : Nat} (h : Numeral.value value = .ok n) :
    isOption value = false := by
  rw [isOption_eq_false_iff]
  intro hhyphen
  match value with
  | [] => cases hhyphen
  | c :: cs =>
      rw [List.head?_cons, Option.some.injEq] at hhyphen
      subst hhyphen
      cases h

theorem takeArgument_long (s : Settled) (switch : Switch) :
    s.takeArgument ('-' :: '-' :: switch.longName) = s.settle.bind (·.takeSwitch switch) := by
  have hname : switch.longName.dropWhile (· ≠ '=') = [] := by cases switch <;> rfl
  rw [takeArgument, hname]
  unfold takeLong
  rw [Switch.ofLongName?_longName]
  cases switch <;> rfl

theorem takeDepth_of_has_eq_false {value : Text} {n : Nat} (hnothing : s.pending = .nothing)
    (hhas : s.has .maxDepth = false) (hvalue : Numeral.value value = .ok n) (pending : Pending) :
    { s with pending := pending }.takeDepth value = .ok (s.also [.maxDepth] (some n)) := by
  rw [has, Option.isSome_eq_false_iff, Option.isNone_iff_eq_none] at hhas
  simp [takeDepth, hhas, hvalue, also, hnothing]

theorem read_letters {switches : List Switch} (hnothing : s.pending = .nothing)
    (hhas : ∀ switch ∈ switches, s.has switch = false) (hnodup : switches.Nodup)
    (hsome : switches ≠ []) (hletter : ∀ switch ∈ switches, switch.letter? ≠ none)
    (rest : List Text) : s.read (('-' :: switches.filterMap Switch.letter?) :: rest) =
      (switches.findSome? Switch.request?).elim ((s.also switches none).read rest) .ok := by
  obtain ⟨c, cs, hletters, hc⟩ : ∃ c cs, switches.filterMap Switch.letter? = c :: cs ∧
      c ≠ '-' := by
    obtain ⟨switch, switches, rfl⟩ := List.exists_cons_of_ne_nil hsome
    obtain ⟨c, hc⟩ := Option.ne_none_iff_exists'.mp (hletter switch List.mem_cons_self)
    refine ⟨c, _, List.filterMap_cons_some hc, ?_⟩
    rintro rfl
    cases switch <;> cases hc
  have hend : '-' :: switches.filterMap Switch.letter? ≠ endOfOptions := by
    rw [hletters]
    rintro ⟨⟩
    exact hc rfl
  have htake : s.takeArgument ('-' :: switches.filterMap Switch.letter?) =
      s.takeLetters (switches.filterMap Switch.letter?) := by
    rw [hletters, takeArgument]
    exact hc
  rw [read_cons hend, htake, takeLetters_of_has_eq_false hnothing hhas hnodup hletter]
  cases switches.findSome? Switch.request? <;> rfl

theorem read_long {switch : Switch} (hnothing : s.pending = .nothing)
    (hhas : s.has switch = false) (hplain : switch ≠ .maxDepth) (rest : List Text) :
    s.read (('-' :: '-' :: switch.longName) :: rest) =
      switch.request?.elim ((s.also [switch] none).read rest) .ok := by
  have hend : '-' :: '-' :: switch.longName ≠ endOfOptions := by cases switch <;> decide
  rw [read_cons hend, takeArgument_long, settle_nothing hnothing]
  change (s.takeSwitch switch).bind _ = _
  rw [takeSwitch_of_has_eq_false hhas hplain]
  cases switch.request? <;> rfl

theorem read_depth {value : Text} {n : Nat} (hnothing : s.pending = .nothing)
    (hhas : s.has .maxDepth = false) (hvalue : Numeral.value value = .ok n) (rest : List Text) :
    s.read (depthName :: value :: rest) = (s.also [.maxDepth] (some n)).read rest := by
  have hoption := isOption_of_value hvalue
  have hend : value ≠ endOfOptions := by
    rintro rfl
    cases hoption
  have hawaited : s.read (depthName :: value :: rest) =
      { s with pending := .awaited }.read (value :: rest) := by
    change s.read (('-' :: '-' :: Switch.maxDepth.longName) :: value :: rest) = _
    rw [read_cons (by decide), takeArgument_long, settle_nothing hnothing]
    rfl
  have hgiven : { s with pending := .awaited }.read (value :: rest) =
      { s with pending := .given value }.read rest := by
    rw [read_cons hend, takeArgument_of_plain hoption]
    rfl
  have hsettle : { s with pending := .given value }.settle = .ok (s.also [.maxDepth] (some n)) :=
    takeDepth_of_has_eq_false hnothing hhas hvalue (.given value)
  rw [hawaited, hgiven, read_of_settle hsettle]

theorem read_depthAssigned {value : Text} {n : Nat} (hnothing : s.pending = .nothing)
    (hhas : s.has .maxDepth = false) (hvalue : Numeral.value value = .ok n) (rest : List Text) :
    s.read ((depthName ++ '=' :: value) :: rest) = (s.also [.maxDepth] (some n)).read rest := by
  have hend : depthName ++ '=' :: value ≠ endOfOptions := by
    rintro ⟨⟩
  have htake : s.takeArgument (depthName ++ '=' :: value) =
      s.settle.bind fun t => (t.takeDepth value).map .inl := by
    change s.takeLong Switch.maxDepth.longName (some value) = _
    unfold takeLong
    rw [Switch.ofLongName?_longName]
    rfl
  have hdepth := takeDepth_of_has_eq_false hnothing hhas hvalue s.pending
  rw [read_cons hend, htake, settle_nothing hnothing]
  change ((s.takeDepth value).map _).bind _ = _
  rw [hdepth]
  rfl

/-- Reading an option adds what it says, unless one of its switches asks for a text. -/
theorem read_words {o : WrittenOption} (hnothing : s.pending = .nothing)
    (hhas : ∀ switch ∈ o.switches, s.has switch = false) (hnodup : o.switches.Nodup)
    (rest : List Text) : s.read (o.words ++ rest) =
      (o.switches.findSome? Switch.request?).elim
        ((s.also o.switches o.depth?).read rest) .ok := by
  cases o with
  | letters switches hsome hletter => exact read_letters hnothing hhas hnodup hsome hletter rest
  | long switch hplain =>
      refine (read_long hnothing (hhas _ (List.mem_singleton_self _)) hplain rest).trans ?_
      change _ = ([switch].findSome? _).elim _ _
      rw [List.findSome?_singleton]
      rfl
  | depth value n hvalue =>
      exact read_depth hnothing (hhas _ (List.mem_singleton_self _)) hvalue rest
  | depthAssigned value n hvalue =>
      exact read_depthAssigned hnothing (hhas _ (List.mem_singleton_self _)) hvalue rest

/-- What is asked for if these options and expressions come: the first text that a switch asks for
or else a check. -/
def asked (s : Settled) (os : List WrittenOption) (xs : List Text) : Request :=
  ((os.flatMap (·.switches)).findSome? Switch.request?).getD
    (.check ((s.also (os.flatMap (·.switches)) (os.findSome? (·.depth?))).options xs))

theorem asked_nil (s : Settled) (xs : List Text) : s.asked [] xs = .check (s.options xs) := by
  change Request.check ((s.also [] none).options xs) = _
  rw [also_nil]

theorem asked_cons (s : Settled) (o : WrittenOption) (os : List WrittenOption) (xs : List Text) :
    s.asked (o :: os) xs = (o.switches.findSome? Switch.request?).getD
      ((s.also o.switches o.depth?).asked os xs) := by
  have hdepth : (o :: os).findSome? (·.depth?) = o.depth?.or (os.findSome? (·.depth?)) := by
    rw [List.findSome?_cons]
    cases o.depth? <;> rfl
  rw [asked, asked, List.flatMap_cons, List.findSome?_append, also_also, hdepth]
  cases o.switches.findSome? Switch.request? <;> rfl

/-- Reading a mixture, and behind it what has no options, comes to what the options ask for. -/
theorem read_mixed {arguments rest ys : List Text} (hmixed : WrittenOption.Mixed os xs arguments)
    (hends : Ends rest ys) (hnothing : s.pending = .nothing)
    (hhas : ∀ switch ∈ os.flatMap (·.switches), s.has switch = false)
    (hnodup : (os.flatMap (·.switches)).Nodup) (hplain : ∀ x ∈ xs, isOption x = false) :
    s.read (arguments ++ rest) = .ok (s.asked os (xs ++ ys)) := by
  -- for any state in front, since each piece of the mixture leaves another one
  induction hmixed generalizing s with
  | nil =>
      rw [asked_nil]
      exact hends s hnothing
  | @option os xs arguments o hmixed ih =>
      rw [List.flatMap_cons, List.forall_mem_append] at hhas
      rw [List.flatMap_cons, List.nodup_append] at hnodup
      obtain ⟨hfirst, hothers, hdisjoint⟩ := hnodup
      rw [List.append_assoc, read_words hnothing hhas.1 hfirst, asked_cons]
      cases o.switches.findSome? Switch.request? with
      | some r => rfl
      | none =>
          refine ih (s := s.also o.switches o.depth?) hnothing (fun switch hmem => ?_) hothers
            hplain
          have hnot : switch ∉ o.switches := fun h => hdisjoint switch h switch hmem rfl
          refine has_also (hhas.2 switch hmem) hnot ?_
          rintro rfl
          exact Option.eq_none_iff_forall_ne_some.mpr fun n hn =>
            hnot (WrittenOption.mem_switches_of_depth? hn)
  | @expression os xs arguments x hmixed ih =>
      rw [List.forall_mem_cons] at hplain
      refine (read_expression hnothing hplain.1 (arguments ++ rest)).trans ?_
      rw [ih (s := { s with expressions := s.expressions ++ [x] }) hnothing
        (fun switch hmem => hhas switch hmem) hnodup hplain.2]
      simp only [asked, options, also, List.append_assoc, List.cons_append, List.nil_append]

end Settled

theorem findSome?_eq_of_perm {α β : Type} {f : α → Option β} {l l' : List α} (h : l.Perm l')
    (hsame : ∀ a ∈ l, ∀ b ∈ l, ∀ x y, f a = some x → f b = some y → x = y) :
    l.findSome? f = l'.findSome? f := by
  cases hfirst : l'.findSome? f with
  | none =>
      rw [List.findSome?_eq_none_iff] at hfirst ⊢
      exact fun a ha => hfirst a (h.mem_iff.mp ha)
  | some y =>
      obtain ⟨b, hb, hy⟩ := List.exists_of_findSome?_eq_some hfirst
      cases hfirst' : l.findSome? f with
      | none =>
          rw [List.findSome?_eq_none_iff] at hfirst'
          cases (hfirst' b (h.mem_iff.mpr hb)).symm.trans hy
      | some x =>
          obtain ⟨a, ha, hx⟩ := List.exists_of_findSome?_eq_some hfirst'
          rw [hsame a ha b (h.mem_iff.mpr hb) x y hx hy]

namespace WrittenOption
variable {os order : List WrittenOption}

theorem findSome?_depth?_of_perm (h : order.Perm os)
    (hnodup : (order.flatMap (·.switches)).Nodup) :
    order.findSome? (·.depth?) = os.findSome? (·.depth?) := by
  refine findSome?_eq_of_perm h fun o ho o' ho' n n' hn hn' => ?_
  by_cases hsame : o = o'
  · rw [hsame, hn'] at hn
    exact (Option.some.inj hn).symm
  · have : Std.Symm (Function.onFun List.Disjoint fun o : WrittenOption => o.switches) :=
      ⟨fun _ _ => List.disjoint_symm⟩
    have hdisjoint := (List.nodup_flatMap.mp hnodup).2.forall ho ho' hsame
    exact absurd (mem_switches_of_depth? hn') (hdisjoint (mem_switches_of_depth? hn))

end WrittenOption

theorem Switch.findSome?_request?_of_perm {switches switches' : List Switch}
    (h : switches.Perm switches') (hone : ¬ (.help ∈ switches ∧ .version ∈ switches)) :
    switches.findSome? request? = switches'.findSome? request? := by
  refine findSome?_eq_of_perm h fun switch hmem switch' hmem' r r' hr hr' => ?_
  cases switch <;> cases hr <;> cases switch' <;> cases hr'
  · rfl
  · exact absurd ⟨hmem, hmem'⟩ hone
  · exact absurd ⟨hmem', hmem⟩ hone
  · rfl

theorem Settled.asked_of_perm {os order : List WrittenOption} (s : Settled) (xs : List Text)
    (h : order.Perm os) (hnodup : (order.flatMap (·.switches)).Nodup)
    (hone : ¬ (.help ∈ order.flatMap (·.switches) ∧ .version ∈ order.flatMap (·.switches))) :
    s.asked order xs = s.asked os xs := by
  have hswitches : (order.flatMap (·.switches)).Perm (os.flatMap (·.switches)) :=
    h.flatMap_right _
  have halso (depth? : Option Nat) : s.also (order.flatMap (·.switches)) depth? =
      s.also (os.flatMap (·.switches)) depth? := by
    simp only [Settled.also, hswitches.mem_iff]
  rw [Settled.asked, Settled.asked, halso, WrittenOption.findSome?_depth?_of_perm h hnodup,
    Switch.findSome?_request?_of_perm hswitches hone]

namespace Request
variable {options order : List WrittenOption} {expressions arguments : List Text}

theorem ofArguments_mixed (hmixed : WrittenOption.Mixed order expressions arguments)
    (hnodup : (order.flatMap (·.switches)).Nodup)
    (hplain : ∀ x ∈ expressions, isOption x = false) :
    ofArguments arguments = .ok (Settled.start.asked order expressions) := by
  have hread := Settled.read_mixed hmixed Settled.ends_nil (s := Settled.start) rfl
    (fun switch _ => by cases switch <;> rfl) hnodup hplain
  rw [List.append_nil, List.append_nil] at hread
  exact hread

theorem ofArguments_options_first (hnodup : (options.flatMap (·.switches)).Nodup)
    (expressions : List Text) :
    ofArguments (options.flatMap (·.words) ++ endOfOptions :: expressions) =
      .ok (Settled.start.asked options expressions) :=
  Settled.read_mixed (.of_options options) (Settled.ends_endOfOptions expressions)
    (s := Settled.start) rfl (fun switch _ => by cases switch <;> rfl) hnodup nofun

end Request

namespace Command
open WrittenOption (Mixed)

variable {e : Environment}

theorem run_eq_of_request {arguments arguments' : List Text}
    (h : Request.ofArguments arguments = Request.ofArguments arguments') (e : Environment) :
    run { e with arguments := arguments } = run { e with arguments := arguments' } := by
  simp only [run, h]
  rfl

/-- A run that checks nothing ends as the request that stops it asks, and does not look at its
input. -/
theorem run_of_not_check
    (h : ∀ options, Request.ofArguments e.arguments ≠ .ok (.check options)) :
    ∃ status output error?,
      (∀ input, run { e with input := input } = stop e status output error?) ∧
      ((∃ error, Request.ofArguments e.arguments = .error error ∧
          status = 2 ∧ output = [] ∧ error? = some error) ∨
        (Request.ofArguments e.arguments = .ok .help ∧
          status = 0 ∧ output = help ∧ error? = none) ∨
        Request.ofArguments e.arguments = .ok .version ∧
          status = 0 ∧ output = version ∧ error? = none) := by
  cases hrequest : Request.ofArguments e.arguments with
  | error error =>
      refine ⟨2, [], some error, fun input => ?_, .inl ⟨error, rfl, rfl, rfl, rfl⟩⟩
      rw [run, hrequest]
      rfl
  | ok request =>
      cases request with
      | help =>
          refine ⟨0, help, none, fun input => ?_, .inr (.inl ⟨rfl, rfl, rfl, rfl⟩)⟩
          rw [run, hrequest]
          rfl
      | version =>
          refine ⟨0, version, none, fun input => ?_, .inr (.inr ⟨rfl, rfl, rfl, rfl⟩)⟩
          rw [run, hrequest]
          rfl
      | check options => exact absurd hrequest (h options)

theorem run_of_check {options : Options}
    (h : Request.ofArguments e.arguments = .ok (.check options)) :
    (run e).status ≠ 2 ∧ (options.expressions ≠ [] → (run e).output =
      options.expressions.flatMap (report options.tokens (.ofNat options.maxDepth))) := by
  rw [run_of_request h]
  split_ifs with hempty
  · refine ⟨?_, fun hsome => absurd (List.isEmpty_iff.mp hempty) hsome⟩
    change (if (LinesRead.ofInput e.input).brokenOff then 101 else 0) ≠ 2
    split_ifs <;> decide
  · refine ⟨?_, fun _ => rfl⟩
    change (if options.expressions.all _ then 0 else 1) ≠ 2
    split_ifs <;> decide

/-- An argument list is taken or not as a whole, and what it asks for does not depend on where its
options stand. If it is not for a check, because of an error or because it asks for a text, nothing
is checked and nothing is kept. If it is for one, it is for its expressions, in order. Options that
are not repeated may stand anywhere among expressions that do not look like options, and in any
order, unless both texts are asked for: then the first one is given. -/
theorem run_takes_all_or_nothing (e : Environment) :
    let c := run e
    ((∀ options, Request.ofArguments e.arguments ≠ .ok (.check options)) ∧
        c.log = [] ∧ c.history = e.history ∧ (∀ input, run { e with input := input } = c) ∧
        ((∃ error, Request.ofArguments e.arguments = .error error ∧
            c.status = 2 ∧ c.output = [] ∧ c.usageError = some error) ∨
          (Request.ofArguments e.arguments = .ok .help ∧
            c.status = 0 ∧ c.output = help ∧ c.usageError = none) ∨
          Request.ofArguments e.arguments = .ok .version ∧
            c.status = 0 ∧ c.output = version ∧ c.usageError = none) ∨
      ∃ options, Request.ofArguments e.arguments = .ok (.check options) ∧ c.status ≠ 2 ∧
        c.usageError = none ∧
        options.expressions = Argument.expressions e.arguments ∧
        (∀ front rest, e.arguments = front ++ endOfOptions :: rest → endOfOptions ∉ front →
          options.expressions = Argument.expressions front ++ rest) ∧
        (options.expressions ≠ [] → c.output =
          options.expressions.flatMap (report options.tokens (.ofNat options.maxDepth)))) ∧
    ∀ (options order : List WrittenOption) (expressions arguments : List Text),
      let switches := options.flatMap (·.switches)
      switches.Nodup → order.Perm options →
      (order = options ∨ ¬ (Switch.help ∈ switches ∧ Switch.version ∈ switches)) →
      (∀ x ∈ expressions, x.head? = some '-' → x = ['-']) →
      Mixed order expressions arguments →
      run { e with arguments := arguments } =
        run { e with arguments := options.flatMap (·.words) ++ endOfOptions :: expressions } ∧
      (Switch.help ∉ switches → Switch.version ∉ switches →
        Request.ofArguments arguments = .ok (.check
          ⟨decide (Switch.tokens ∈ switches), (options.findSome? (·.depth?)).getD maxNesting,
            decide (Switch.noHistory ∈ switches), expressions⟩)) := by
  intro c
  constructor
  · by_cases hcheck : ∃ options, Request.ofArguments e.arguments = .ok (.check options)
    · obtain ⟨options, hrequest⟩ := hcheck
      obtain ⟨hstatus, houtput⟩ := run_of_check hrequest
      have hexpressions := Request.expressions_ofArguments hrequest
      refine .inr ⟨options, hrequest, hstatus, (fields_run hrequest).2, hexpressions, ?_, houtput⟩
      intro front rest hsplit hfirst
      rw [hexpressions, hsplit]
      exact Argument.expressionsFrom_append hfirst false rest
    · rw [not_exists] at hcheck
      obtain ⟨status, output, error?, hrun, hstop⟩ := run_of_not_check hcheck
      have hc : c = stop e status output error? := hrun e.input
      rw [hc]
      exact .inl ⟨hcheck, rfl, rfl, hrun, hstop⟩
  · intro options order expressions arguments switches hnodup hperm horder hplain hmixed
    have hswitches : (order.flatMap (·.switches)).Perm switches := hperm.flatMap_right _
    have hnodup' := hswitches.nodup_iff.mpr hnodup
    have hasked : Settled.start.asked order expressions =
        Settled.start.asked options expressions := by
      rcases horder with horder | hone
      · rw [horder]
      · rw [← hswitches.mem_iff, ← hswitches.mem_iff] at hone
        exact Settled.asked_of_perm _ expressions hperm hnodup' hone
    have hmixture := Request.ofArguments_mixed hmixed hnodup' fun x hx =>
      isOption_eq_false_iff.mpr (hplain x hx)
    rw [hasked] at hmixture
    refine ⟨run_eq_of_request ?_ e, fun hhelp hversion => ?_⟩
    · rw [hmixture, Request.ofArguments_options_first hnodup]
    · have hnone : switches.findSome? Switch.request? = none := by
        rw [List.findSome?_eq_none_iff]
        intro switch hmem
        cases switch with
        | help => exact absurd hmem hhelp
        | version => exact absurd hmem hversion
        | tokens | maxDepth | noHistory => rfl
      rw [hmixture, Settled.asked, hnone]
      rfl

/-- A hyphen among the expressions, and a depth that waits until the list ends. -/
example : Request.ofArguments ["-".toList, "--no-history".toList, "1+2".toList, "-t".toList,
    "--max-depth".toList, "+7".toList] =
      .ok (.check ⟨true, 7, true, ["-".toList, "1+2".toList]⟩) := by decide +kernel

end Command

end ArithGrammar
