import ArithGrammar.Proofs.BoundedMoments
import ArithGrammar.Proofs.LoopBounds

/-!
# How deep the rules call one another

An evaluation by calls comes to what recognition comes to, on every text and under every limit, and
all of its moments are bounded (`evaluation_bounded`). So every evaluation ends, and so does one
that is allowed three rules at once for each level and for what is outside of them, and no more.

`Evaluator.Runs` follows a step of an evaluation beside an attempt, from a depth and the rules that
are being followed there. The step has a result, it reads what the attempt reads, and the depth is
the same afterwards. A rule leaves the other rules as they were, and a loop adds its rounds to the
innermost one. Loops are taken by induction on the bytes they have left and factors by induction on
the levels, as nothing else bounds either.
-/
namespace ArithGrammar
open Text (byteLength)

namespace Evaluator
open Attempt Reading
variable {α β : Type} {d room n : Nat} {opened outer : List Activation}
  {K L : List Activation → Prop} {p : Evaluation α} {x : Attempt α} {v w : View} {s t : Text}
  {c : Char} {e : Evaluator} {f : View → Attempt View} {rule : Rule} {a : Activation}

/-- While these rules are being followed at this depth, the step does what the attempt does. The
depth is the same then, and `K` holds of the rules that are being followed. -/
def Runs (d : Nat) (opened : List Activation) (K : List Activation → Prop) (p : Evaluation α)
    (x : Attempt α) : Prop :=
  ∀ tokens trace, ∃ opened', K opened' ∧ p.run.run ⟨tokens, trace, d, opened⟩ =
    some (x.outcome, ⟨tokens ++ x.tokens, trace ++ x.trace, d, opened'⟩)

/-- At this depth a factor is read as by the attempt, wherever it may be entered. -/
def Follows (e : Evaluator) (d : Nat) (f : View → Attempt View) : Prop :=
  ∀ ⦃v s opened⦄, View.text v = .ok s → Ready e.limit .factor (byteLength s) d opened →
    Runs d opened (· = opened) (e.factor v) (f v)

namespace Runs

theorem pure (a : α) (hK : K opened) : Runs d opened K (pure a) (pure a) := by
  intro tokens trace
  refine ⟨opened, hK, ?_⟩
  simp only [pure_eq, List.append_nil]
  rfl

theorem fail (failure : Failure) (hK : K opened) :
    Runs d opened K (throw failure : Evaluation α) (fail failure) := by
  intro tokens trace
  refine ⟨opened, hK, ?_⟩
  simp only [fail_eq, List.append_nil]
  rfl

theorem perform (x : Attempt α) (hK : K opened) : Runs d opened K (perform x) x :=
  fun _ _ => ⟨opened, hK, rfl⟩

theorem bind {q : α → Evaluation β} {f : α → Attempt β} (h : Runs d opened K p x)
    (hL : ∀ o, K o → L o)
    (k : ∀ a o, x.outcome = .ok a → K o → Runs d o L (q a) (f a)) :
    Runs d opened L (p >>= q) (x >>= f) := by
  intro tokens trace
  obtain ⟨opened', hK, hrun⟩ := h tokens trace
  rw [ExceptT.run_bind, StateT.run_bind, hrun]
  obtain ⟨xs, events, failure | a⟩ := x
  · exact ⟨opened', hL opened' hK, rfl⟩
  · obtain ⟨opened'', hL', hrun'⟩ := k a opened' rfl hK (tokens ++ xs) (trace ++ events)
    refine ⟨opened'', hL', ?_⟩
    rw [ok_bind, ← List.append_assoc, ← List.append_assoc]
    exact hrun'

theorem ite {b : Prop} [Decidable b] {q : Evaluation α} {y : Attempt α}
    (hp : b → Runs d opened K p x) (hq : ¬ b → Runs d opened K q y) :
    Runs d opened K (if b then p else q) (if b then x else y) := by
  split_ifs with hb
  · exact hp hb
  · exact hq hb

theorem step {q : α → Evaluation β} {f : α → Attempt β} (h : Runs d opened (· = opened) p x)
    (hL : L opened) (k : ∀ a, x.outcome = .ok a → Runs d opened L (q a) (f a)) :
    Runs d opened L (p >>= q) (x >>= f) := by
  refine h.bind ?_ ?_
  · rintro o rfl
    exact hL
  · rintro a o ha rfl
    exact k a ha

theorem perform_bind {q : α → Evaluation β} {f : α → Attempt β} (hL : L opened)
    (k : ∀ a, x.outcome = .ok a → Runs d opened L (q a) (f a)) :
    Runs d opened L (Evaluator.perform x >>= q) (x >>= f) := by
  have hx : Runs d opened (· = opened) (Evaluator.perform x) x := .perform x rfl
  exact hx.step hL k

theorem read_bind {q : View → Evaluation β} {f : View → Attempt β} {kind : TokenKind}
    (h : v.text = .ok (c :: s)) (hc : c.utf8Size = 1) (hL : L opened)
    (k : Runs d opened L (q (v.back s)) (f (v.back s))) :
    Runs d opened L (Evaluator.perform (read kind 1 v) >>= q) (read kind 1 v >>= f) := by
  refine perform_bind hL fun u hu => ?_
  rw [read_char_eq h hc] at hu
  obtain rfl : v.back s = u := Except.ok.inj hu
  exact k

end Runs

section
variable (hallowed : ∀ m : Moment, m.Bounded e.limit → e.allowed m = true)
include hallowed

theorem runs_during (hready : Ready e.limit rule v.length d opened)
    (h : Runs d (⟨rule, d, [v]⟩ :: opened) (Leaves e.limit d opened) p x) :
    Runs d opened (· = opened) (e.during rule v p)
      (Attempt.enter rule v >>= fun _ => x) := by
  intro tokens trace
  obtain ⟨_, ⟨a, rfl, hbounded⟩, hrun⟩ := h tokens (trace ++ [.entered rule v])
  refine ⟨opened, rfl, ?_⟩
  rw [during_eq, StateT.run_bind, enter_eq (hallowed _ hready.bounded_cons.staying)]
  change (p.run >>= e.leave).run _ = _
  rw [StateT.run_bind, hrun]
  change (e.leave x.outcome).run _ = _
  rw [leave_eq (hallowed _ hbounded), List.append_assoc]
  rfl

theorem runs_round {q : Evaluation α}
    (hround : Looping e.limit rule n d { a with views := v :: a.views } outer)
    (h : Runs d ({ a with views := v :: a.views } :: outer) K q x) :
    Runs d (a :: outer) K (do e.round v; q) x := by
  intro tokens trace
  obtain ⟨opened', hK, hrun⟩ := h tokens trace
  refine ⟨opened', hK, ?_⟩
  have hlift : (ExceptT.run (liftM (e.round v) : Evaluation Unit)).run
      ⟨tokens, trace, d, a :: outer⟩ = some (.ok (),
        ⟨tokens, trace, d, { a with views := v :: a.views } :: outer⟩) := by
    change (Except.ok <$> e.round v).run _ = _
    rw [StateT.run_map, round_eq (hallowed _ hround.bounded.staying)]
    rfl
  rw [ExceptT.run_bind, StateT.run_bind, hlift]
  exact hrun

/-- The loop goes round: the operator is read, and what is behind it is shorter than every view that
has been worked on. -/
theorem runs_operator {q : View → Evaluation β} {g : View → Attempt β} {kind : TokenKind}
    (h : v.text = .ok (c :: s)) (hc : c.utf8Size = 1)
    (hloop : Looping e.limit rule (byteLength (c :: s)) d a outer)
    (k : ∀ b, Looping e.limit rule (byteLength s) d b outer →
      Runs d (b :: outer) (Leaves e.limit d outer) (q (v.back s).trimmed) (g (v.back s).trimmed)) :
    Runs d (a :: outer) (Leaves e.limit d outer)
      (do e.round v; q (← perform (trim (← perform (read kind 1 v)))))
      (do g (← trim (← read kind 1 v))) := by
  rw [← View.length_eq h] at hloop
  have hround := hloop.round (View.byteLength_lt_length h)
  refine runs_round hallowed hround ?_
  refine .read_bind h hc hround.leaves ?_
  rw [trim_eq_pure (View.text_back_cons h), perform_pure, pure_bind, pure_bind]
  exact k _ hround

theorem runs_nested (hd : d < e.limit) (hleaves : Leaves e.limit d outer opened)
    (hdeeper : Ready e.limit rule n (d + 1) opened) (h : Runs (d + 1) opened (· = opened) p x) :
    Runs d opened (Leaves e.limit d outer) (e.nested p) x := by
  intro tokens trace
  obtain ⟨opened', hopened, hrun⟩ := h tokens trace
  rw [hopened] at hrun
  have hbounded : (⟨false, d, opened⟩ : Moment).Bounded e.limit := by
    obtain ⟨a, -, hbounded⟩ := hleaves
    exact hbounded.staying
  refine ⟨opened, hleaves, ?_⟩
  rw [nested_eq, if_neg (by omega)]
  change (e.deepen >>= fun _ => p.run >>= e.surface).run _ = _
  rw [StateT.run_bind, deepen_eq (hallowed _ hdeeper.bounded)]
  change (p.run >>= e.surface).run _ = _
  rw [StateT.run_bind, hrun]
  change (e.surface x.outcome).run _ = _
  rw [surface_eq (hallowed _ hbounded)]

omit hallowed in
theorem runs_nested_full (hK : K opened) :
    Runs e.limit opened K (e.nested p) (fail (.tooDeep e.limit)) := by
  intro tokens trace
  refine ⟨opened, hK, ?_⟩
  rw [nested_eq, if_pos le_rfl]
  simp only [fail_eq, List.append_nil]
  rfl

omit hallowed in
theorem products_of_notAhead (h : v.text = .ok s) (hs : CharSet.mulOp.NotAhead s) :
    e.products v = pure v := by
  rw [products, View.headIn_eq h, perform_ofSlice, pure_bind, CharSet.notAhead_iff_any.mp hs]
  rfl

theorem runs_products (hf : Finds View.Stands .factor room f) (hcalls : Follows e d f)
    (h : v.text = .ok s) (hn : byteLength s ≤ n)
    (hloop : Looping e.limit .factor (byteLength s) d a outer) :
    Runs d (a :: outer) (Leaves e.limit d outer) (e.products v) (Reading.products f n v) := by
  -- the rounds that the attempt is given last as long as the evaluation goes round
  induction n generalizing v s a with
  | zero =>
      obtain rfl : s = [] := Text.byteLength_eq_zero.mp (Nat.le_zero.mp hn)
      rw [products_of_notAhead h CharSet.notAhead_nil, Reading.products]
      exact .pure v hloop.leaves
  | succ n ih =>
      by_cases hs : CharSet.mulOp.NotAhead s
      · rw [products_of_notAhead h hs, Reading.products_of_notAhead h hs]
        exact .pure v hloop.leaves
      · obtain ⟨c, s, rfl, hc⟩ := CharSet.exists_of_not_notAhead hs
        have hback := View.text_back_cons h
        have hlt := View.byteLength_lt_length h
        rw [← View.length_eq h] at hn
        rw [products, Reading.products, View.headIn_eq h, perform_ofSlice, pure_bind,
          ofSlice_ok_bind, List.head?_cons, Option.any_some, if_pos hc, if_pos hc]
        refine runs_operator hallowed h (CharSet.utf8Size_eq_one hc) hloop fun b hround => ?_
        have hready := hround.ready.mono (Text.byteLength_trimmed_le s)
        refine (hcalls (View.text_trimmed hback) hready).step hround.leaves fun w hw => ?_
        obtain ⟨t, ht, hle⟩ := hf.exists_text_trimmed hback hw
        have htrimmed := Text.byteLength_trimmed_le t
        rw [trim_eq_pure ht, perform_pure, pure_bind, pure_bind]
        exact ih (View.text_trimmed ht) (by omega) (hround.mono (by omega))

theorem runs_term (hf : Finds View.Stands .factor room f) (hcalls : Follows e d f)
    (h : v.text = .ok s) (hready : Ready e.limit .term (byteLength s) d opened) :
    Runs d opened (· = opened) (e.term v) (Reading.term f v) := by
  rw [← View.length_eq h] at hready
  rw [term, Reading.term]
  refine runs_during hallowed hready ?_
  have hfactor := hready.cons (r := .factor) rfl (View.length_eq h).ge
  refine (hcalls h hfactor).step hready.leaves fun w hw => ?_
  obtain ⟨t, ht, hlt⟩ := hf.exists_text_lt Tree.terminals_factor_ne_nil h hw
  have htrimmed := Text.byteLength_trimmed_le t
  rw [trim_eq_pure ht, perform_pure, pure_bind, pure_bind]
  rw [← View.length_eq h] at hlt
  exact runs_products hallowed hf hcalls (View.text_trimmed ht)
    (View.length_eq (View.text_trimmed ht)).ge (hready.looping rfl (by omega))

omit hallowed in
theorem sums_of_notAhead (h : v.text = .ok s) (hs : CharSet.addOp.NotAhead s) :
    e.sums v = pure v := by
  rw [sums, View.headIn_eq h, perform_ofSlice, pure_bind, CharSet.notAhead_iff_any.mp hs]
  rfl

theorem runs_sums (hf : Finds View.Stands .factor room f) (hcalls : Follows e d f)
    (h : v.text = .ok s) (hn : byteLength s ≤ n)
    (hloop : Looping e.limit .term (byteLength s) d a outer) :
    Runs d (a :: outer) (Leaves e.limit d outer) (e.sums v) (Reading.sums f n v) := by
  induction n generalizing v s a with
  | zero =>
      obtain rfl : s = [] := Text.byteLength_eq_zero.mp (Nat.le_zero.mp hn)
      rw [sums_of_notAhead h CharSet.notAhead_nil, Reading.sums]
      exact .pure v hloop.leaves
  | succ n ih =>
      by_cases hs : CharSet.addOp.NotAhead s
      · rw [sums_of_notAhead h hs, Reading.sums_of_notAhead h hs]
        exact .pure v hloop.leaves
      · obtain ⟨c, s, rfl, hc⟩ := CharSet.exists_of_not_notAhead hs
        have hback := View.text_back_cons h
        have htrimmed := View.text_trimmed hback
        have hlt := View.byteLength_lt_length h
        rw [← View.length_eq h] at hn
        rw [sums, Reading.sums, View.headIn_eq h, perform_ofSlice, pure_bind,
          ofSlice_ok_bind, List.head?_cons, Option.any_some, if_pos hc, if_pos hc]
        refine runs_operator hallowed h (CharSet.utf8Size_eq_one hc) hloop fun b hround => ?_
        rw [View.beginsWith_eq htrimmed, perform_ofSlice, pure_bind, ofSlice_ok_bind]
        refine .ite (fun _ => ?_) fun _ => ?_
        · refine .perform_bind hround.leaves fun u _ => ?_
          refine .perform_bind hround.leaves fun u _ => ?_
          exact .fail .mismatch hround.leaves
        · have hready := hround.ready.mono (Text.byteLength_trimmed_le s)
          refine (runs_term hallowed hf hcalls htrimmed hready).step hround.leaves fun w hw => ?_
          obtain ⟨t, ht, hle⟩ := (finds_term hf).exists_text_trimmed hback hw
          exact ih ht (by omega) (hround.mono (by omega))

theorem runs_expression (hf : Finds View.Stands .factor room f)
    (hcalls : Follows e d f) (h : v.text = .ok s)
    (hready : Ready e.limit .expression (byteLength s) d opened) :
    Runs d opened (· = opened) (e.expression v) (Reading.expression f v) := by
  rw [← View.length_eq h] at hready
  rw [expression, Reading.expression]
  refine runs_during hallowed hready ?_
  have htrimmed := Text.byteLength_trimmed_le s
  have hlen := View.length_eq h
  have hterm := hready.cons (r := .term) (m := byteLength s.trimmed) rfl (by omega)
  rw [trim_eq_pure h, perform_pure, pure_bind, pure_bind]
  refine (runs_term hallowed hf hcalls (View.text_trimmed h) hterm).step
    hready.leaves fun w hw => ?_
  obtain ⟨t, ht, hlt⟩ :=
    (finds_term hf).exists_text_lt Tree.terminals_term_ne_nil (View.text_trimmed h) hw
  have hloop := hready.looping (r := .term) (m := byteLength t) rfl (by omega)
  refine (runs_sums hallowed hf hcalls ht (View.length_eq ht).ge hloop).bind (fun _ ho => ho) ?_
  intro u o _ ho
  exact .ite (fun _ => .pure () ho) fun _ => .fail .mismatch ho

theorem runs_group (hf : Finds View.Stands .factor room f) (hcalls : Follows e d f)
    (h : v.text = .ok ('(' :: s)) (hready : Ready e.limit .expression (byteLength s) d opened) :
    Runs d opened (· = opened) (e.group v) (Reading.group f v) := by
  have hback := View.text_back_cons h
  rw [group, Reading.group]
  refine .read_bind h rfl rfl ?_
  rw [hback, perform_ofSlice, pure_bind, ofSlice_ok_bind]
  cases hclose : Literal.closing? s with
  | none => exact .fail .mismatch rfl
  | some n =>
      obtain ⟨inner, after, rfl, rfl⟩ := Literal.exists_of_closing? hclose
      have hle : byteLength inner ≤ byteLength (inner ++ ')' :: after) := by
        rw [Text.byteLength_append]
        omega
      have hinner := View.text_splitAt_fst hback
      exact (runs_expression hallowed hf hcalls hinner (hready.mono hle)).step rfl
        fun _ _ => .perform _ rfl

omit hallowed in
theorem runs_sign (hcalls : Follows e d f) (h : v.text = .ok ('-' :: s))
    (hready : Ready e.limit .factor (byteLength s) d opened) :
    Runs d opened (· = opened) (e.sign v) (Reading.sign f v) := by
  have hback := View.text_back_cons h
  rw [sign, Reading.sign]
  refine .read_bind h rfl rfl ?_
  rw [trim_eq_pure hback, perform_pure, pure_bind, pure_bind]
  exact hcalls (View.text_trimmed hback) (hready.mono (Text.byteLength_trimmed_le s))

/-- Groups and signs are read while the factor is being followed. -/
theorem follows_operand {g g' : View → Attempt View}
    (hgroup : ∀ ⦃v s opened⦄, View.text v = .ok ('(' :: s) →
      Ready e.limit .factor v.length d opened →
      Runs d (⟨.factor, d, [v]⟩ :: opened) (Leaves e.limit d opened) (e.nested (e.group v)) (g v))
    (hsign : ∀ ⦃v s opened⦄, View.text v = .ok ('-' :: s) →
      Ready e.limit .factor v.length d opened →
      Runs d (⟨.factor, d, [v]⟩ :: opened) (Leaves e.limit d opened) (e.nested (e.sign v)) (g' v)) :
    Follows e d (Reading.operand g g') := by
  intro v s opened h hready
  rw [← View.length_eq h] at hready
  rw [factor, Reading.operand]
  refine runs_during hallowed hready ?_
  rw [View.head?_eq h, perform_ofSlice, pure_bind, ofSlice_ok_bind]
  cases s with
  | nil => exact .fail .mismatch hready.leaves
  | cons c s =>
      rw [List.head?_cons]
      refine .ite (fun _ => .perform _ hready.leaves) fun _ => ?_
      refine .ite (fun _ => .perform _ hready.leaves) fun _ => ?_
      refine .ite (fun hopen => ?_) fun _ => .ite (fun hminus => ?_) fun _ =>
        .fail .mismatch hready.leaves
      · obtain rfl : c = '(' := of_decide_eq_true hopen
        exact hgroup h hready
      · obtain rfl : c = '-' := of_decide_eq_true hminus
        exact hsign h hready

/-- What has been counted and the room that the attempts have make up the limit. -/
theorem follows_factor (hd : d + room = e.limit) :
    Follows e d (Reading.factor e.limit room) := by
  induction room generalizing d with
  | zero =>
      obtain rfl : d = e.limit := hd
      exact follows_operand hallowed (fun _ _ _ _ hready => runs_nested_full hready.leaves)
        (fun _ _ _ _ hready => runs_nested_full hready.leaves)
  | succ room ih =>
      have hlt : d < e.limit := by omega
      have hcalls := ih (d := d + 1) (by omega)
      apply follows_operand hallowed
      · intro v s opened h hready
        have hdeeper := hready.deeper (r := .expression) hlt (View.byteLength_lt_length h)
        exact runs_nested hallowed hlt hready.leaves hdeeper
          (runs_group hallowed (finds_factor e.limit room) hcalls h hdeeper)
      · intro v s opened h hready
        have hdeeper := hready.deeper (r := .factor) hlt (View.byteLength_lt_length h)
        exact runs_nested hallowed hlt hready.leaves hdeeper (runs_sign hcalls h hdeeper)

end

/-- Every evaluator that allows the bounded moments has the same result. -/
theorem recognize_eq (limit : NestingLimit) (hlimit : e.limit = limit.levels)
    (hallowed : ∀ m : Moment, m.Bounded e.limit → e.allowed m = true) (input : Text) :
    e.recognize input =
      some ((ArithGrammar.recognize limit input).outcome,
        ⟨(ArithGrammar.recognize limit input).tokens, (ArithGrammar.recognize limit input).trace,
          0, []⟩) := by
  have hwhole := View.text_whole input
  have hready : Ready e.limit .expression (byteLength input.trimmed) 0 [] :=
    ⟨⟨Nat.zero_le _, Nat.zero_le _, nofun, .nil, nofun⟩, Nat.zero_le _, nofun⟩
  have hfactor := follows_factor hallowed (Nat.zero_add e.limit)
  obtain ⟨_, rfl, hrun⟩ := runs_expression hallowed (finds_factor e.limit e.limit)
    hfactor (View.text_trimmed hwhole) hready [] []
  rw [recognize, ArithGrammar.recognize, trim_eq_pure hwhole, perform_pure, pure_bind, pure_bind,
    ← hlimit]
  exact hrun

end Evaluator

/-- Evaluation comes to what recognition comes to, whether every moment is allowed, or only those
with three rules for each level, or only the bounded ones. -/
theorem evaluation_bounded (n : Nat) (input : Text) :
    let limit := min n maxNesting
    let attempt := recognize (.ofNat n) input
    let result : Option (Except Failure Unit × CallState) :=
      some (attempt.outcome, ⟨attempt.tokens, attempt.trace, 0, []⟩)
    (Evaluator.mk limit fun _ => true).recognize input = result ∧
      (Evaluator.mk limit fun m => m.opened.length ≤ 3 * (limit + 1)).recognize input = result ∧
      (Evaluator.mk limit fun m => m.Bounded limit).recognize input = result :=
  ⟨Evaluator.recognize_eq (.ofNat n) rfl (fun _ _ => rfl) input,
    Evaluator.recognize_eq (.ofNat n) rfl (fun _ h => decide_eq_true h.length_le) input,
    Evaluator.recognize_eq (.ofNat n) rfl (fun _ h => decide_eq_true h) input⟩

end ArithGrammar
