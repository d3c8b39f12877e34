import ArithGrammar.View

/-!
# Scripts of steps on views

A script works on a list of views that begins with the view of a whole text and grows as views
are split or copied. A step concerns one view of the list: it answers something, it may make
that view narrower, and it may add a view at the end of the list. A step that fails answers why
and leaves every view as it was.
-/
namespace ArithGrammar

inductive ViewStep where
  | trim
  | head
  | text
  | find
  | headIn (set : CharSet)
  | beginsWith (pattern : Text)
  | take (len : Nat) (kind : TokenKind)
  | splitAt (len : Nat)
  | copy
  | sameAs (other : Nat)
  deriving DecidableEq, Repr

/-- What a step answers. -/
inductive Reply where
  | nothing
  | head (c : Option Char)
  | text (s : Text)
  | findings (found : Literal.Findings)
  | flag (b : Bool)
  | token (t : Token)
  deriving DecidableEq, Repr

/-- The answer of a step, its view afterwards, and the view it adds to the list. -/
structure Effect where
  reply : Reply
  view : View
  created : Option View
  deriving DecidableEq, Repr

namespace ViewStep

/-- The effect of a step on the view `v` of the list `views`. -/
def effect (views : List View) (v : View) : ViewStep → Except Text.SliceError Effect
  | trim => v.trim.map fun w => ⟨.nothing, w, none⟩
  | head => v.head?.map fun c => ⟨.head c, v, none⟩
  | text => v.text.map fun s => ⟨.text s, v, none⟩
  | find => v.text.map fun s => ⟨.findings (Literal.find s), v, none⟩
  | headIn set => (v.headIn set).map fun b => ⟨.flag b, v, none⟩
  | beginsWith pattern => (v.beginsWith pattern).map fun b => ⟨.flag b, v, none⟩
  | take len kind => (v.take len kind).map fun r => ⟨.token r.1, r.2, none⟩
  | splitAt len => .ok ⟨.nothing, (v.splitAt len).2, some (v.splitAt len).1⟩
  | copy => .ok ⟨.nothing, v, some v⟩
  | sameAs other => .ok ⟨.flag (decide (views[other]? = some v)), v, none⟩

end ViewStep

/-- The outcome of a step, with its view afterwards and the place of the view it added. -/
structure StepReport where
  reply : Except Text.SliceError Reply
  view : View
  created : Option (Nat × View)

namespace ViewScript

def step (views : List View) (index : Nat) (s : ViewStep) : Option (StepReport × List View) :=
  match views[index]? with
  | none => none
  | some v =>
      match s.effect views v with
      | .error e => some (⟨.error e, v, none⟩, views)
      | .ok r =>
          some (⟨.ok r.reply, r.view, r.created.map fun w => (views.length, w)⟩,
            views.set index r.view ++ r.created.toList)

/-- The reports of all steps and the views they leave, unless a step names a missing view. -/
def run : List View → List (Nat × ViewStep) → Option (List StepReport × List View)
  | views, [] => some ([], views)
  | views, (index, s) :: steps =>
      match step views index s with
      | none => none
      | some (report, after) => (run after steps).map fun r => (report :: r.1, r.2)

theorem step_isSome (views : List View) (index : Nat) (s : ViewStep) :
    (step views index s).isSome = decide (index < views.length) := by
  unfold step
  by_cases h : index < views.length
  · simp only [List.getElem?_eq_getElem h, h, decide_true]
    split <;> rfl
  · simp [h]

end ViewScript

end ArithGrammar
