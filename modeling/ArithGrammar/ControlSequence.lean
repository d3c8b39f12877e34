import ArithGrammar.Text

/-!
# Control sequences

A text for an output that is no terminal is shown without the sequences that would control one,
and without the control characters other than space. A sequence begins with the escape character;
what follows tells its kind, which decides where it ends. A sequence that does not end hides the
rest of the text. Text that is plain is shown as it is (`visible_of_forall`).
-/
namespace ArithGrammar.ControlSequence

/-- Where in a sequence the text has got to. -/
inductive State where
  /-- In no sequence. -/
  | ground
  /-- Behind the escape character. -/
  | escape
  /-- Behind the escape character and some of its modifiers. -/
  | modified
  /-- In the parameters of a control. -/
  | control
  /-- At the beginning of a string for the device. -/
  | device
  /-- In the parameters of a string for the device. -/
  | deviceParameters
  /-- Behind the parameters of a string for the device. -/
  | deviceModified
  /-- In a string that ends at a bell. -/
  | command
  /-- In a string that ends at a string terminator. -/
  | string
  deriving DecidableEq, Repr

def escapeChar : Char := '\x1b'

/-- The characters that end any sequence. -/
def cancels (c : Char) : Bool := c = '\x18' || c = '\x1a'

def isSpace (c : Char) : Bool := c = '\t' || c = '\n' || c = '\x0c' || c = '\r'

/-- Whether the character is shown where it belongs to no sequence. -/
def isShown (c : Char) : Bool := isSpace c || (decide (' ' ≤ c) && c ≠ '\x7f')

/-- Whether the string terminator is among the bytes that continue the character. -/
def holdsTerminator (c : Char) : Bool := (String.utf8EncodeChar c).contains 0x9c

namespace State

/-- Where the text gets to by a character that begins or goes on with a sequence. -/
def step (s : State) (c : Char) : State :=
  if c = escapeChar then escape
  else if cancels c then ground
  else match s with
    | ground => ground
    | escape =>
        if c < ' ' then escape
        else if c < '0' then modified
        else if c = 'P' then device
        else if c = '[' then control
        else if c = ']' then command
        else if c = 'X' ∨ c = '^' ∨ c = '_' then string
        else if c ≤ '~' then ground
        else escape
    | modified => if '0' ≤ c ∧ c ≤ '~' then ground else modified
    | control => if '@' ≤ c ∧ c ≤ '~' then ground else control
    | device =>
        if '@' ≤ c ∧ c ≤ '~' then string
        else if '0' ≤ c ∧ c < '@' then deviceParameters
        else if ' ' ≤ c ∧ c < '0' then deviceModified
        else device
    | deviceParameters =>
        if '<' ≤ c ∧ c ≤ '~' then string
        else if ' ' ≤ c ∧ c < '0' then deviceModified
        else deviceParameters
    | deviceModified => if '0' ≤ c ∧ c ≤ '~' then string else deviceModified
    | command => if c = '\x07' then ground else command
    | string => if holdsTerminator c then ground else string

/-- Whether a character is shown though the text has got to the state. Space is shown within a
sequence, unless that is a string. -/
def shows (s : State) (c : Char) : Bool :=
  match s with
  | ground => isShown c
  | escape | modified | control => isSpace c
  | device | deviceParameters | deviceModified | command | string => false

end State

/-- The part of a text that is shown. A character that is shown is followed by all that may be
shown outside a sequence; what is not brings back the state in which the sequence was left, which
a character beyond ASCII ends. -/
def shownFrom (copies : Bool) (s : State) : Text → Text
  | [] => []
  | c :: cs =>
      if if copies then isShown c else s.shows c then
        c :: shownFrom true (if c.toNat < 0x80 then s else .ground) cs
      else shownFrom false (s.step c) cs

/-- A text as it is shown where there is no terminal. -/
def visible (s : Text) : Text := shownFrom false .ground s

theorem shownFrom_of_forall {s : Text} (h : ∀ c ∈ s, isShown c = true) (state : State) :
    shownFrom true state s = s := by
  induction s generalizing state with
  | nil => rfl
  | cons c cs ih =>
    rw [List.forall_mem_cons] at h
    simp [shownFrom, h.1, ih h.2]

theorem visible_of_forall {s : Text} (h : ∀ c ∈ s, isShown c = true) : visible s = s := by
  cases s with
  | nil => rfl
  | cons c cs =>
    rw [List.forall_mem_cons] at h
    simp [visible, shownFrom, State.shows, h.1, shownFrom_of_forall h.2]

end ArithGrammar.ControlSequence
