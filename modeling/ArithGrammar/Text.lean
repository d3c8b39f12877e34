/-!
# Texts measured in UTF-8 bytes

A text is the list of its characters. Places in a text are byte offsets of its UTF-8 form, so
a character takes between one and four of them. An offset is a boundary if no character lies
across it, and only boundaries cut a text: `slice` takes the piece between two of them and says
which end is wrong when it cannot. What each operation does is given by concatenation, where no
arithmetic on offsets is left (`dropBytes?_eq_some_iff`, `takeBytes?_eq_some_iff`,
`slice_eq_ok_iff`).
-/
namespace ArithGrammar

/-- The characters of a text, first to last. -/
abbrev Text := List Char

namespace Text

def byteLength : Text → Nat
  | [] => 0
  | c :: cs => c.utf8Size + byteLength cs

@[simp] theorem byteLength_nil : byteLength [] = 0 := rfl

@[simp] theorem byteLength_cons (c : Char) (cs : Text) :
    byteLength (c :: cs) = c.utf8Size + byteLength cs := rfl

@[simp] theorem byteLength_append (s t : Text) :
    byteLength (s ++ t) = byteLength s + byteLength t := by
  induction s with
  | nil => simp
  | cons c cs ih => simp [ih, Nat.add_assoc]

theorem byteLength_eq_zero {s : Text} : byteLength s = 0 ↔ s = [] := by
  cases s with
  | nil => simp
  | cons c cs =>
    have hc := c.utf8Size_pos
    simp only [byteLength_cons, reduceCtorEq, iff_false]
    omega

/-- What is left behind the first `n` bytes, if the text can be cut there. -/
def dropBytes? : Text → Nat → Option Text
  | s, 0 => some s
  | [], _ + 1 => none
  | c :: cs, n + 1 =>
      if c.utf8Size ≤ n + 1 then dropBytes? cs (n + 1 - c.utf8Size) else none

/-- The first `n` bytes, if the text can be cut behind them. -/
def takeBytes? : Text → Nat → Option Text
  | _, 0 => some []
  | [], _ + 1 => none
  | c :: cs, n + 1 =>
      if c.utf8Size ≤ n + 1 then (takeBytes? cs (n + 1 - c.utf8Size)).map (c :: ·) else none

@[simp] theorem dropBytes?_zero (s : Text) : dropBytes? s 0 = some s := by cases s <;> rfl

@[simp] theorem takeBytes?_zero (s : Text) : takeBytes? s 0 = some [] := by cases s <;> rfl

@[simp] theorem dropBytes?_cons (c : Char) (cs : Text) (n : Nat) :
    dropBytes? (c :: cs) (c.utf8Size + n) = dropBytes? cs n := by
  have hc := c.utf8Size_pos
  obtain ⟨k, hk⟩ : ∃ k, c.utf8Size + n = k + 1 := ⟨c.utf8Size + n - 1, by omega⟩
  rw [hk, dropBytes?, if_pos (by omega), ← hk, Nat.add_sub_cancel_left]

@[simp] theorem takeBytes?_cons (c : Char) (cs : Text) (n : Nat) :
    takeBytes? (c :: cs) (c.utf8Size + n) = (takeBytes? cs n).map (c :: ·) := by
  have hc := c.utf8Size_pos
  obtain ⟨k, hk⟩ : ∃ k, c.utf8Size + n = k + 1 := ⟨c.utf8Size + n - 1, by omega⟩
  rw [hk, takeBytes?, if_pos (by omega), ← hk, Nat.add_sub_cancel_left]

theorem dropBytes?_eq_some_iff {s t : Text} {n : Nat} :
    dropBytes? s n = some t ↔ ∃ before, s = before ++ t ∧ byteLength before = n := by
  constructor
  · intro h
    fun_induction dropBytes? s n with
    | case1 s => exact ⟨[], by simpa using h, rfl⟩
    | case2 => cases h
    | case3 c cs n hc ih =>
      obtain ⟨before, rfl, hb⟩ := ih h
      exact ⟨c :: before, rfl, by rw [byteLength_cons, hb]; omega⟩
    | case4 => cases h
  · rintro ⟨before, rfl, rfl⟩
    induction before with
    | nil => simp
    | cons c cs ih => simpa using ih

theorem takeBytes?_eq_some_iff {s t : Text} {n : Nat} :
    takeBytes? s n = some t ↔ ∃ after, s = t ++ after ∧ byteLength t = n := by
  constructor
  · intro h
    fun_induction takeBytes? s n generalizing t with
    | case1 s =>
      obtain rfl : [] = t := by simpa using h
      exact ⟨s, rfl, rfl⟩
    | case2 => cases h
    | case3 c cs n hc ih =>
      obtain ⟨u, hu, rfl⟩ := Option.map_eq_some_iff.mp h
      obtain ⟨after, rfl, hb⟩ := ih hu
      exact ⟨after, rfl, by rw [byteLength_cons, hb]; omega⟩
    | case4 => cases h
  · rintro ⟨after, rfl, rfl⟩
    induction t with
    | nil => simp
    | cons c cs ih => simpa using ih

/-- No character of the text lies across the offset, and the text reaches it. -/
def isBoundary (s : Text) (n : Nat) : Bool := (dropBytes? s n).isSome

theorem isBoundary_iff {s : Text} {n : Nat} :
    isBoundary s n = true ↔ ∃ before after, s = before ++ after ∧ byteLength before = n := by
  rw [isBoundary, Option.isSome_iff_exists]
  constructor
  · rintro ⟨after, h⟩
    obtain ⟨before, hs, hn⟩ := dropBytes?_eq_some_iff.mp h
    exact ⟨before, after, hs, hn⟩
  · rintro ⟨before, after, hs, hn⟩
    exact ⟨after, dropBytes?_eq_some_iff.mpr ⟨before, hs, hn⟩⟩

theorem isBoundary_zero (s : Text) : isBoundary s 0 = true := by simp [isBoundary]

theorem isBoundary_byteLength (s : Text) : isBoundary s (byteLength s) = true :=
  isBoundary_iff.mpr ⟨s, [], by simp, rfl⟩

/-- Why a text has no piece between two offsets. -/
inductive SliceError where
  | reversed (start stop : Nat)
  | offBoundary (offset : Nat)
  deriving DecidableEq, Repr

/-- The piece between two boundaries. -/
def slice (s : Text) (start stop : Nat) : Except SliceError Text :=
  if stop < start then .error (.reversed start stop)
  else match dropBytes? s start with
    | none => .error (.offBoundary start)
    | some rest => match takeBytes? rest (stop - start) with
      | none => .error (.offBoundary stop)
      | some t => .ok t

/-- A slice is what stands between a beginning and an end of the text. -/
theorem slice_eq_ok_iff {s t : Text} {start stop : Nat} :
    slice s start stop = .ok t ↔
      ∃ before after, s = before ++ t ++ after ∧ byteLength before = start ∧
        start + byteLength t = stop := by
  constructor
  · intro h
    unfold slice at h
    split at h
    · cases h
    · split at h
      · cases h
      · rename_i rest hrest
        split at h
        · cases h
        · rename_i u hu
          obtain rfl : u = t := by simpa using h
          obtain ⟨before, rfl, hb⟩ := dropBytes?_eq_some_iff.mp hrest
          obtain ⟨after, rfl, ht⟩ := takeBytes?_eq_some_iff.mp hu
          exact ⟨before, after, by simp, hb, by omega⟩
  · rintro ⟨before, after, rfl, rfl, rfl⟩
    have hd : dropBytes? (before ++ t ++ after) (byteLength before) = some (t ++ after) :=
      dropBytes?_eq_some_iff.mpr ⟨before, by rw [List.append_assoc], rfl⟩
    have ht : takeBytes? (t ++ after) (byteLength t) = some t :=
      takeBytes?_eq_some_iff.mpr ⟨after, rfl, rfl⟩
    rw [slice, if_neg (Nat.not_lt.mpr (Nat.le_add_right _ _)), hd]
    simp only [Nat.add_sub_cancel_left, ht]

end Text

end ArithGrammar
