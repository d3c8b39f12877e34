import ArithGrammar.Proofs.Grammar
import ArithGrammar.Proofs.Steps

/-!
# What an attempt covers

An attempt on a text covers a beginning of it: its tokens are laid out there, whether it succeeds
or not, and a success leaves a view of what follows, up to blanks. It never fails for want of a
piece of the text. `x.Covers leaves done stuck start s` says so of the attempt `x` on the text `s`
from `start` on, together with what is promised of the terminals read, `done` after a success and
`stuck` after a failure. Two attempts in sequence cover one beginning behind the other
(`Covers.bind`).
-/
namespace ArithGrammar
open Text (byteLength)

/-- The view begins at the offset and has the text. -/
structure View.Stands (v : View) (start : Nat) (s : Text) : Prop where
  start_eq : v.start = start
  text_eq : v.text = .ok s

namespace View.Stands
variable {v : View} {start : Nat} {s t r : Text}

theorem whole (s : Text) : (View.whole s).Stands 0 s := ⟨rfl, View.text_whole s⟩

theorem back (h : v.Stands start (t ++ r)) : (v.back r).Stands (start + byteLength t) r :=
  ⟨by rw [View.start_back h.text_eq, h.start_eq], View.text_back h.text_eq⟩

theorem back_cons {c : Char} (h : v.Stands start (c :: s)) :
    (v.back s).Stands (start + byteLength [c]) s := h.back (t := [c])

theorem splitAt_fst (h : v.Stands start (t ++ r)) :
    (v.splitAt (byteLength t)).1.Stands start t :=
  ⟨by rw [View.start_splitAt_fst, h.start_eq], View.text_splitAt_fst h.text_eq⟩

theorem trimmed (h : v.Stands start s) :
    ∃ front behind, s = front ++ (s.trimmed ++ behind) ∧ front.Blank ∧ behind.Blank ∧
      v.trimmed.Stands (start + byteLength front) s.trimmed := by
  obtain ⟨behind, hblank, hbehind, -⟩ := Text.eq_run_append_trimmed s
  refine ⟨CharSet.blank.run s, behind, ?_, CharSet.all_run _ _, hblank, ?_, ?_⟩
  · rw [← hbehind, CharSet.run_append_afterRun]
  · rw [View.start_trimmed h.text_eq, h.start_eq]
  · exact View.text_trimmed h.text_eq

end View.Stands

namespace Attempt
variable {α β : Type}

/-- On the text `s` from `start` on the attempt reads a beginning of it and then, if it succeeds,
leaves what follows the blanks there. -/
def Covers (leaves : α → Nat → Text → Prop) (done stuck : List Terminal → Prop) (start : Nat)
    (s : Text) (x : Attempt α) : Prop :=
  ∃ read rest, s = read ++ rest ∧ Laid start x.tokens read ∧
    (∀ t ∈ x.tokens.head?, t.kind.joined = false) ∧
    match x.outcome with
    | .ok a => done (x.tokens.map Token.terminal) ∧ ∃ gap left behind,
        rest = gap ++ (left ++ behind) ∧ gap.Blank ∧ behind.Blank ∧
        leaves a (start + byteLength (read ++ gap)) left
    | .error failure => stuck (x.tokens.map Token.terminal) ∧ ∀ error, failure ≠ .badSlice error

def Ends (_ : Unit) (_ : Nat) (left : Text) : Prop := left = []

variable {leaves : α → Nat → Text → Prop} {leaves' : β → Nat → Text → Prop}
  {done done' done'' stuck stuck' stuck'' : List Terminal → Prop} {x y : Attempt α}
  {start : Nat} {s t front behind : Text} {ts : List Token}

namespace Covers

theorem pure {a : α} (h : leaves a start s) (hdone : done []) :
    (pure a : Attempt α).Covers leaves done stuck start s :=
  ⟨[], s, rfl, rfl, by simp, hdone, [], s, [], by simp, CharSet.all_nil, CharSet.all_nil, h⟩

theorem fail {failure : Failure} (hstuck : stuck []) (hf : ∀ error, failure ≠ .badSlice error) :
    (fail failure : Attempt α).Covers leaves done stuck start s :=
  ⟨[], s, rfl, rfl, by simp, hstuck, hf⟩

theorem of_reads (h : x.Reads ts y) (hts : Laid start ts t)
    (hhead : ∀ u ∈ ts.head?, u.kind.joined = false)
    (hy : y.Covers leaves done' stuck' (start + byteLength t) s)
    (hdone : ∀ ys, done' ys → done (ts.map Token.terminal ++ ys))
    (hstuck : ∀ ys, stuck' ys → stuck (ts.map Token.terminal ++ ys)) :
    x.Covers leaves done stuck start (t ++ s) := by
  obtain ⟨xs, trace, outcome⟩ := x
  obtain ⟨ys, trace', outcome'⟩ := y
  obtain ⟨htokens, houtcome⟩ := h
  dsimp only at htokens houtcome
  subst htokens houtcome
  obtain ⟨read, rest, rfl, hlaid, hnext, hout⟩ := hy
  refine ⟨t ++ read, rest, by rw [List.append_assoc], hts.append hlaid, ?_, ?_⟩
  · cases ts with
    | nil => exact hnext
    | cons u us => exact hhead
  · rw [List.map_append]
    cases outcome with
    | error failure => exact ⟨hstuck _ hout.1, hout.2⟩
    | ok a =>
        obtain ⟨hd, gap, left, behind, hrest, hgap, hbehind, hleaves⟩ := hout
        refine ⟨hdone _ hd, gap, left, behind, hrest, hgap, hbehind, ?_⟩
        simpa only [Text.byteLength_append, Nat.add_assoc] using hleaves

theorem of_reads_nil (h : x.Reads [] y) (hy : y.Covers leaves done stuck start s) :
    x.Covers leaves done stuck start s :=
  of_reads h (t := []) rfl (by simp) hy (fun _ hys => hys) (fun _ hys => hys)

theorem of_char {kind : TokenKind} {c : Char} (h : x.Reads [Token.placed start kind [c]] y)
    (hc : Text.Solid [c]) (hkind : kind.joined = false)
    (hy : y.Covers leaves done' stuck' (start + byteLength [c]) s)
    (hdone : ∀ ys, done' ys → done (⟨kind, [c]⟩ :: ys))
    (hstuck : ∀ ys, stuck' ys → stuck (⟨kind, [c]⟩ :: ys)) :
    x.Covers leaves done stuck start (c :: s) :=
  of_reads h (.placed hc) (by simpa using hkind) hy hdone hstuck

theorem of_reads_pure {a : α} (h : x.Reads ts (Pure.pure a)) (hts : Laid start ts t)
    (hhead : ∀ u ∈ ts.head?, u.kind.joined = false) (ha : leaves a (start + byteLength t) s)
    (hdone : done (ts.map Token.terminal)) : x.Covers leaves done stuck start (t ++ s) := by
  have hnothing : (Pure.pure a : Attempt α).Covers leaves (· = []) (fun _ => False)
      (start + byteLength t) s := .pure ha rfl
  refine of_reads h hts hhead hnothing ?_ ?_
  · rintro ys rfl
    rwa [List.append_nil]
  · exact fun ys hys => hys.elim

/-- Blanks around the text make no difference. -/
theorem widen (hfront : front.Blank) (hbehind : behind.Blank)
    (h : x.Covers leaves done stuck (start + byteLength front) s) :
    x.Covers leaves done stuck start (front ++ (s ++ behind)) := by
  obtain ⟨ts, trace, outcome⟩ := x
  obtain ⟨read, rest, rfl, hlaid, hhead, hout⟩ := h
  cases ts with
  | nil =>
      obtain rfl : read = [] := hlaid
      refine ⟨[], front ++ (rest ++ behind), by simp, rfl, hhead, ?_⟩
      cases outcome with
      | error failure => exact hout
      | ok a =>
          obtain ⟨hd, gap, left, behind', rfl, hgap, hbehind', hleaves⟩ := hout
          refine ⟨hd, front ++ gap, left, behind' ++ behind, by simp,
            CharSet.all_append.mpr ⟨hfront, hgap⟩, CharSet.all_append.mpr ⟨hbehind', hbehind⟩, ?_⟩
          simpa only [List.nil_append, Text.byteLength_append, Nat.add_assoc] using hleaves
  | cons t ts =>
      have hlaid := hlaid.behind hfront (List.cons_ne_nil _ _) hhead
      refine ⟨front ++ read, rest ++ behind, by simp, hlaid, hhead, ?_⟩
      cases outcome with
      | error failure => exact hout
      | ok a =>
          obtain ⟨hd, gap, left, behind', rfl, hgap, hbehind', hleaves⟩ := hout
          refine ⟨hd, gap, left, behind' ++ behind, by simp, hgap,
            CharSet.all_append.mpr ⟨hbehind', hbehind⟩, ?_⟩
          simpa only [List.append_assoc, Text.byteLength_append, Nat.add_assoc] using hleaves

theorem bind {f : α → Attempt β} (h : x.Covers leaves done stuck start s)
    (k : ∀ a start left, leaves a start left → (f a).Covers leaves' done' stuck' start left)
    (hdone : ∀ xs ys, done xs → done' ys → done'' (xs ++ ys))
    (hstuck : ∀ xs, stuck xs → stuck'' xs)
    (hstuck' : ∀ xs ys, done xs → stuck' ys → stuck'' (xs ++ ys)) :
    (x >>= f).Covers leaves' done'' stuck'' start s := by
  obtain ⟨tokens, trace, failure | a⟩ := x
  · obtain ⟨read, rest, hs, hlaid, hhead, hfailed, hf⟩ := h
    exact ⟨read, rest, hs, hlaid, hhead, hstuck _ hfailed, hf⟩
  · obtain ⟨read, rest, rfl, hlaid, hhead, hd, gap, left, behind, rfl, hgap, hbehind, hleaves⟩ := h
    have hreads : ((⟨tokens, trace, .ok a⟩ : Attempt α) >>= f).Reads tokens (f a) := ⟨rfl, rfl⟩
    rw [Text.byteLength_append, ← Nat.add_assoc] at hleaves
    exact of_reads hreads hlaid hhead (widen hgap hbehind (k a _ left hleaves))
      (fun ys hys => hdone _ ys hd hys) (fun ys hys => hstuck' _ ys hd hys)

/-- What takes all of the front of a text leaves what is behind that front. -/
theorem within {x : Attempt Unit} (h : x.Covers Ends done stuck start t) (s : Text) :
    x.Covers (fun _ start' left => start' = start + byteLength t ∧ left = s) done stuck start
      (t ++ s) := by
  obtain ⟨ts, trace, outcome⟩ := x
  obtain ⟨read, rest, rfl, hlaid, hhead, hout⟩ := h
  refine ⟨read, rest ++ s, by rw [List.append_assoc], hlaid, hhead, ?_⟩
  cases outcome with
  | error failure => exact hout
  | ok a =>
      obtain ⟨hd, gap, left, behind, rfl, hgap, hbehind, hleaves⟩ := hout
      obtain rfl : left = [] := hleaves
      exact ⟨hd, gap ++ behind, s, [], by simp, CharSet.all_append.mpr ⟨hgap, hbehind⟩,
        CharSet.all_nil, by simp, rfl⟩

end Covers

end Attempt

end ArithGrammar
