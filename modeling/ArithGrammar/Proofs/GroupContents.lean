import ArithGrammar.Proofs.TokenOrder
import ArithGrammar.Proofs.ViewSteps

/-!
# What stands in a group

An opening parenthesis among the leaves of a tree has an expression and a closing parenthesis behind it
(`Tree.groupsClosed`). In the text the group ends where the search for that parenthesis says, which goes
by the characters only, so no token reaches beyond this place and the first one that does not stand in
front of it is the parenthesis itself. What is between the two parentheses then is the whole expression
(`Token.Contents`).
-/
namespace ArithGrammar
open Text (byteLength)

/-- Behind every opening parenthesis an expression and a closing parenthesis come next. -/
def Terminal.GroupsClosed (xs : List Terminal) : Prop :=
  ∀ front behind, xs = front ++ .opening :: behind →
    ∃ (E : Tree .expression) (more : List Terminal), behind = E.terminals ++ .closing :: more

namespace Terminal.GroupsClosed
variable {x : Terminal} {xs ys : List Terminal}

theorem nil : GroupsClosed [] := by
  intro front behind h
  cases front <;> cases h

theorem singleton (hx : x ≠ .opening) : GroupsClosed [x] := by
  intro front behind h
  cases front with
  | nil => exact absurd (List.cons.inj h).1 hx
  | cons y front => cases front <;> cases h

theorem append (h : GroupsClosed xs) (k : GroupsClosed ys) : GroupsClosed (xs ++ ys) := by
  intro front behind hsplit
  rcases exists_split_of_append_cons hsplit.symm with ⟨behind, hxs, rfl⟩ | ⟨front', -, hys⟩
  · obtain ⟨E, more, rfl⟩ := h front behind hxs
    exact ⟨E, more ++ ys, List.append_assoc _ _ _⟩
  · exact k front' behind hys

theorem cons (hx : x ≠ .opening) (h : GroupsClosed xs) : GroupsClosed (x :: xs) :=
  append (singleton hx) h

theorem group (E : Tree .expression) (h : GroupsClosed E.terminals) :
    GroupsClosed (.opening :: E.terminals ++ [.closing]) := by
  intro front behind hsplit
  cases front with
  | nil => exact ⟨E, [], (List.cons.inj hsplit).2.symm⟩
  | cons y front =>
      have hinner : GroupsClosed (E.terminals ++ [.closing]) := h.append (singleton (by decide))
      exact hinner front behind (List.cons.inj hsplit).2

end Terminal.GroupsClosed

theorem Tree.groupsClosed {p : Part} (T : Tree p) : Terminal.GroupsClosed T.terminals := by
  induction T with
  | integer digits => exact .singleton (by simp [Terminal.opening])
  | decimal whole fraction =>
      have hfraction : Terminal.GroupsClosed [⟨.fraction, fraction.text⟩] :=
        .singleton (by simp [Terminal.opening])
      exact .cons (by simp [Terminal.opening]) (.cons (by decide) hfraction)
  | name x => exact .singleton (by simp [Terminal.opening])
  | group inner ih => exact .group inner ih
  | sign operand ih => exact .cons (by decide) ih
  | noProducts | noSums => exact .nil
  | product op right more ihr ihm | sum op right more ihr ihm =>
      exact .cons (by simp [Terminal.opening]) (ihr.append ihm)
  | term first more ihf ihm | expression first more ihf ihm => exact ihf.append ihm

namespace Token.LongestIn
variable {input : Text} {t : Token} {next : Option Token} {c : Char}

theorem contains (h : t.LongestIn input next) (hc : c ∈ t.text) :
    t.kind.charSet.contains c = true := by
  obtain ⟨rest, -, hlongest⟩ := h
  unfold Longest at hlongest
  split at hlongest
  · rename_i hkind
    rw [hkind]
    exact hlongest.2.1 c hc
  · rename_i hkind
    rw [hkind]
    exact hlongest.2.1 c hc
  · rename_i hkind
    obtain ⟨⟨x, hx⟩, -⟩ := hlongest
    rw [hkind]
    rw [hx] at hc
    exact x.all c hc
  · obtain ⟨d, hd, hmem⟩ := hlongest
    rw [hd, List.mem_singleton] at hc
    rwa [hc]

theorem text_of_openParen (h : t.LongestIn input next) (hkind : t.kind = .openParen) :
    t.text = ['('] := by
  obtain ⟨rest, -, hlongest⟩ := h
  unfold Longest at hlongest
  rw [hkind] at hlongest
  obtain ⟨c, htext, hc⟩ := hlongest
  obtain rfl : c = '(' := of_decide_eq_true hc
  exact htext

theorem text_of_closeParen (h : t.LongestIn input next) (hkind : t.kind = .closeParen) :
    t.text = [')'] := by
  obtain ⟨rest, -, hlongest⟩ := h
  unfold Longest at hlongest
  rw [hkind] at hlongest
  obtain ⟨c, htext, hc⟩ := hlongest
  obtain rfl : c = ')' := of_decide_eq_true hc
  exact htext

theorem eq_closeParen (h : t.LongestIn input next) (hmem : ')' ∈ t.text) :
    t.kind = .closeParen ∧ t.text = [')'] := by
  have hkind := TokenKind.eq_closeParen (h.contains hmem)
  exact ⟨hkind, h.text_of_closeParen hkind⟩

end Token.LongestIn

section
variable {input r left inner after : Text} {start : Nat} {content more : List Token} {u : Token}

theorem stop_le_of_start_lt (hlaid : Laid start (content ++ u :: more) r)
    (htext : r ++ left = inner ++ ')' :: after)
    (hlongest : Token.AllLongest input (content ++ u :: more))
    (hlt : u.span.start < start + byteLength inner) :
    u.span.stop ≤ start + byteLength inner := by
  obtain ⟨hu, -⟩ := hlongest.of_append
  obtain ⟨front, behind, rfl, -, hbehind⟩ := hlaid.of_append
  obtain ⟨gap, rest, rfl, -, -, -, hspan, -⟩ := hbehind
  have hsplit : (front ++ gap) ++ (u.text ++ (rest ++ left)) = inner ++ ')' :: after := by
    rw [← htext]
    simp only [List.append_assoc]
  rw [hspan] at hlt ⊢
  have hle : byteLength (front ++ gap) ≤ byteLength inner := by
    rw [Text.byteLength_append]
    dsimp only at hlt
    omega
  obtain ⟨x, rfl, hx⟩ := Text.exists_append_of_byteLength_le hsplit hle
  simp only [Text.byteLength_append] at hlt ⊢
  by_contra hover
  obtain ⟨y, hy, hclose⟩ := Text.exists_append_of_byteLength_le hx.symm (by omega)
  cases y with
  | nil =>
      rw [hy, List.append_nil] at hover
      omega
  | cons c y =>
      obtain rfl : ')' = c := (List.cons.inj hclose).1
      obtain ⟨-, hone⟩ := hu.eq_closeParen (by rw [hy]; simp)
      rw [hone] at hy
      cases x with
      | nil =>
          rw [Text.byteLength_nil] at hlt
          omega
      | cons d x => cases x <;> cases hy

/-- The first token that does not stand in front of the end of the group closes it. What is in front
of that token takes all of the group, but for blanks. -/
theorem closes_group (hlaid : Laid start (content ++ u :: more) r)
    (htext : r ++ left = inner ++ ')' :: after)
    (hlongest : Token.AllLongest input (content ++ u :: more))
    (hcontent : ∀ t ∈ content, t.span.start < start + byteLength inner)
    (hle : start + byteLength inner ≤ u.span.start) :
    u.kind = .closeParen ∧ u.text = [')'] ∧
      u.span = ⟨start + byteLength inner, start + byteLength inner + 1⟩ ∧
      ∃ s gap, inner = s ++ gap ∧ gap.Blank ∧ Laid start content s := by
  obtain ⟨s, behind, rfl, hs, hbehind⟩ := id hlaid.of_append
  have hlen : byteLength s ≤ byteLength inner := by
    rcases List.eq_nil_or_concat' content with rfl | ⟨front, last, rfl⟩
    · rw [Laid.nil_iff.mp hs]
      exact Nat.zero_le _
    · have hstop := hs.stop_getLast (by simp)
      rw [List.getLast_concat] at hstop
      rw [List.append_assoc] at hlaid hlongest
      have hlast := stop_le_of_start_lt hlaid htext hlongest (hcontent last (by simp))
      omega
  obtain ⟨hu, -⟩ := hlongest.of_append
  obtain ⟨gap, rest, rfl, hgap, -, hsolid, hspan, -⟩ := hbehind
  rw [List.append_assoc, List.append_assoc, List.append_assoc] at htext
  obtain ⟨y, rfl, hy⟩ := Text.exists_append_of_byteLength_le htext hlen
  rw [hspan, Text.byteLength_append] at hle
  obtain ⟨z, rfl, hz⟩ := Text.exists_append_of_byteLength_le hy.symm (by dsimp only at hle; omega)
  have hblank := CharSet.all_append.mp hgap
  cases z with
  | nil =>
      have hmem : ')' ∈ u.text := by
        obtain ⟨c, cs, hcs⟩ := List.exists_cons_of_ne_nil hsolid.1
        rw [hcs] at hz ⊢
        obtain rfl : ')' = c := (List.cons.inj hz).1
        exact List.mem_cons_self
      obtain ⟨hkind, hone⟩ := hu.eq_closeParen hmem
      refine ⟨hkind, hone, ?_, s, y, rfl, hblank.1, hs⟩
      rw [hspan, hone, List.append_nil, Text.byteLength_append, ← Nat.add_assoc]
      rfl
  | cons c z =>
      obtain rfl : ')' = c := (List.cons.inj hz).1
      exact absurd (hblank.2 ')' List.mem_cons_self) (by decide)

end

/-- The tokens are those of one expression, and the text is made of them and of blanks. -/
def Token.Contents (start : Nat) (inner : Text) (content : List Token) : Prop :=
  ∃ (E : Tree .expression) (s gap : Text), inner = s ++ gap ∧ gap.Blank ∧
    Spelled E.terminals start content s

section
variable {start : Nat} {content : List Token} {s : Text} {ys zs : List Terminal}

/-- An expression and what is laid out in a balanced text end alike, if each is followed by a closing
parenthesis. -/
theorem terminals_eq_of_balanced (E : Tree .expression) (hlaid : Laid start content s)
    (hs : Balanced s)
    (h : content.map Token.terminal ++ .closing :: ys = E.terminals ++ .closing :: zs) :
    content.map Token.terminal = E.terminals := by
  rcases exists_split_of_append_cons h with ⟨more, hE, -⟩ | ⟨more, hcontent, hmore⟩
  · -- the expression would go on with the parenthesis
    have hsolid : ∀ x ∈ .closing :: more, x.text.Solid := fun x hx =>
      (E.formed_of_mem_terminals x (by rw [hE]; exact List.mem_append_right _ hx)).solid
    obtain ⟨ts, hts⟩ := Spelled.exists_of_solid hsolid (start + byteLength s)
    have hspelled := Spelled.append ⟨rfl, hlaid⟩ hts
    rw [← hE] at hspelled
    exact ((E.balanced hspelled).of_append hs).not_closeParen.elim
  · cases more with
    | nil => rw [hcontent, List.append_nil]
    | cons x more =>
        obtain rfl : Terminal.closing = x := (List.cons.inj hmore).1
        have hspelled : Spelled (E.terminals ++ .closing :: more) start content s :=
          ⟨hcontent, hlaid⟩
        obtain ⟨ts, us, front, behind, -, rfl, hfront, hbehind⟩ := hspelled.append_inv
        obtain ⟨gap, rest, vs, -, rfl, hgap, -⟩ := hbehind.cons_inv
        have hclosing := (hs.of_append (E.balanced hfront)).of_append (.of_blank hgap)
        exact hclosing.not_closeParen.elim

end

section
variable {limit : NestingLimit} {input s gap : Text} {start : Nat}
  {front before content more : List Token} {t u : Token}

/-- Up to a closing parenthesis the tokens begin those of a tree, unless it is that of an empty group,
which nothing follows. -/
theorem exists_tree_or_emptyGroup (h : (Verdict.evaluate limit input).tokens = front ++ u :: more)
    (hu : u.kind = .closeParen) :
    (∃ (T : Tree .expression) (ys : List Terminal),
        T.terminals = front.map Token.terminal ++ u.terminal :: ys) ∨
      more = [] ∧ (Verdict.evaluate limit input).valid = false ∧
        ∃ kept x, front = kept ++ [x] ∧ x.kind = .openParen := by
  have hviable : ∀ ts, Part.expression.Viable limit.levels ((front ++ u :: ts).map Token.terminal) →
      ∃ (T : Tree .expression) (ys : List Terminal),
        T.terminals = front.map Token.terminal ++ u.terminal :: ys := by
    rintro ts ⟨operand, groups, T, -, hT⟩
    rw [List.map_append, List.map_cons, List.append_assoc, List.cons_append] at hT
    exact ⟨T, _, hT⟩
  rcases viable_or_emptyGroup limit input with hv | ⟨hinvalid, kept, op, x, y, hpair, -, hx, -, hv⟩
  · rw [h] at hv
    exact .inl (hviable more hv)
  · have hsplit : front ++ u :: more = (kept ++ [op] ++ [x]) ++ [y] := by
      rw [← h, hpair]
      simp
    rcases List.eq_nil_or_concat' more with rfl | ⟨more, last, rfl⟩
    · obtain ⟨rfl, -⟩ := List.append_inj' hsplit rfl
      exact .inr ⟨rfl, hinvalid, kept ++ [op], x, rfl, hx⟩
    · rw [← List.cons_append, ← List.append_assoc] at hsplit
      obtain ⟨hfront, -⟩ := List.append_inj' hsplit rfl
      rcases List.eq_nil_or_concat' more with rfl | ⟨more, last, rfl⟩
      · obtain ⟨-, hux⟩ := List.append_inj' hfront rfl
        obtain rfl := (List.cons.inj hux).1
        cases hu.symm.trans hx
      · rw [← List.cons_append, ← List.append_assoc] at hfront
        obtain ⟨hkept, -⟩ := List.append_inj' hfront rfl
        rw [← hkept] at hv
        exact .inl (hviable more hv)

/-- The tokens between the parentheses of a group are its contents, unless the group is empty. Then it
is the last thing read. -/
theorem contents_or_emptyGroup
    (h : (Verdict.evaluate limit input).tokens = before ++ t :: (content ++ u :: more))
    (ht : t.terminal = .opening) (hu : u.terminal = .closing) (hlaid : Laid start content s)
    (hs : Balanced s) (hgap : gap.Blank) :
    Token.Contents start (s ++ gap) content ∨
      content = [] ∧ (s ++ gap).Blank ∧ more = [] ∧
        (Verdict.evaluate limit input).valid = false := by
  have hfront : (Verdict.evaluate limit input).tokens = (before ++ t :: content) ++ u :: more := by
    rw [h, List.append_assoc, List.cons_append]
  have hclose : u.kind = .closeParen := congrArg Terminal.kind hu
  rcases exists_tree_or_emptyGroup hfront hclose with ⟨T, ys, hT⟩ | ⟨rfl, hinvalid, kept, x, hkept, hx⟩
  · rw [List.map_append, List.map_cons, ht, hu, List.append_assoc, List.cons_append] at hT
    obtain ⟨E, zs, hE⟩ := T.groupsClosed _ _ hT
    have hterminals := terminals_eq_of_balanced E hlaid hs hE
    exact .inl ⟨E, s, gap, rfl, hgap, hterminals, hlaid⟩
  · rcases List.eq_nil_or_concat' content with rfl | ⟨content, last, rfl⟩
    · rw [Laid.nil_iff.mp hlaid]
      exact .inr ⟨rfl, hgap, rfl, hinvalid⟩
    · -- a balanced text does not end with an opening parenthesis
      rw [← List.cons_append, ← List.append_assoc] at hkept hfront
      obtain ⟨-, hlast⟩ := List.append_inj' hkept rfl
      obtain rfl : last = x := (List.cons.inj hlast).1
      have hlongest : Token.AllLongest input (Verdict.evaluate limit input).tokens :=
        allLongest_recognize limit input
      rw [hfront, List.append_assoc, List.singleton_append] at hlongest
      have htext := hlongest.of_append.1.text_of_openParen hx
      obtain ⟨front, behind, rfl, -, hbehind⟩ := hlaid.of_append
      obtain ⟨gap', rest, rfl, -, -, -, -, hrest⟩ := hbehind
      rw [htext, Laid.nil_iff.mp hrest, ← List.append_assoc] at hs
      obtain ⟨n, hn⟩ := hs.exists_closing?_behind
      cases hn

end

end ArithGrammar
