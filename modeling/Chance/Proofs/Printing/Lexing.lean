import Mathlib.Data.List.Basic
import Mathlib.Tactic.IntervalCases
import Chance.Layout
import Chance.Token.Lexer
import Chance.Proofs.Syntax.Proper

/-!
# Lexing laid out documents

However a document is laid out, it is a text in which each line is either its flat form or a line
end with spaces. The lexer reads the same tokens off all these texts, provided that no token can run
on into what follows it.

- `Doc.Laid`: a text of the document, followed by a given text,
- `Lexer.Reads`: the lexer reads the tokens off the text,
- `Calm`: texts that no token before them runs on into,
- `Doc.Spells`: all texts of the document read as the given tokens.
-/

namespace Chance

/-! ## Layouts -/

variable {p : Char → Bool} {cs xs ys : List Char}

/-- `out` is a text of the document followed by `cs`. -/
def Doc.Laid : Doc → List Char → List Char → Prop
  | .nil, cs, out => out = cs
  | .text s, cs, out => out = s.toList ++ cs
  | .line s, cs, out => out = s.toList ++ cs ∨ ∃ n, out = '\n' :: (List.replicate n ' ' ++ cs)
  | .append l r, cs, out => ∃ mid, r.Laid cs mid ∧ l.Laid mid out
  | .nest _ d, cs, out => d.Laid cs out
  | .group d, cs, out => d.Laid cs out

namespace Layout

/-- A text of the documents of all items, in a row. -/
def LaidAll : List Item → List Char → Prop
  | [], out => out = []
  | i :: items, out => ∃ mid, LaidAll items mid ∧ i.doc.Laid mid out

theorem layOut_laid (width : Nat) (items : List Item) (column : Nat) (out : String) :
    ∃ cs, LaidAll items cs ∧ (layOut width items column out).toList = out.toList ++ cs := by
  fun_induction layOut width items column out with
  | case1 => exact ⟨[], rfl, (List.append_nil _).symm⟩
  | case2 column out _ _ rest ih =>
    obtain ⟨cs, hcs, heq⟩ := ih
    exact ⟨cs, ⟨cs, hcs, rfl⟩, heq⟩
  | case3 column out _ _ s rest ih =>
    obtain ⟨cs, hcs, heq⟩ := ih
    refine ⟨s.toList ++ cs, ⟨cs, hcs, rfl⟩, ?_⟩
    rw [heq, String.toList_append, List.append_assoc]
  | case4 column out _ s rest ih =>
    obtain ⟨cs, hcs, heq⟩ := ih
    refine ⟨s.toList ++ cs, ⟨cs, hcs, .inl rfl⟩, ?_⟩
    rw [heq, String.toList_append, List.append_assoc]
  | case5 column out i flat s rest hflat ih =>
    obtain ⟨cs, hcs, heq⟩ := ih
    refine ⟨'\n' :: (List.replicate i ' ' ++ cs), ⟨cs, hcs, .inr ⟨i, rfl⟩⟩, ?_⟩
    simp only [heq, String.toList_append, String.toList_ofList, List.append_assoc]
    rfl
  | case6 column out i flat l r rest ih =>
    obtain ⟨cs, ⟨mid, ⟨mid', hrest, hr⟩, hl⟩, heq⟩ := ih
    exact ⟨cs, ⟨mid', hrest, mid, hr, hl⟩, heq⟩
  | case7 column out i flat n d rest ih => exact ih
  | case8 column out i flat d rest one ih => exact ih

end Layout

theorem Doc.render_laid (d : Doc) (width : Nat) : d.Laid [] (d.render width).toList := by
  obtain ⟨cs, ⟨mid, hmid, hcs⟩, heq⟩ := Layout.layOut_laid width [⟨0, false, d⟩] 0 ""
  cases hmid
  unfold Doc.render
  rw [heq]
  exact hcs

/-! ## Reading tokens -/

namespace Lexer

variable {ts : List Token}

/-- The lexer reads the tokens off the text. -/
inductive Reads : List Char → List Token → Prop
  | nil : Reads [] []
  | space {c : Char} {cs : List Char} {ts : List Token} :
      isSpace c = true → Reads cs ts → Reads (c :: cs) ts
  | token {c : Char} {cs text rest : List Char} {t : Token} {ts : List Token} :
      front c cs = .token t text rest → rest.length ≤ cs.length → Reads rest ts →
      Reads (c :: cs) (t :: ts)

theorem front_space {c : Char} (h : isSpace c = true) (cs : List Char) :
    front c cs = .skip [c] cs := by
  unfold front
  rw [if_pos h]

theorem Reads.lexemesFrom {cs : List Char} {ts : List Token} (h : Reads cs ts) :
    ∀ {fuel : Nat} (offset : Nat), cs.length ≤ fuel →
      ∃ ls, lexemesFrom fuel offset cs = .ok ls ∧ ls.map Lexeme.token = ts := by
  induction h with
  | nil => exact fun _ _ => ⟨[], by unfold Lexer.lexemesFrom; rfl, rfl⟩
  | @space c cs ts hc _ ih =>
    intro fuel offset hfuel
    cases fuel with
    | zero => cases hfuel
    | succ fuel =>
      obtain ⟨ls, hls, hts⟩ := ih (offset + Text.byteLength [c]) (Nat.le_of_succ_le_succ hfuel)
      refine ⟨ls, ?_, hts⟩
      unfold Lexer.lexemesFrom
      rw [front_space hc]
      exact hls
  | @token c cs text rest t ts hfront hlength _ ih =>
    intro fuel offset hfuel
    cases fuel with
    | zero => cases hfuel
    | succ fuel =>
      have hrest := Nat.le_trans hlength (Nat.le_of_succ_le_succ hfuel)
      obtain ⟨ls, hls, hts⟩ := ih (offset + Text.byteLength text) hrest
      refine ⟨⟨t, offset, text⟩ :: ls, ?_, ?_⟩
      · unfold Lexer.lexemesFrom
        rw [hfront]
        simp only [hls]
        rfl
      · rw [List.map_cons, hts]

theorem Reads.lexemes (h : Reads cs ts) : ∃ ls, lexemes cs = .ok ls ∧ ls.map Lexeme.token = ts :=
  h.lexemesFrom 0 (Nat.le_refl _)

theorem Reads.spaces (h : Reads cs ts) (n : Nat) : Reads (List.replicate n ' ' ++ cs) ts := by
  induction n with
  | zero => exact h
  | succ n ih => exact .space rfl ih

end Lexer

/-! ## Texts that no token runs on into -/

/-- No token runs on into the text: it does not go on a name, a number, an operator or a comment. -/
def Calm : List Char → Prop
  | [] => True
  | c :: cs => isNamePart c = false ∧ c ≠ '=' ∧ c ≠ '/' ∧ c ≠ '*' ∧
      (c = '.' → ∀ d ∈ cs.head?, d.isDigit = false)

/-- Marks that nothing turns into another token. -/
def Mark.isFirm : Mark → Bool
  | .lparen | .rparen | .lbracket | .rbracket | .lbrace | .rbrace | .comma | .semi | .colon
  | .question | .plus | .minus => true
  | _ => false

/-- The text does not begin with an equals sign. -/
def Unequal (cs : List Char) : Prop :=
  ∀ c ∈ cs.head?, c ≠ '='

theorem takeWhile_append (hxs : xs.all p = true) (hys : ∀ c ∈ ys.head?, p c = false) :
    (xs ++ ys).takeWhile p = xs := by
  induction xs with
  | nil =>
    cases ys with
    | nil => rfl
    | cons y ys => simp [hys y rfl]
  | cons x xs ih =>
    rw [List.all_cons, Bool.and_eq_true] at hxs
    rw [List.cons_append, List.takeWhile_cons, if_pos hxs.1, ih hxs.2]

theorem dropWhile_append (hxs : xs.all p = true) (hys : ∀ c ∈ ys.head?, p c = false) :
    (xs ++ ys).dropWhile p = ys := by
  induction xs with
  | nil =>
    cases ys with
    | nil => rfl
    | cons y ys => simp [hys y rfl]
  | cons x xs ih =>
    rw [List.all_cons, Bool.and_eq_true] at hxs
    rw [List.cons_append, List.dropWhile_cons, if_pos hxs.1, ih hxs.2]

theorem calm_space (cs : List Char) : Calm (' ' :: cs) :=
  ⟨rfl, by decide, by decide, by decide, nofun⟩

theorem Calm.head {cs : List Char} (h : Calm cs) : ∀ c ∈ cs.head?, isNamePart c = false := by
  cases cs with
  | nil => nofun
  | cons c cs =>
    rintro _ ⟨⟩
    exact h.1

theorem Calm.unequal (h : Calm cs) : Unequal cs := by
  cases cs with
  | nil => nofun
  | cons c cs =>
    rintro _ ⟨⟩
    exact h.2.1

theorem Calm.head_isDigit (h : Calm cs) : ∀ c ∈ cs.head?, c.isDigit = false := by
  intro c hc
  have hpart := h.head c hc
  simp only [isNamePart, Bool.or_eq_false_iff] at hpart
  exact hpart.2

namespace Lexer

variable {cs more rest w : List Char} {ts : List Token} {c : Char} {m : Mark}

theorem isSpace_of_isNameStart (h : isNameStart c = true) : isSpace c = false := by
  cases hc : isSpace c with
  | false => rfl
  | true =>
    simp only [isSpace, Bool.or_eq_true, decide_eq_true_eq] at hc
    rcases hc with (((rfl | rfl) | rfl) | rfl) | rfl <;> exact absurd h (by decide)

theorem reads_run (hc : isNameStart c = true) (hrest : rest.all isNamePart = true) (hcs : Calm cs)
    (h : Reads cs ts) : Reads (c :: rest ++ cs) (.ofName (String.ofList (c :: rest)) :: ts) := by
  have hfront : front c (rest ++ cs) =
      .token (.ofName (String.ofList (c :: rest))) (c :: rest) cs := by
    unfold front
    rw [isSpace_of_isNameStart hc, if_neg Bool.false_ne_true, if_pos hc]
    simp only [takeWhile_append hrest hcs.head, dropWhile_append hrest hcs.head]
  have hlength : cs.length ≤ (rest ++ cs).length := by
    rw [List.length_append]
    omega
  exact .token hfront hlength h

theorem reads_name {x : String} (hx : isName x = true) (hcs : Calm cs) (h : Reads cs ts) :
    Reads (x.toList ++ cs) (.ident x :: ts) := by
  unfold isName at hx
  cases hlist : x.toList with
  | nil =>
    rw [hlist] at hx
    cases hx
  | cons c rest =>
    simp only [hlist, Bool.and_eq_true, Option.isNone_iff_eq_none] at hx
    obtain ⟨⟨hc, hrest⟩, hword⟩ := hx
    have hrun := reads_run hc hrest hcs h
    rwa [← hlist, String.ofList_toList, Token.ofName, hword, hlist] at hrun

theorem reads_word (w : Keyword) (hcs : Calm cs) (h : Reads cs ts) :
    Reads (w.spelling.toList ++ cs) (.word w :: ts) := by
  have hrun {c : Char} {rest : List Char} (hc : isNameStart c = true)
      (hrest : rest.all isNamePart = true) := reads_run hc hrest hcs h
  cases w <;> exact hrun (by decide) (by decide)

/-- A mark that the lexer finds at the front, where neither a name, a string, a comment nor a number
begins. -/
theorem front_mark (hspace : isSpace c = false) (hname : isNameStart c = false)
    (hquote : c ≠ '"' ∧ c ≠ '\'') (hcomment : c = '/' → Calm cs)
    (hnumeral : numeralText (c :: cs) = []) (hmark : mark? (c :: cs) = some m) :
    front c cs = .token (.mark m) m.spelling ((c :: cs).drop m.spelling.length) := by
  unfold front
  rw [hspace, hname, if_neg Bool.false_ne_true, if_neg Bool.false_ne_true,
    if_neg (not_or.2 hquote)]
  split
  · exact absurd rfl (hcomment rfl).2.2.1
  · exact absurd rfl (hcomment rfl).2.2.2.1
  · rw [hnumeral, hmark]
    rfl

theorem numeralText_nil (hdigit : c.isDigit = false)
    (hpoint : c = '.' → ∀ d ∈ cs.head?, d.isDigit = false) : numeralText (c :: cs) = [] := by
  have hwhole : (c :: cs).takeWhile Char.isDigit = [] := by
    rw [List.takeWhile_cons, hdigit, if_neg Bool.false_ne_true]
  have hfraction : fractionText (c :: cs) = [] := by
    unfold fractionText
    split
    · rename_i ds heq
      cases heq
      have hds : ([] ++ cs).takeWhile Char.isDigit = [] := takeWhile_append rfl (hpoint rfl)
      rw [List.nil_append] at hds
      rw [hds]
      rfl
    · rfl
  unfold numeralText
  simp only [hwhole, List.length_nil, List.drop_zero, hfraction]
  rfl

theorem mark?_spelling (m : Mark) (h : Unequal cs) : mark? (m.spelling ++ cs) = some m := by
  have hone : (['='] : List Char).isPrefixOf cs = false := by
    cases cs with
    | nil => rfl
    | cons c cs => simpa [List.isPrefixOf] using (h c rfl).symm
  have htwo : (['=', '='] : List Char).isPrefixOf cs = false := by
    cases cs with
    | nil => rfl
    | cons c cs =>
      have hc := (h c rfl).symm
      simp [List.isPrefixOf, hc]
  cases m <;> simp [mark?, Mark.all, Mark.spelling, List.isPrefixOf, hone, htwo]

/-- How marks are spelled: they begin neither a name, nor a string, nor a number, and those that may
begin a comment or a fraction are one character long. -/
theorem spelling_cons (m : Mark) : ∃ c rest, m.spelling = c :: rest ∧ isSpace c = false ∧
    isNameStart c = false ∧ (c ≠ '"' ∧ c ≠ '\'') ∧ c.isDigit = false ∧
    (c = '/' → rest = [] ∧ m = .slash) ∧ (c = '.' → rest = [] ∧ m = .dot) := by
  cases m <;>
    exact ⟨_, _, rfl, by decide, by decide, by decide, by decide, by decide, by decide⟩

theorem reads_firm (hm : m.isFirm = true) (h : Reads cs ts) :
    Reads (m.spelling ++ cs) (.mark m :: ts) := by
  cases m
  case lparen | rparen | lbracket | rbracket | lbrace | rbrace | comma | semi | colon | question
      | plus | minus => exact .token rfl (Nat.le_refl _) h
  all_goals cases hm

/-- A mark stands at the front of its spelling, if it cannot go on as another one, as a comment or
as a number. -/
theorem front_spelling (hspelling : m.spelling = c :: rest) (hequal : Unequal cs)
    (hslash : m = .slash → Calm cs) (hdot : m = .dot → ∀ c ∈ cs.head?, c.isDigit = false) :
    front c (rest ++ cs) = .token (.mark m) m.spelling cs := by
  have hmark := mark?_spelling m hequal
  obtain ⟨_, _, heq, hspace, hname, hquote, hdigit, hcomment, hpoint⟩ := spelling_cons m
  obtain ⟨rfl, rfl⟩ := List.cons.inj (hspelling.symm.trans heq)
  rw [hspelling, List.cons_append] at hmark
  have hnumeral : numeralText (c :: (rest ++ cs)) = [] := by
    refine numeralText_nil hdigit fun hc => ?_
    obtain ⟨rfl, hm⟩ := hpoint hc
    exact hdot hm
  have hcomment (hc : c = '/') : Calm (rest ++ cs) := by
    obtain ⟨rfl, hm⟩ := hcomment hc
    exact hslash hm
  have hdrop : (c :: (rest ++ cs)).drop m.spelling.length = cs := by
    rw [← List.cons_append, ← hspelling, List.drop_left]
  rw [front_mark hspace hname hquote hcomment hnumeral hmark, hdrop]

theorem reads_mark (m : Mark) (hequal : Unequal cs) (hslash : m = .slash → Calm cs)
    (hdot : m = .dot → ∀ c ∈ cs.head?, c.isDigit = false) (h : Reads cs ts) :
    Reads (m.spelling ++ cs) (.mark m :: ts) := by
  obtain ⟨c, rest, hspelling, -⟩ := spelling_cons m
  have hfront := front_spelling hspelling hequal hslash hdot
  have hlength : cs.length ≤ (rest ++ cs).length := by
    rw [List.length_append]
    omega
  rw [hspelling]
  exact .token hfront hlength h

theorem stringBody_literal (cs l : List Char) : ∃ text,
    stringBody '"' (l.flatMap Text.literalChar ++ '"' :: cs) = ⟨text, l, some cs⟩ := by
  induction l with
  | nil => exact ⟨[], by simp [stringBody]⟩
  | cons c l ih =>
    obtain ⟨text, htext⟩ := ih
    rw [List.flatMap_cons, List.append_assoc]
    cases hescape : Text.escapeLetter c with
    | some e =>
      have hchar : Text.literalChar c = ['\\', e] := by rw [Text.literalChar, hescape]
      have hunescape := Text.unescape_escapeLetter hescape
      have hline : e ≠ '\n' := by
        rintro rfl
        have hc : c = '\n' := hunescape.symm
        rw [hc] at hescape
        exact absurd hescape (by decide)
      refine ⟨'\\' :: e :: text, ?_⟩
      rw [hchar]
      simp only [List.cons_append, List.nil_append, stringBody, if_neg hline, htext, hunescape]
    | none =>
      have hchar : Text.literalChar c = [c] := by rw [Text.literalChar, hescape]
      unfold Text.escapeLetter at hescape
      split_ifs at hescape with hzero htab hreturn hline hquote hslash
      refine ⟨c :: text, ?_⟩
      rw [hchar, List.cons_append, List.nil_append, stringBody, if_neg hquote,
        if_neg (not_or.2 ⟨hline, hslash⟩), htext]
      rintro _ _ rfl
      exact absurd rfl hslash

theorem reads_text (s : String) (h : Reads cs ts) :
    Reads ((Text.literal s).toList ++ cs) (.str s :: ts) := by
  obtain ⟨text, htext⟩ := stringBody_literal cs s.toList
  have hchars : (Text.literal s).toList ++ cs =
      '"' :: (s.toList.flatMap Text.literalChar ++ '"' :: cs) := by
    rw [Text.literal, String.toList_ofList, List.cons_append, List.cons_append, List.append_assoc]
    rfl
  have hfront : front '"' (s.toList.flatMap Text.literalChar ++ '"' :: cs) =
      .token (.str s) ('"' :: text ++ ['"']) cs := by
    unfold front
    rw [if_neg (by decide), if_neg (by decide), if_pos (.inl rfl)]
    simp only [htext, String.ofList_toList]
  rw [hchars]
  refine .token hfront ?_ h
  rw [List.length_append, List.length_cons]
  omega

/-! ## Numbers -/

/-- Nothing, or a point and digits. -/
def IsFraction (cs : List Char) : Prop :=
  cs = [] ∨ ∃ ds, ds ≠ [] ∧ ds.all Char.isDigit = true ∧ cs = '.' :: ds

/-- Nothing, or a letter for a power of ten, with a sign or without one, and digits. -/
def IsExponent (cs : List Char) : Prop :=
  cs = [] ∨ ∃ c sign ds, (c = 'e' ∨ c = 'E') ∧ (sign = [] ∨ sign = ['-'] ∨ sign = ['+']) ∧ ds ≠ [] ∧
    ds.all Char.isDigit = true ∧ cs = c :: (sign ++ ds)

/-- Digits with a fraction, at least one of them, and a power of ten. -/
def IsNumeral (w : List Char) : Prop :=
  ∃ whole fraction exponent, w = whole ++ (fraction ++ exponent) ∧ whole.all Char.isDigit = true ∧
    IsFraction fraction ∧ IsExponent exponent ∧ whole ++ fraction ≠ []

theorem exponentText_calm (h : Calm cs) : exponentText cs = [] := by
  have hread : (Decimal.readExponent cs).2 = cs := by
    cases cs with
    | nil => rfl
    | cons c cs =>
      have hletter : ¬(c = 'e' ∨ c = 'E') := by
        rintro (rfl | rfl) <;> exact absurd h.1 (by decide)
      unfold Decimal.readExponent
      simp only [hletter, false_and, if_false]
  unfold exponentText
  rw [hread, Nat.sub_self, List.take_zero]

theorem fractionText_calm (h : Calm cs) : fractionText cs = [] := by
  unfold fractionText
  split
  · rename_i ds
    have hds : ([] ++ ds).takeWhile Char.isDigit = [] := takeWhile_append rfl (h.2.2.2.2 rfl)
    rw [List.nil_append] at hds
    rw [hds]
    rfl
  · rfl

theorem readExponent_cons (c : Char) (cs : List Char) : ∃ sign ds, cs = sign ++ ds ∧
    (sign = [] ∧ (∀ d ∈ ds.head?, d ≠ '-' ∧ d ≠ '+') ∨ sign = ['-'] ∨ sign = ['+']) ∧
    (Decimal.readExponent (c :: cs)).2 =
      if (c = 'e' ∨ c = 'E') ∧ ds.takeWhile Char.isDigit ≠ [] then ds.dropWhile Char.isDigit
      else c :: cs := by
  unfold Decimal.readExponent
  dsimp only
  split
  · exact ⟨['-'], _, rfl, .inr (.inl rfl), by split_ifs <;> rfl⟩
  · exact ⟨['+'], _, rfl, .inr (.inr rfl), by split_ifs <;> rfl⟩
  · rename_i hminus hplus
    refine ⟨[], cs, rfl, .inl ⟨rfl, fun d hd => ?_⟩, by split_ifs <;> rfl⟩
    obtain ⟨ds, rfl⟩ := List.head?_eq_some_iff.1 hd
    exact ⟨fun h => hminus ds (h ▸ rfl), fun h => hplus ds (h ▸ rfl)⟩

theorem IsExponent.exponentText_append (h : IsExponent cs) (hmore : Calm more) :
    exponentText (cs ++ more) = cs := by
  rcases h with rfl | ⟨c, sign, ds, hc, hsign, hne, hds, rfl⟩
  · exact exponentText_calm hmore
  · have hdigits := hmore.head_isDigit
    have htake : (ds ++ more).takeWhile Char.isDigit = ds := takeWhile_append hds hdigits
    have hdrop : (ds ++ more).dropWhile Char.isDigit = more := dropWhile_append hds hdigits
    have hread : (Decimal.readExponent (c :: (sign ++ (ds ++ more)))).2 = more := by
      rcases hsign with rfl | rfl | rfl
      · cases ds with
        | nil => exact absurd rfl hne
        | cons d ds =>
          have hd : d.isDigit = true := (List.all_eq_true.1 hds) d List.mem_cons_self
          obtain ⟨sign, ds', heq, hsign, hread⟩ := readExponent_cons c (d :: ds ++ more)
          rcases hsign with ⟨rfl, -⟩ | rfl | rfl
          · rw [List.nil_append] at heq
            rw [List.nil_append, hread, ← heq, htake, hdrop, if_pos ⟨hc, hne⟩]
          · cases heq
            cases hd
          · cases heq
            cases hd
      · simp [Decimal.readExponent, htake, hdrop, hc, hne]
      · simp [Decimal.readExponent, htake, hdrop, hc, hne]
    have htext : c :: (sign ++ ds) ++ more = c :: (sign ++ (ds ++ more)) := by simp
    rw [exponentText, htext, hread, ← htext, List.length_append, Nat.add_sub_cancel, List.take_left]

theorem IsFraction.fractionText_append (h : IsFraction cs)
    (hmore : ∀ c ∈ more.head?, c.isDigit = false) (hpoint : fractionText more = []) :
    fractionText (cs ++ more) = cs := by
  rcases h with rfl | ⟨ds, hne, hds, rfl⟩
  · exact hpoint
  · simp [fractionText, takeWhile_append hds hmore, hne]

theorem IsExponent.head_append (h : IsExponent cs) (hmore : Calm more) :
    (∀ c ∈ (cs ++ more).head?, c.isDigit = false) ∧ fractionText (cs ++ more) = [] := by
  rcases h with rfl | ⟨c, sign, ds, hc, -, -, -, rfl⟩
  · exact ⟨hmore.head_isDigit, fractionText_calm hmore⟩
  · rcases hc with rfl | rfl
    · exact ⟨by rintro _ ⟨⟩; rfl, rfl⟩
    · exact ⟨by rintro _ ⟨⟩; rfl, rfl⟩

theorem IsNumeral.numeralText_append (h : IsNumeral w) (hmore : Calm more) :
    numeralText (w ++ more) = w := by
  obtain ⟨whole, fraction, exponent, rfl, hwhole, hfraction, hexponent, hne⟩ := h
  obtain ⟨hdigit, hpoint⟩ := hexponent.head_append hmore
  have hhead : ∀ c ∈ (fraction ++ (exponent ++ more)).head?, c.isDigit = false := by
    rcases hfraction with rfl | ⟨ds, -, -, rfl⟩
    · exact hdigit
    · rintro _ ⟨⟩
      rfl
  have htake : (whole ++ (fraction ++ (exponent ++ more))).takeWhile Char.isDigit = whole :=
    takeWhile_append hwhole hhead
  have hmantissa : (whole ++ fraction).isEmpty = false := by
    rwa [← Bool.not_eq_true, List.isEmpty_iff]
  have hdrop : (whole ++ (fraction ++ (exponent ++ more))).drop (whole ++ fraction).length =
      exponent ++ more := by
    rw [← List.append_assoc, List.drop_left]
  unfold numeralText
  simp only [List.append_assoc, htake, List.drop_left, hfraction.fractionText_append hdigit hpoint,
    hmantissa, hdrop, hexponent.exponentText_append hmore, Bool.false_eq_true, if_false]

theorem front_of_isDigit (h : c.isDigit = true) : isSpace c = false ∧
    isNameStart c = false ∧ ¬(c = '"' ∨ c = '\'') ∧ c ≠ '/' ∧ c ≠ '=' := by
  have hrange : 48 ≤ c.toNat ∧ c.toNat ≤ 57 := by
    simp only [Char.isDigit, Bool.and_eq_true, decide_eq_true_eq, ge_iff_le,
      UInt32.le_iff_toNat_le] at h
    exact h
  obtain ⟨hlow, hhigh⟩ := hrange
  have hc : c = Char.ofNat c.toNat := (Char.ofNat_toNat c).symm
  generalize c.toNat = n at hlow hhigh hc
  interval_cases n <;> subst hc <;> decide

theorem IsNumeral.head (h : IsNumeral (c :: w)) : isSpace c = false ∧
    isNameStart c = false ∧ ¬(c = '"' ∨ c = '\'') ∧ c ≠ '/' ∧ c ≠ '=' := by
  obtain ⟨whole, fraction, exponent, heq, hwhole, hfraction, -, hne⟩ := h
  cases whole with
  | cons d whole =>
    obtain ⟨rfl, -⟩ := List.cons.inj heq
    exact front_of_isDigit (List.all_eq_true.1 hwhole c List.mem_cons_self)
  | nil =>
    rcases hfraction with rfl | ⟨ds, -, -, rfl⟩
    · exact absurd rfl hne
    · obtain ⟨rfl, -⟩ := List.cons.inj heq
      decide

theorem IsNumeral.exists_cons (h : IsNumeral w) : ∃ c rest, w = c :: rest := by
  obtain ⟨whole, fraction, exponent, rfl, -, -, -, hne⟩ := h
  refine List.exists_cons_of_ne_nil fun hnil => hne ?_
  rw [← List.append_assoc] at hnil
  exact (List.append_eq_nil_iff.1 hnil).1

theorem front_numeral {n : Decimal.Numeral} (h : IsNumeral (c :: rest))
    (hn : Decimal.numeral? (c :: rest) = some n) (hcs : Calm cs) :
    front c (rest ++ cs) = .token (.num n.value) (c :: rest) cs := by
  obtain ⟨hspace, hname, hquote, hslash, -⟩ := h.head
  have htext : numeralText (c :: (rest ++ cs)) = c :: rest := h.numeralText_append hcs
  unfold front
  rw [hspace, hname, if_neg Bool.false_ne_true, if_neg Bool.false_ne_true, if_neg hquote]
  split
  · exact absurd rfl hslash
  · exact absurd rfl hslash
  · simp only [htext, hn]
    rw [← List.cons_append, List.drop_left]

end Lexer

/-- The written form of a number reads back as the number. -/
def Number.ReadsBack (x : Float) : Prop :=
  (Decimal.numeral? (Decimal.Style.source.write x).toList).map Decimal.Numeral.value = some x

namespace Decimal

variable {digits : List Char}

theorem isDigit_toDigits (n : Nat) : (Nat.toDigits 10 n).all Char.isDigit = true :=
  List.all_eq_true.2 fun _ hc => Nat.isDigit_of_mem_toDigits (by decide) (by decide) hc

theorem isDigit_zeros (n : Nat) : (List.replicate n '0').all Char.isDigit = true := by
  refine List.all_eq_true.2 fun c hc => ?_
  rw [List.eq_of_mem_replicate hc]
  rfl

theorem splitDigits_digits (before : Int) (hdigits : digits ≠ [])
    (h : digits.all Char.isDigit = true) :
    (splitDigits digits before).1 ≠ [] ∧ (splitDigits digits before).1.all Char.isDigit = true ∧
      (splitDigits digits before).2.all Char.isDigit = true := by
  have hall {ds : List Char} (hds : ∀ c ∈ ds, c ∈ digits) : ds.all Char.isDigit = true :=
    List.all_eq_true.2 fun c hc => List.all_eq_true.1 h c (hds c hc)
  unfold splitDigits
  split_ifs with hbefore
  · refine ⟨List.cons_ne_nil _ _, rfl, ?_⟩
    rw [List.all_append, isDigit_zeros, h]
    rfl
  · refine ⟨?_, ?_, hall fun c hc => List.mem_of_mem_drop hc⟩
    · -- There is a digit before the point.
      cases digits with
      | nil => exact absurd rfl hdigits
      | cons d digits =>
        cases hplaces : before.toNat with
        | zero => omega
        | succ places => exact List.cons_ne_nil _ _
    · rw [List.all_append, isDigit_zeros, hall fun c hc => List.mem_of_mem_take hc]
      rfl

theorem positionalText_isNumeral (before : Int) (hdigits : digits ≠ [])
    (h : digits.all Char.isDigit = true) :
    Lexer.IsNumeral (Style.source.positionalText digits before) := by
  obtain ⟨hne, hwhole, hfraction⟩ := splitDigits_digits before hdigits h
  unfold Style.positionalText
  split
  · rename_i whole heq
    rw [heq] at hne hwhole
    exact ⟨whole, [], [], (List.append_nil _).symm, hwhole, .inl rfl, .inl rfl, by simpa using hne⟩
  · rename_i whole fraction hsome heq
    rw [heq] at hne hwhole hfraction
    refine ⟨whole, '.' :: fraction, [], by rw [List.append_nil], hwhole,
      .inr ⟨fraction, fun h => hsome h, hfraction, rfl⟩, .inl rfl, by simp⟩

end Decimal

namespace Number

open Decimal

variable {x : Float}

theorem IsMagnitude.write_eq (hx : IsMagnitude x) :
    Style.source.write x = if x.isInf then "Infinity" else if x == 0 then "0"
      else String.ofList (Style.source.layout (Binary.ofBits x.toBits).shortest) := by
  have hsign : decide (x.toBits >>> 63 = 1) = false := hx.positive
  unfold Style.write
  simp only [hx.notNaN, Bool.false_eq_true, if_false, hsign, Bool.false_and]
  rfl

theorem IsMagnitude.write_isNumeral (hx : IsMagnitude x) (hfinite : x.isInf = false) :
    Lexer.IsNumeral (Style.source.write x).toList := by
  rw [hx.write_eq, hfinite, if_neg Bool.false_ne_true]
  split_ifs
  · exact ⟨['0'], [], [], rfl, rfl, .inl rfl, .inl rfl, List.cons_ne_nil _ _⟩
  · rw [String.toList_ofList]
    exact positionalText_isNumeral _ Nat.toDigits_ne_nil (isDigit_toDigits _)

theorem IsMagnitude.write_infinite (hx : IsMagnitude x) (hinfinite : x.isInf = true) :
    Style.source.write x = "Infinity" := by
  rw [hx.write_eq, hinfinite, if_pos rfl]

end Number

namespace Lexer

variable {cs : List Char} {ts : List Token}

theorem reads_number {x : Float} (hx : Number.IsMagnitude x) (hfinite : x.isInf = false)
    (hback : Number.ReadsBack x) (hcs : Calm cs) (h : Reads cs ts) :
    Reads ((Decimal.Style.source.write x).toList ++ cs) (.num x :: ts) := by
  have hwritten := hx.write_isNumeral hfinite
  obtain ⟨n, hnumeral, hvalue⟩ := Option.map_eq_some_iff.1 hback
  generalize (Decimal.Style.source.write x).toList = w at hwritten hnumeral ⊢
  obtain ⟨c, rest, rfl⟩ := hwritten.exists_cons
  have hfront := front_numeral hwritten hnumeral hcs
  rw [hvalue] at hfront
  have hlength : cs.length ≤ (rest ++ cs).length := by
    rw [List.length_append]
    omega
  exact .token hfront hlength h

end Lexer

end Chance
