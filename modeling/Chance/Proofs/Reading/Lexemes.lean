import Mathlib.Data.List.TakeWhile
import Chance.Proofs.Printing.Lexing

/-!
# Lexemes and the text between them

The lexer cuts a text into lexemes and leaves out what stands between them: white space and
comments. A lexeme can be read again from its own characters, whatever calm text follows them, so
the tokens do not depend on how far the lexemes are apart.

- `Lexer.Gap`, `Lexer.Covers`: lexemes with gaps between them make up the text,
- `Lexer.Stands`: characters that read as one token before any calm text,
- `lexing_keeps_all`: the lexemes of a text cover it, and they read again from a text with single
  spaces between them.
-/

namespace Chance

/-- The byte offset at which a lexeme ends. -/
def Lexeme.stop (l : Lexeme) : Nat :=
  l.start + Text.byteLength l.text

namespace Lexer

/-! ## Gaps and lexemes -/

/-- What may stand between tokens, before the text `after`: white space, comments up to the end of
the line, and comments that are closed, with nothing inside that closes them. -/
inductive Gap : List Char → List Char → Prop
  | nil (after : List Char) : Gap [] after
  | space {c : Char} {gap after : List Char} :
      isSpace c = true → Gap gap after → Gap (c :: gap) after
  | line {body gap after : List Char} : '\n' ∉ body → (∀ c ∈ (gap ++ after).head?, c = '\n') →
      Gap gap after → Gap ('/' :: '/' :: (body ++ gap)) after
  | block {body gap after : List Char} : ¬ ['*', '/'] <:+: body ++ ['*'] → Gap gap after →
      Gap ('/' :: '*' :: (body ++ '*' :: '/' :: gap)) after

/-- The lexemes, with gaps between them, make up the text, which begins at the given offset. -/
inductive Covers : Nat → List Char → List Lexeme → Prop
  | done {offset : Nat} {gap : List Char} : Gap gap [] → Covers offset gap []
  | lexeme {offset : Nat} {gap rest : List Char} {l : Lexeme} {ls : List Lexeme} :
      Gap gap (l.text ++ rest) → l.start = offset + Text.byteLength gap → l.text ≠ [] →
      Covers l.stop rest ls → Covers offset (gap ++ (l.text ++ rest)) (l :: ls)

theorem byteLength_append (xs ys : List Char) :
    Text.byteLength (xs ++ ys) = Text.byteLength xs + Text.byteLength ys := by
  induction xs with
  | nil => exact (Nat.zero_add _).symm
  | cons x xs ih =>
    change x.utf8Size + Text.byteLength (xs ++ ys) = x.utf8Size + Text.byteLength xs + _
    rw [ih, Nat.add_assoc]

theorem Covers.skip {offset : Nat} {text cs : List Char} {ls : List Lexeme}
    (hgap : ∀ {gap after}, cs = gap ++ after → Gap gap after → Gap (text ++ gap) after)
    (h : Covers (offset + Text.byteLength text) cs ls) : Covers offset (text ++ cs) ls := by
  cases h with
  | done hend => exact .done (hgap (List.append_nil _).symm hend)
  | @lexeme _ gap rest l ls hbefore hstart htext hrest =>
    rw [← List.append_assoc]
    refine .lexeme (hgap rfl hbefore) ?_ htext hrest
    rw [hstart, byteLength_append, Nat.add_assoc]

theorem Covers.start_le {offset : Nat} {cs : List Char} {ls : List Lexeme}
    (h : Covers offset cs ls) : ∀ l ∈ ls, offset ≤ l.start := by
  induction h with
  | done => nofun
  | @lexeme offset gap rest l ls hgap hstart htext hrest ih =>
    have hl : offset ≤ l.start := hstart ▸ Nat.le_add_right _ _
    refine List.forall_mem_cons.2 ⟨hl, fun l' hl' => ?_⟩
    exact (hl.trans (Nat.le_add_right _ _)).trans (ih l' hl')

theorem Covers.disjoint {offset : Nat} {cs : List Char} {ls : List Lexeme}
    (h : Covers offset cs ls) : ls.Pairwise fun l l' => l.stop ≤ l'.start := by
  induction h with
  | done => exact .nil
  | lexeme _ _ _ hrest ih => exact .cons hrest.start_le ih

/-- What stands before a lexeme, with the lexeme itself and what stands after it, is the text. -/
theorem Covers.split {offset : Nat} {cs : List Char} {ls : List Lexeme} (h : Covers offset cs ls) :
    ∀ l ∈ ls, ∃ before after, cs = before ++ (l.text ++ after) ∧
      l.start = offset + Text.byteLength before ∧ l.text ≠ [] := by
  induction h with
  | done => nofun
  | @lexeme offset gap rest l ls _ hstart htext _ ih =>
    refine List.forall_mem_cons.2 ⟨⟨gap, rest, rfl, hstart, htext⟩, fun l' hl' => ?_⟩
    obtain ⟨before, after, rfl, hstart', htext'⟩ := ih l' hl'
    refine ⟨gap ++ (l.text ++ before), after, by simp, ?_, htext'⟩
    rw [hstart', Lexeme.stop, hstart, byteLength_append, byteLength_append]
    omega

/-! ## What the lexer skips -/

theorem closeComment?_eq {cs text rest : List Char} (h : closeComment? cs = some (text, rest)) :
    ∃ body, text = body ++ ['*', '/'] ∧ cs = text ++ rest ∧ ¬ ['*', '/'] <:+: body ++ ['*'] := by
  fun_induction closeComment? cs generalizing text rest with
  | case1 cs =>
    cases h
    exact ⟨[], rfl, rfl, by decide⟩
  | case2 => cases h
  | case3 c cs hclose ih =>
    obtain ⟨⟨text', rest'⟩, hrest, heq⟩ := Option.map_eq_some_iff.1 h
    obtain ⟨rfl, rfl⟩ := Prod.mk.inj heq
    obtain ⟨body, rfl, rfl, hbody⟩ := ih hrest
    refine ⟨c :: body, rfl, rfl, fun hinfix => ?_⟩
    rcases List.infix_cons_iff.1 hinfix with hprefix | hinfix
    · -- The comment would have been closed at its first character.
      obtain ⟨more, hmore⟩ := hprefix
      obtain ⟨hstar, hslash⟩ := List.cons.inj hmore
      cases body with
      | nil => cases hslash
      | cons d body =>
        obtain ⟨rfl, -⟩ := List.cons.inj hslash
        exact hclose _ hstar.symm rfl
    · exact hbody hinfix

theorem front_skip {c : Char} {cs text rest : List Char} (h : front c cs = .skip text rest) :
    c :: cs = text ++ rest ∧
      ∀ {gap after : List Char}, rest = gap ++ after → Gap gap after → Gap (text ++ gap) after := by
  unfold front at h
  split_ifs at h with hspace
  · cases h
    exact ⟨rfl, fun _ hgap => .space hspace hgap⟩
  · dsimp only at h
    split at h <;> cases h
  · split at h
    · rename_i ds _ _
      cases h
      refine ⟨?_, fun hrest hgap => .line ?_ ?_ hgap⟩
      · simp only [List.cons_append, List.takeWhile_append_dropWhile]
      · intro hmem
        simpa using List.mem_takeWhile_imp hmem
      · intro d hd
        rw [← hrest] at hd
        by_contra hline
        have := List.head?_dropWhile_not (· ≠ '\n') ds
        rw [Option.mem_def.1 hd] at this
        simp [hline] at this
    · split at h
      · rename_i ds _ _ _ hclose
        cases h
        obtain ⟨body, rfl, rfl, hbody⟩ := closeComment?_eq hclose
        refine ⟨rfl, fun _ hgap => ?_⟩
        have hblock := Gap.block hbody hgap
        simpa using hblock
      · cases h
    · dsimp only at h
      split at h
      · cases h
      · split at h <;> cases h

/-! ## Reading a lexeme again -/

/-- The characters read as the token before any calm text. -/
def Stands (t : Token) (text : List Char) : Prop :=
  ∃ c cs, text = c :: cs ∧
    ∀ {more : List Char}, Calm more → front c (cs ++ more) = .token t text more

theorem stringBody_again {q : Char} (hq : q ≠ '\\') {cs rest : List Char}
    (h : (stringBody q cs).rest = some rest) : cs = (stringBody q cs).text ++ q :: rest ∧
      ∀ more, stringBody q ((stringBody q cs).text ++ q :: more) =
        ⟨(stringBody q cs).text, (stringBody q cs).value, some more⟩ := by
  fun_induction stringBody q cs with
  | case1 => cases h
  | case2 => cases h
  | case3 c cs hline b ih =>
    obtain ⟨hcs, hagain⟩ := ih h
    refine ⟨congrArg (fun ds => '\\' :: c :: ds) hcs, fun more => ?_⟩
    simp only [List.cons_append, stringBody, if_neg hline, b, hagain more]
  | case4 cs _ =>
    cases h
    refine ⟨rfl, fun more => ?_⟩
    rw [List.nil_append, stringBody, if_pos rfl]
    exact fun _ _ hslash _ => hq hslash
  | case5 => cases h
  | case6 c cs _ hquote hplain b ih =>
    obtain ⟨hcs, hagain⟩ := ih h
    refine ⟨congrArg (c :: ·) hcs, fun more => ?_⟩
    rw [List.cons_append, stringBody, if_neg hquote, if_neg hplain]
    · simp only [b, hagain more]
    · exact fun _ _ hslash _ => hplain (.inr hslash)

/-! ### Numerals -/

theorem fractionText_isFraction (cs : List Char) : IsFraction (fractionText cs) := by
  unfold fractionText
  split
  · rename_i ds
    split_ifs with hempty
    · exact .inl rfl
    · refine .inr ⟨_, ?_, List.all_takeWhile, rfl⟩
      rwa [List.isEmpty_iff] at hempty
  · exact .inl rfl

theorem exponentText_isExponent (cs : List Char) : IsExponent (exponentText cs) := by
  unfold exponentText
  cases cs with
  | nil => exact .inl rfl
  | cons c cs =>
    obtain ⟨sign, ds, rfl, hsign, hread⟩ := readExponent_cons c cs
    rw [hread]
    split_ifs with hexponent
    · obtain ⟨hc, hne⟩ := hexponent
      have htext : c :: (sign ++ ds) =
          c :: (sign ++ ds.takeWhile Char.isDigit) ++ ds.dropWhile Char.isDigit := by simp
      refine .inr ⟨c, sign, _, hc, hsign.imp_left And.left, hne, List.all_takeWhile, ?_⟩
      rw [htext, List.length_append, Nat.add_sub_cancel, List.take_left]
    · exact .inl (by rw [Nat.sub_self, List.take_zero])

theorem isPrefix_fractionText (cs : List Char) : fractionText cs <+: cs := by
  unfold fractionText
  split
  · split_ifs
    · exact List.nil_prefix
    · exact List.cons_prefix_cons.2 ⟨rfl, List.takeWhile_prefix _⟩
  · exact List.nil_prefix

theorem numeralText_isNumeral {cs : List Char} (h : numeralText cs ≠ []) :
    IsNumeral (numeralText cs) ∧ numeralText cs <+: cs := by
  obtain ⟨after, hwhole⟩ := List.takeWhile_prefix (l := cs) Char.isDigit
  obtain ⟨rest, hfraction⟩ := isPrefix_fractionText after
  obtain ⟨more, hexponent⟩ : exponentText rest <+: rest := List.take_prefix _ _
  have hafter : cs.drop (cs.takeWhile Char.isDigit).length = after := by
    have hdrop := congrArg (List.drop (cs.takeWhile Char.isDigit).length) hwhole
    rwa [List.drop_left, eq_comm] at hdrop
  have hrest : cs.drop (cs.takeWhile Char.isDigit ++ fractionText after).length = rest := by
    rw [List.length_append, ← List.drop_drop, hafter]
    have hdrop := congrArg (List.drop (fractionText after).length) hfraction
    rwa [List.drop_left, eq_comm] at hdrop
  have htext : (cs.takeWhile Char.isDigit ++ fractionText after) ≠ [] ∧ numeralText cs =
      cs.takeWhile Char.isDigit ++ (fractionText after ++ exponentText rest) := by
    unfold numeralText at h ⊢
    simp only [hafter, hrest] at h ⊢
    split_ifs at h ⊢ with hempty
    · exact absurd rfl h
    · exact ⟨fun hnil => hempty (List.isEmpty_iff.2 hnil), List.append_assoc _ _ _⟩
  obtain ⟨hne, htext⟩ := htext
  rw [htext]
  refine ⟨⟨_, _, _, rfl, List.all_takeWhile, fractionText_isFraction _, exponentText_isExponent _,
    hne⟩, more, ?_⟩
  rw [List.append_assoc, List.append_assoc, hexponent, hfraction, hwhole]

theorem IsNumeral.stands {w : List Char} {n : Decimal.Numeral} (h : IsNumeral w)
    (hn : Decimal.numeral? w = some n) : Stands (.num n.value) w := by
  obtain ⟨c, rest, rfl⟩ := h.exists_cons
  exact ⟨c, rest, rfl, fun hmore => front_numeral h hn hmore⟩

theorem Mark.stands (m : Mark) : Stands (.mark m) m.spelling := by
  obtain ⟨c, rest, hspelling, -⟩ := spelling_cons m
  exact ⟨c, rest, hspelling, fun hmore =>
    front_spelling hspelling hmore.unequal (fun _ => hmore) fun _ => hmore.head_isDigit⟩

theorem isPrefix_of_mark? {cs : List Char} {m : Mark} (h : mark? cs = some m) :
    m.spelling <+: cs := by
  have hprefix := List.find?_some h
  exact List.isPrefixOf_iff_prefix.1 hprefix

theorem front_stands {c : Char} {cs text rest : List Char} {t : Token}
    (h : front c cs = .token t text rest) : Stands t text ∧ c :: cs = text ++ rest := by
  unfold front at h
  split_ifs at h with hspace hname hquote
  · cases h
    refine ⟨⟨c, _, rfl, fun {more} hmore => ?_⟩, ?_⟩
    · unfold front
      rw [if_neg hspace, if_pos hname]
      simp only [takeWhile_append List.all_takeWhile hmore.head,
        dropWhile_append List.all_takeWhile hmore.head]
    · rw [List.cons_append, List.takeWhile_append_dropWhile]
  · dsimp only at h
    split at h
    · rename_i rest' hrest
      cases h
      have hslash : c ≠ '\\' := by
        rintro rfl
        revert hquote
        decide
      -- What comes after the closing quote does not change what is read before it.
      obtain ⟨hcs, hagain⟩ := stringBody_again hslash hrest
      refine ⟨⟨c, (stringBody c cs).text ++ [c], rfl, fun {more} hmore => ?_⟩, ?_⟩
      · unfold front
        rw [if_neg hspace, if_neg hname, if_pos hquote, List.append_assoc, List.singleton_append]
        simp only [hagain more]
      · rw [List.append_assoc, List.singleton_append, List.cons_append, ← hcs]
    · cases h
  · split at h
    · cases h
    · split at h <;> cases h
    · dsimp only at h
      split at h
      · rename_i n hn
        cases h
        -- A text that is no numeral is empty, and an empty text has no value.
        have hne : numeralText (c :: cs) ≠ [] := by
          intro hnil
          rw [hnil] at hn
          cases hn
        obtain ⟨hnumeral, hprefix⟩ := numeralText_isNumeral hne
        exact ⟨hnumeral.stands hn, (List.prefix_iff_eq_append.1 hprefix).symm⟩
      · split at h
        · rename_i m hm
          cases h
          exact ⟨Mark.stands m, (List.prefix_iff_eq_append.1 (isPrefix_of_mark? hm)).symm⟩
        · cases h

/-! ## Whole texts -/

theorem lexemesFrom_covers {fuel offset : Nat} {cs : List Char} {ls : List Lexeme}
    (h : lexemesFrom fuel offset cs = .ok ls) :
    Covers offset cs ls ∧ ∀ l ∈ ls, Stands l.token l.text := by
  induction fuel generalizing offset cs ls with
  | zero =>
    cases cs with
    | nil =>
      cases h
      exact ⟨.done (.nil _), nofun⟩
    | cons c cs => cases h
  | succ fuel ih =>
    cases cs with
    | nil =>
      cases h
      exact ⟨.done (.nil _), nofun⟩
    | cons c cs =>
      simp only [lexemesFrom] at h
      split at h
      · rename_i text rest hfront
        obtain ⟨hcovers, hstands⟩ := ih h
        obtain ⟨hcs, hgap⟩ := front_skip hfront
        rw [hcs]
        exact ⟨hcovers.skip hgap, hstands⟩
      · rename_i t text rest hfront
        cases hrest : lexemesFrom fuel (offset + Text.byteLength text) rest with
        | error f =>
          rw [hrest] at h
          cases h
        | ok more =>
          rw [hrest] at h
          cases h
          obtain ⟨hcovers, hmore⟩ := ih hrest
          obtain ⟨hstands, hcs⟩ := front_stands hfront
          obtain ⟨d, ds, rfl, -⟩ := id hstands
          rw [hcs]
          refine ⟨?_, List.forall_mem_cons.2 ⟨hstands, hmore⟩⟩
          exact .lexeme (l := ⟨t, offset, _⟩) (.nil _) rfl (List.cons_ne_nil _ _) hcovers
      · cases h

/-- The characters of the lexemes, with a space between each two. -/
def spaced (ls : List Lexeme) : List Char :=
  [' '].intercalate (ls.map Lexeme.text)

theorem Stands.lexemesFrom {t : Token} {text more : List Char} {ls : List Lexeme} {fuel : Nat}
    (h : Stands t text) (offset : Nat) (hmore : Calm more)
    (hrest : lexemesFrom fuel (offset + Text.byteLength text) more = .ok ls) :
    lexemesFrom (fuel + 1) offset (text ++ more) = .ok (⟨t, offset, text⟩ :: ls) := by
  obtain ⟨c, cs, rfl, hfront⟩ := h
  rw [List.cons_append, Lexer.lexemesFrom, hfront hmore]
  simp only [hrest]
  rfl

theorem lexemesFrom_spaced {ls : List Lexeme} (h : ∀ l ∈ ls, Stands l.token l.text)
    {fuel : Nat} (offset : Nat) (hfuel : (spaced ls).length ≤ fuel) :
    ∃ ls', lexemesFrom fuel offset (spaced ls) = .ok ls' ∧
      ls'.map (fun l => (l.token, l.text)) = ls.map fun l => (l.token, l.text) := by
  induction ls generalizing fuel offset with
  | nil => exact ⟨[], by unfold lexemesFrom; rfl, rfl⟩
  | cons l ls ih =>
    obtain ⟨hl, hls⟩ := List.forall_mem_cons.1 h
    obtain ⟨c, cs, htext, -⟩ := id hl
    cases ls with
    | nil =>
      have hspaced : spaced [l] = l.text ++ [] := by simp [spaced]
      rw [hspaced] at hfuel ⊢
      rw [htext] at hfuel
      obtain ⟨fuel, rfl⟩ := Nat.exists_eq_add_of_le' (Nat.one_le_of_lt hfuel)
      exact ⟨_, hl.lexemesFrom offset trivial (by unfold lexemesFrom; rfl), rfl⟩
    | cons l' ls =>
      have hspaced : spaced (l :: l' :: ls) = l.text ++ ' ' :: spaced (l' :: ls) := by
        simp [spaced, List.intercalate]
      rw [hspaced] at hfuel ⊢
      rw [htext, List.length_append, List.length_cons, List.length_cons] at hfuel
      obtain ⟨fuel, rfl⟩ := Nat.exists_eq_add_of_le' (show 2 ≤ fuel by omega)
      obtain ⟨ls', hls', hmap⟩ := @ih hls fuel
        (offset + Text.byteLength l.text + Text.byteLength [' ']) (by omega)
      have hrest : lexemesFrom (fuel + 1) (offset + Text.byteLength l.text)
          (' ' :: spaced (l' :: ls)) = .ok ls' := by
        rw [Lexer.lexemesFrom, front_space rfl]
        exact hls'
      exact ⟨_, hl.lexemesFrom offset (calm_space _) hrest, by rw [List.map_cons, hmap]; rfl⟩

end Lexer

/-- The lexemes of a text stand one after the other and cover the text up to white space and
comments, and the same tokens with the same characters are read if single spaces stand between
them. -/
theorem lexing_keeps_all {cs : List Char} {ls : List Lexeme} (h : Lexer.lexemes cs = .ok ls) :
    Lexer.Covers 0 cs ls ∧ ls.Pairwise (fun l l' => l.stop ≤ l'.start) ∧
      ∃ ls', Lexer.lexemes (Lexer.spaced ls) = .ok ls' ∧
        ls'.map (fun l => (l.token, l.text)) = ls.map fun l => (l.token, l.text) := by
  obtain ⟨hcovers, hstands⟩ := Lexer.lexemesFrom_covers h
  exact ⟨hcovers, hcovers.disjoint, Lexer.lexemesFrom_spaced hstands 0 (Nat.le_refl _)⟩

/-- Tokens without white space between them, many of which begin like a longer one. -/
def crampedSource : String :=
  "if(a1!==.5e3===1.e5)/*a*//**/return'\\'//'<=!!0e//c"

def crampedTexts : List String :=
  ["if", "(", "a1", "!==", ".5e3", "===", "1", ".", "e5", ")", "return", "'\\'//'", "<=", "!", "!",
    "0", "e"]

theorem crampedSource_keeps_all : ∃ ls, Lexer.lexemes crampedSource.toList = .ok ls ∧
    ls.map (fun l => String.ofList l.text) = crampedTexts ∧
    Lexer.Covers 0 crampedSource.toList ls ∧ ls.Pairwise (fun l l' => l.stop ≤ l'.start) ∧
      ∃ ls', Lexer.lexemes (Lexer.spaced ls) = .ok ls' ∧
        ls'.map (fun l => (l.token, l.text)) = ls.map fun l => (l.token, l.text) := by
  have htexts : (Lexer.lexemes crampedSource.toList).toOption.map
      (fun ls => ls.map fun l => String.ofList l.text) = some crampedTexts := by
    decide +kernel
  cases hls : Lexer.lexemes crampedSource.toList with
  | error f =>
    rw [hls] at htexts
    cases htexts
  | ok ls =>
    rw [hls] at htexts
    exact ⟨ls, rfl, Option.some.inj htexts, lexing_keeps_all hls⟩

end Chance
