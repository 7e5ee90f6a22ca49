import Chance.Proofs.Printing.RoundTrip
import Chance.Proofs.Reading.Lexemes

/-!
# Precedence

Parentheses are only needed where an operand binds too loosely for its place. A tree in which none
does so is read off its tokens as they stand in it, with a space between each two and however they
are spelled.

- `Token.Spelled`: the spellings of a token,
- `bare_text_reads_as_tree`: reading a tree that is written without parentheses.
-/

namespace Chance

/-- The characters spell the token: a numeral of the number, or a string literal of the text within
quotes of either kind. -/
def Token.Spelled : Token → List Char → Prop
  | .word w, cs => cs = w.spelling.toList
  | .mark m, cs => cs = m.spelling
  | .ident x, cs => isName x = true ∧ cs = x.toList
  | .num x, cs => Lexer.IsNumeral cs ∧ (Decimal.numeral? cs).map Decimal.Numeral.value = some x
  | .str s, cs => ∃ q body, (q = '"' ∨ q = '\'') ∧ cs = q :: (body ++ [q]) ∧
      Lexer.stringBody q (body ++ [q]) = ⟨body, s.toList, some []⟩

namespace Lexer

theorem stands_run {c : Char} {rest : List Char} (hc : isNameStart c = true)
    (hrest : rest.all isNamePart = true) :
    Stands (.ofName (String.ofList (c :: rest))) (c :: rest) := by
  refine ⟨c, rest, rfl, fun {more} hmore => ?_⟩
  unfold front
  rw [isSpace_of_isNameStart hc, if_neg Bool.false_ne_true, if_pos hc]
  simp only [takeWhile_append hrest hmore.head, dropWhile_append hrest hmore.head]

theorem stands_of_spelled {t : Token} {cs : List Char} (h : t.Spelled cs) : Stands t cs := by
  cases t with
  | word w =>
    cases h
    cases w <;> exact stands_run (by decide) (by decide)
  | mark m =>
    cases h
    exact Mark.stands m
  | ident x =>
    obtain ⟨hx, rfl⟩ := h
    unfold isName at hx
    split at hx
    · cases hx
    · rename_i c rest hlist
      simp only [Bool.and_eq_true, Option.isNone_iff_eq_none] at hx
      have hrun := stands_run hx.1.1 hx.1.2
      rwa [← hlist, String.ofList_toList, Token.ofName, hx.2] at hrun
  | num x =>
    obtain ⟨hnumeral, hvalue⟩ := h
    obtain ⟨n, hn, rfl⟩ := Option.map_eq_some_iff.1 hvalue
    exact hnumeral.stands hn
  | str s =>
    obtain ⟨q, body, hq, rfl, hbody⟩ := h
    have hslash : q ≠ '\\' := by rintro rfl; revert hq; decide
    have hagain := (stringBody_again hslash (congrArg StringBody.rest hbody)).2
    rw [hbody] at hagain
    refine ⟨q, body ++ [q], rfl, fun {more} _ => ?_⟩
    have hstart : isSpace q = false ∧ isNameStart q = false := by
      rcases hq with rfl | rfl <;> decide
    unfold front
    rw [hstart.1, hstart.2, if_neg Bool.false_ne_true, if_neg Bool.false_ne_true, if_pos hq,
      List.append_assoc, List.singleton_append]
    simp only [hagain more, String.ofList_toList]
    rfl

theorem lexemes_of_spelled {ts : List Token} {texts : List (List Char)}
    (h : List.Forall₂ Token.Spelled ts texts) :
    ∃ ls, lexemes ([' '].intercalate texts) = .ok ls ∧ ls.map Lexeme.token = ts := by
  have hall : ∃ ls : List Lexeme, ls.map Lexeme.token = ts ∧ ls.map Lexeme.text = texts ∧
      ∀ l ∈ ls, Stands l.token l.text := by
    induction h with
    | nil => exact ⟨[], rfl, rfl, nofun⟩
    | @cons t text ts texts ht _ ih =>
      obtain ⟨ls, rfl, rfl, hls⟩ := ih
      exact ⟨⟨t, 0, text⟩ :: ls, rfl, rfl, List.forall_mem_cons.2 ⟨stands_of_spelled ht, hls⟩⟩
  obtain ⟨ls, rfl, rfl, hls⟩ := hall
  obtain ⟨ls', hls', hmap⟩ := lexemesFrom_spaced hls 0 (Nat.le_refl _)
  have htokens := congrArg (List.map Prod.fst) hmap
  rw [List.map_map, List.map_map] at htokens
  exact ⟨ls', hls', htokens⟩

end Lexer

/-- A proper tree in which each operand binds tightly enough for its place is what the text of its
bare tokens denotes: the tokens as they stand in the tree, with no parentheses but those of calls,
parameter lists and conditional statements, and around an expression statement that would otherwise
begin like another statement. -/
theorem bare_text_reads_as_tree {e : Expr} {texts : List (List Char)} (hproper : e.Proper)
    (hnested : e.Nested) (htexts : List.Forall₂ Token.Spelled (Printer.exprTokens true e) texts) :
    Expr.parse (String.ofList ([' '].intercalate texts)) = .ok e := by
  obtain ⟨ls, hls, hts⟩ := Lexer.lexemes_of_spelled htexts
  have hrule : Grammar.expression (ls.map Lexeme.token) = .ok e := by
    rw [hts]
    exact Grammar.expression_exprTokens hproper fun _ => hnested
  exact readWith_of_lexemes (by rwa [String.toList_ofList]) hrule

/-- `a - b - -c * 2 ? globalStore.d = e || 'f' : g`, with another numeral for the number. -/
def rankedTree : Expr :=
  .cond
    (.binary (.binary (.var "a") (.var "b") .sub)
      (.binary (.unary .negate (.var "c")) (.num 2) .mul) .sub)
    (.assign (.member (.var "globalStore") (.str "d")) (.logic (.var "e") (.str "f") .or))
    (.var "g")

def rankedTexts : List (List Char) :=
  ["a", "-", "b", "-", "-", "c", "*", "20e-1", "?", "globalStore", ".", "d", "=", "e", "||", "'f'",
    ":", "g"].map String.toList

theorem rankedTree_reads_as_tree :
    rankedTree.Proper ∧ rankedTree.Nested ∧
      List.Forall₂ Token.Spelled (Printer.exprTokens true rankedTree) rankedTexts ∧
      Expr.parse (String.ofList ([' '].intercalate rankedTexts)) = .ok rankedTree := by
  have hnumber : Number.IsMagnitude 2 := ⟨by decide +kernel, by decide +kernel⟩
  have hvar {x : String} (hx : isName x = true) : (Expr.var x).Proper := hx
  have hproper : rankedTree.Proper :=
    ⟨⟨⟨hvar (by decide), hvar (by decide)⟩, hvar (x := "c") (by decide), hnumber⟩,
      ⟨rfl, ⟨hvar (by decide), trivial⟩, hvar (by decide), trivial⟩, hvar (by decide)⟩
  have hnested : rankedTree.Nested := by
    simp only [rankedTree, Expr.Nested, Expr.tightness, BinaryOp.level, LogicOp.level]
    decide
  have hnumeral : Token.Spelled (.num 2) "20e-1".toList :=
    ⟨⟨['2', '0'], [], ['e', '-', '1'], rfl, rfl, .inl rfl,
      .inr ⟨'e', ['-'], ['1'], .inl rfl, .inr (.inl rfl), by decide, rfl, rfl⟩, by decide⟩,
      by decide +kernel⟩
  have hname {x : String} (hx : isName x = true) : Token.Spelled (.ident x) x.toList := ⟨hx, rfl⟩
  have htexts : List.Forall₂ Token.Spelled (Printer.exprTokens true rankedTree) rankedTexts :=
    .cons (hname (x := "a") (by decide)) <| .cons rfl <| .cons (hname (x := "b") (by decide)) <|
      .cons rfl <| .cons rfl <| .cons (hname (x := "c") (by decide)) <| .cons rfl <|
      .cons hnumeral <| .cons rfl <| .cons (hname (x := "globalStore") (by decide)) <| .cons rfl <|
      .cons (hname (x := "d") (by decide)) <| .cons rfl <| .cons (hname (x := "e") (by decide)) <|
      .cons rfl <| .cons ⟨'\'', ['f'], .inr rfl, rfl, rfl⟩ <| .cons rfl <|
      .cons (hname (x := "g") (by decide)) .nil
  exact ⟨hproper, hnested, htexts, bare_text_reads_as_tree hproper hnested htexts⟩

end Chance
