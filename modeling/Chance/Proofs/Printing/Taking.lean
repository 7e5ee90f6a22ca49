import Mathlib.Data.List.Forall2
import Chance.Grammar.Parse
import Chance.Proofs.Printing.Spelling

/-!
# Parsers on given tokens

A parser `Takes` the front of a list of tokens if it succeeds there and leaves the rest; it
`Refuses` the list if it fails. What a parser leaves must not go on with what it has read: `Ends`
and `Detached` say so of expressions and of operands. The depth to which the rules may be nested is
bounded by the number of tokens.

- `Takes`, `Refuses`: what a parser does with a list of tokens,
- `Readable`, `takes_sepBy`: items that can be read before a comma, and lists of them.
-/

namespace Chance

/-! ## Parsers at work -/

namespace Parser

variable {α β : Type} {p q : Parser α} {f : α → Parser β} {a : α} {b : β} {as : List α}
  {ts mid rest : List Token} {ps : List (Parser α)}

/-- The parser reads `a` and leaves `rest`. -/
def Takes (p : Parser α) (ts : List Token) (a : α) (rest : List Token) : Prop :=
  ∀ i, ∃ j, (p ⟨i, ts⟩).result = some (a, ⟨j, rest⟩)

/-- The parser does not succeed. -/
def Refuses (p : Parser α) (ts : List Token) : Prop :=
  ∀ i, (p ⟨i, ts⟩).result = none

theorem takes_pure : Takes (pure a : Parser α) ts a ts :=
  fun i => ⟨i, rfl⟩

theorem Takes.seq (hp : Takes p ts a mid) (hf : Takes (f a) mid b rest) :
    Takes (p >>= f) ts b rest := by
  intro i
  obtain ⟨j, hj⟩ := hp i
  obtain ⟨k, hk⟩ := hf j
  refine ⟨k, ?_⟩
  change (Parser.bind p f ⟨i, ts⟩).result = _
  simp only [Parser.bind, hj, hk]

theorem Refuses.seq (hp : Refuses p ts) : Refuses (p >>= f) ts := by
  intro i
  change (Parser.bind p f ⟨i, ts⟩).result = _
  simp only [Parser.bind, hp i]

theorem Takes.orElse (hp : Takes p ts a rest) : Takes (p.orElse q) ts a rest := by
  intro i
  obtain ⟨j, hj⟩ := hp i
  refine ⟨j, ?_⟩
  simp only [Parser.orElse, hj]

theorem Refuses.orElse_takes (hp : Refuses p ts) (hq : Takes q ts a rest) :
    Takes (p.orElse q) ts a rest := by
  intro i
  obtain ⟨j, hj⟩ := hq i
  refine ⟨j, ?_⟩
  simp only [Parser.orElse, hp i, hj]

theorem Refuses.orElse (hp : Refuses p ts) (hq : Refuses q ts) : Refuses (p.orElse q) ts := by
  intro i
  simp only [Parser.orElse, hp i, hq i]

theorem Takes.choice {ps : List (Parser α)} (hp : Takes p ts a rest) :
    Takes (choice (p :: ps)) ts a rest := by
  cases ps with
  | nil => exact hp
  | cons q ps => exact hp.orElse

theorem Refuses.choice_takes (hp : Refuses p ts) (hps : Takes (choice (q :: ps)) ts a rest) :
    Takes (choice (p :: q :: ps)) ts a rest :=
  hp.orElse_takes hps

theorem refuses_choice (h : ∀ p ∈ ps, Refuses p ts) : Refuses (choice ps) ts := by
  induction ps with
  | nil => exact fun _ => rfl
  | cons p ps ih =>
    obtain ⟨hp, hps⟩ := List.forall_mem_cons.1 h
    cases ps with
    | nil => exact hp
    | cons q ps => exact hp.orElse (ih hps)

theorem Takes.optional (hp : Takes p ts a rest) : Takes (optional p) ts (some a) rest :=
  Takes.orElse (Takes.seq hp takes_pure)

theorem Refuses.optional (hp : Refuses p ts) : Takes (optional p) ts none ts :=
  Refuses.orElse_takes (Refuses.seq hp) takes_pure

theorem Refuses.many (hp : Refuses p ts) (n : Nat) : Takes (many p n) ts [] ts := by
  cases n with
  | zero => exact takes_pure
  | succ n => exact Refuses.orElse_takes (Refuses.seq hp) takes_pure

theorem Takes.many {n : Nat} (hp : Takes p ts a mid) (hmore : Takes (many p n) mid as rest) :
    Takes (many p (n + 1)) ts (a :: as) rest :=
  Takes.orElse (Takes.seq hp (Takes.seq hmore takes_pure))

theorem takes_mark (m : Mark) : Takes (mark m) (.mark m :: rest) () rest := by
  intro i
  refine ⟨i + 1, ?_⟩
  simp only [mark, token, if_true]

theorem takes_word (w : Keyword) : Takes (word w) (.word w :: rest) () rest := by
  intro i
  refine ⟨i + 1, ?_⟩
  simp only [word, token, if_true]

theorem takes_name (role : NameRole) (x : String) : Takes (name role) (.ident x :: rest) x rest :=
  fun i => ⟨i + 1, rfl⟩

theorem refuses_mark {m : Mark} (h : ts.head? ≠ some (.mark m)) : Refuses (mark m) ts := by
  intro i
  cases ts with
  | nil => rfl
  | cons t ts =>
    have ht : t ≠ .mark m := fun heq => h (congrArg some heq)
    simp only [mark, token, if_neg ht]

theorem refuses_word {w : Keyword} (h : ts.head? ≠ some (.word w)) : Refuses (word w) ts := by
  intro i
  cases ts with
  | nil => rfl
  | cons t ts =>
    have ht : t ≠ .word w := fun heq => h (congrArg some heq)
    simp only [word, token, if_neg ht]

end Parser

namespace Grammar

open Chance.Parser Rules
open Printer (commaTokens)

variable {α : Type} {r : Rules} {e x y v : Expr} {f : Expr → Expr → Expr} {m : Mark}
  {ts us rest rest' : List Token} {d : Nat} {t : Token} {ops : List (Mark × (Expr → Expr → Expr))}

theorem rules_bound (d : Nat) : (rules d).bound = d := by
  cases d <;> rfl

/-! ## What may follow an expression -/

/-- The tokens that can stand after an expression that is not an operand. -/
def closes : Token → Bool
  | .mark .rparen | .mark .rbracket | .mark .rbrace | .mark .comma | .mark .semi | .mark .colon =>
    true
  | _ => false

/-- Nothing follows that goes on with an expression. -/
def Ends (ts : List Token) : Prop :=
  ∀ t ∈ ts.head?, closes t = true

theorem ends_nil : Ends [] := by
  rintro _ ⟨⟩

theorem ends_cons (h : closes t = true) (ts : List Token) : Ends (t :: ts) := by
  rintro _ ⟨⟩
  exact h

theorem Ends.head_ne (h : Ends ts) (ht : closes t = false) : ts.head? ≠ some t := by
  intro hhead
  have hcloses := h t hhead
  rw [ht] at hcloses
  cases hcloses

theorem closes_operator : ∀ ops ∈ levels, ∀ op ∈ ops, closes (.mark op.1) = false := by
  decide

/-- Nothing follows that goes on with an operand. -/
def Detached (ts : List Token) : Prop :=
  ∀ m ∈ [Mark.lparen, .dot, .lbracket], ts.head? ≠ some (.mark m)

theorem Ends.detached (h : Ends ts) : Detached ts := by
  intro m hm
  refine h.head_ne ?_
  revert m
  decide

theorem Detached.refuses_suffixForm (h : Detached ts) : Refuses r.suffixForm ts := by
  refine Refuses.orElse ?_ (Refuses.orElse ?_ ?_)
  · exact Refuses.seq (refuses_mark (h .lparen (by decide)))
  · exact Refuses.seq (refuses_mark (h .dot (by decide)))
  · exact Refuses.seq (refuses_mark (h .lbracket (by decide)))

/-! ## Operators -/

theorem refuses_operator (h : ∀ op ∈ ops, ts.head? ≠ some (.mark op.1)) :
    Refuses (operator ops) ts := by
  refine refuses_choice fun p hp => ?_
  obtain ⟨⟨m, f⟩, hop, rfl⟩ := List.mem_map.1 hp
  exact Refuses.seq (refuses_mark (h (m, f) hop))

theorem Ends.operators (h : Ends rest) :
    ∀ ops ∈ Rules.levels, ∀ op ∈ ops, rest.head? ≠ some (.mark op.1) :=
  fun ops hops op hop => h.head_ne (closes_operator ops hops op hop)

theorem Takes.conditional_none (h : Takes r.binary ts e rest)
    (hrest : rest.head? ≠ some (.mark .question)) : Takes r.conditional ts e rest :=
  Takes.seq h (Takes.seq (Refuses.seq (refuses_mark hrest)).optional takes_pure)

theorem Takes.exprRule_none (h : Takes r.conditional ts e rest)
    (hrest : rest.head? ≠ some (.mark .assign)) : Takes r.exprRule ts e rest :=
  Takes.seq h (Takes.seq (Refuses.seq (refuses_mark hrest)).optional takes_pure)

theorem Takes.exprRule_binary (h : Takes r.binary ts e rest) (hrest : Ends rest) :
    Takes r.exprRule ts e rest :=
  Takes.exprRule_none (Takes.conditional_none h (hrest.head_ne rfl)) (hrest.head_ne rfl)

/-! ## Where no expression begins -/

theorem refuses_chain {p : Parser Expr} {n : Nat} (hp : Refuses p ts) :
    Refuses (chain ops p n) ts :=
  Refuses.seq hp

theorem refuses_unary (h : Ends ts) (d : Nat) : Refuses (rules d).unary ts := by
  cases d with
  | zero => exact fun _ => rfl
  | succ d =>
    cases ts with
    | nil => exact fun _ => rfl
    | cons t ts =>
      have ht : closes t = true := h t rfl
      cases t with
      | mark m =>
        cases m
        case rparen | rbracket | rbrace | comma | semi | colon => exact fun _ => rfl
        all_goals cases ht
      | _ => cases ht

theorem refuses_expr (h : Ends ts) (d : Nat) : Refuses (rules d).expr ts := by
  cases d with
  | zero => exact fun _ => rfl
  | succ d =>
    have hbinary : Refuses (rules d).binary ts := by
      iterate 6 refine refuses_chain ?_
      exact refuses_unary h d
    exact Refuses.seq (Refuses.seq hbinary)

/-! ## Lists -/

/-- The parser for depth `d` reads `ts` as `a` before all that closes an expression, if the depth
suffices for the number of tokens. -/
structure Readable (p : Nat → Parser α) (ts : List Token) (a : α) : Prop where
  takes : ∀ {d : Nat} {rest : List Token}, 4 * ts.length ≤ d → Ends rest →
    Takes (p d) (ts ++ rest) a rest

section Lists

variable {p : Nat → Parser α} {tss : List (List Token)} {a : α} {as : List α}

theorem commaTokens_cons (ts : List Token) (tss : List (List Token)) :
    commaTokens (ts :: tss) = ts ++ tss.flatMap fun us => .mark .comma :: us := by
  induction tss generalizing ts with
  | nil => simp [commaTokens]
  | cons us tss ih => simp [commaTokens, ih us]

theorem takes_many_comma {n : Nat} (h : List.Forall₂ (Readable p) tss as)
    (hd : 4 * (tss.flatMap fun us => .mark .comma :: us).length ≤ d) (hn : as.length ≤ n)
    (hrest : Ends rest) (hcomma : rest.head? ≠ some (.mark .comma)) :
    Takes (many (comma >>= fun _ => p d) n)
      ((tss.flatMap fun us => .mark .comma :: us) ++ rest) as rest := by
  induction h generalizing n with
  | nil => exact (Refuses.seq (refuses_mark hcomma)).many n
  | @cons ts a tss as ha _ ih =>
    obtain ⟨n, rfl⟩ := Nat.exists_eq_add_of_le' (Nat.one_le_of_lt hn)
    simp only [List.flatMap_cons, List.length_append, List.length_cons] at hd hn
    have hmid : Ends ((tss.flatMap fun us => .mark .comma :: us) ++ rest) := by
      cases tss with
      | nil => exact hrest
      | cons => exact ends_cons rfl _
    have hitem := Takes.seq (f := fun _ => p d) (takes_mark .comma) (ha.takes (by omega) hmid)
    rw [List.flatMap_cons, List.append_assoc]
    exact hitem.many (ih (by omega) (by omega))

theorem length_le_flatMap_comma (tss : List (List Token)) :
    tss.length ≤ (tss.flatMap fun us => Token.mark .comma :: us).length := by
  induction tss with
  | nil => exact Nat.le_refl 0
  | cons ts tss ih => simp only [List.flatMap_cons, List.length_append, List.length_cons]; omega

theorem takes_sepBy1 (h : List.Forall₂ (Readable p) tss as) (hne : tss ≠ [])
    (hd : 4 * (commaTokens tss).length ≤ d) (hrest : Ends rest)
    (hcomma : rest.head? ≠ some (.mark .comma)) :
    Takes (sepBy1 (p d) comma (rules d).bound) (commaTokens tss ++ rest) as rest := by
  rw [rules_bound]
  cases h with
  | nil => exact absurd rfl hne
  | @cons ts a tss as ha has =>
    rw [commaTokens_cons, List.length_append] at hd
    have hcount := length_le_flatMap_comma tss
    have hlength := has.length_eq
    have hmid : Ends ((tss.flatMap fun us => .mark .comma :: us) ++ rest) := by
      cases tss with
      | nil => exact hrest
      | cons => exact ends_cons rfl _
    rw [commaTokens_cons, List.append_assoc]
    exact Takes.seq (ha.takes (by omega) hmid)
      (Takes.seq (takes_many_comma has (by omega) (by omega) hrest hcomma) takes_pure)

theorem takes_sepBy (h : List.Forall₂ (Readable p) tss as)
    (hd : 4 * (commaTokens tss).length ≤ d) (hrest : Ends rest)
    (hcomma : rest.head? ≠ some (.mark .comma)) (hnone : Refuses (p d) rest) :
    Takes (sepBy (p d) comma (rules d).bound) (commaTokens tss ++ rest) as rest := by
  cases h with
  | nil => exact Refuses.orElse_takes (Refuses.seq hnone) takes_pure
  | cons ha has => exact (takes_sepBy1 (.cons ha has) (List.cons_ne_nil _ _) hd hrest hcomma).orElse

end Lists

end Grammar

end Chance
