import Chance.Program.Printer
import Chance.Proofs.Printing.Lexing

/-!
# The tokens of a printed program

Printing spells out the same tokens at every width. `exprTokens` and `stmtTokens` list them along
the syntax tree, with the same parentheses as the printer or, if the tree is written bare, with none
around operands; all texts of the printed document read as the former, if the tree is one that texts
can denote and its numbers read back.

- `Doc.Spells`: all texts of the document read as the given tokens,
- `expr_spells`, `stmt_spells`: what the printer spells.
-/

namespace Chance

open Lexer (Reads)

/-! ## Marks of the operators -/

def UnaryOp.mark : UnaryOp → Mark
  | .negate => .minus
  | .plus => .plus
  | .not => .bang

def BinaryOp.mark : BinaryOp → Mark
  | .add => .plus
  | .sub => .minus
  | .mul => .star
  | .div => .slash
  | .mod => .percent
  | .lt => .lt
  | .le => .leq
  | .gt => .gt
  | .ge => .geq
  | .eq => .eqEq
  | .ne => .notEq
  | .strictEq => .eqEqEq
  | .strictNe => .notEqEq

def LogicOp.mark : LogicOp → Mark
  | .and => .andAnd
  | .or => .orOr

/-! ## Documents that spell tokens -/

/-- Before a text that satisfies `P` and reads as some tokens, all texts of the document read as
`ts` and satisfy `Q`. -/
structure Doc.Spells (P : List Char → Prop) (ts : List Token) (Q : List Char → Prop) (d : Doc) :
    Prop where
  reads : ∀ {cs out : List Char} {us : List Token}, P cs → Reads cs us → d.Laid cs out →
    Q out ∧ Reads out (ts ++ us)

/-- Any text. -/
def Any (_ : List Char) : Prop := True

namespace Doc

variable {P P' Q Q' R : List Char → Prop} {ts us : List Token} {d l r : Doc} {x : String}

theorem Spells.append (hl : l.Spells Q ts R) (hr : r.Spells P us Q) :
    (l ++ r).Spells P (ts ++ us) R := by
  constructor
  rintro cs out vs hcs hvs ⟨mid, hmid, hout⟩
  obtain ⟨hq, hread⟩ := hr.reads hcs hvs hmid
  rw [List.append_assoc]
  exact hl.reads hq hread hout

theorem Spells.nest (h : d.Spells P ts Q) (n : Nat) : (Doc.nest n d).Spells P ts Q :=
  ⟨h.reads⟩

theorem Spells.group (h : d.Spells P ts Q) : (Doc.group d).Spells P ts Q :=
  ⟨h.reads⟩

theorem Spells.weaken (h : d.Spells P ts Q) (hP : ∀ cs, P' cs → P cs) (hQ : ∀ cs, Q cs → Q' cs) :
    d.Spells P' ts Q' := by
  constructor
  intro cs out us hcs hus hout
  obtain ⟨hq, hread⟩ := h.reads (hP cs hcs) hus hout
  exact ⟨hQ out hq, hread⟩

theorem Spells.any (h : d.Spells P ts Q) : d.Spells P ts Any :=
  h.weaken (fun _ => id) fun _ _ => trivial

theorem Spells.unequal (h : d.Spells P ts Calm) : d.Spells P ts Unequal :=
  h.weaken (fun _ => id) fun _ => Calm.unequal

theorem spells_nil : Doc.nil.Spells P [] P := by
  constructor
  rintro cs out us hcs hus rfl
  exact ⟨hcs, hus⟩

theorem spells_text {s : String} (h : ∀ {cs : List Char} {us : List Token}, P cs → Reads cs us →
    Q (s.toList ++ cs) ∧ Reads (s.toList ++ cs) (ts ++ us)) : (text s).Spells P ts Q := by
  constructor
  rintro cs out us hcs hus rfl
  exact h hcs hus

theorem calm_newline (cs : List Char) : Calm ('\n' :: cs) :=
  ⟨rfl, by decide, by decide, by decide, nofun⟩

theorem spells_space : space.Spells P [] Calm := by
  constructor
  rintro cs out us - hus (rfl | ⟨n, rfl⟩)
  · exact ⟨calm_space cs, .space rfl hus⟩
  · exact ⟨calm_newline _, .space rfl (hus.spaces n)⟩

theorem spells_gap : gap.Spells Calm [] Calm := by
  constructor
  rintro cs out us hcs hus (rfl | ⟨n, rfl⟩)
  · exact ⟨hcs, hus⟩
  · exact ⟨calm_newline _, .space rfl (hus.spaces n)⟩

/-! ### Fixed texts -/

theorem calm_firm {m : Mark} (hm : m.isFirm = true) (cs : List Char) : Calm (m.spelling ++ cs) := by
  cases m
  case lparen | rparen | lbracket | rbracket | lbrace | rbrace | comma | semi | colon | question
      | plus | minus => exact ⟨rfl, by decide, by decide, by decide, nofun⟩
  all_goals cases hm

theorem spells_firm (s : String) (m : Mark) (hs : s.toList = m.spelling) (hm : m.isFirm = true) :
    (text s).Spells P [.mark m] Calm := by
  refine spells_text fun _ h => ?_
  rw [hs]
  exact ⟨calm_firm hm _, Lexer.reads_firm hm h⟩

theorem spells_firm_space (s : String) (m : Mark) (hs : s.toList = m.spelling ++ [' '])
    (hm : m.isFirm = true) : (text s).Spells P [.mark m] Calm := by
  refine spells_text fun _ h => ?_
  rw [hs, List.append_assoc]
  exact ⟨calm_firm hm _, Lexer.reads_firm hm (.space rfl h)⟩

theorem unequal_word (w : Keyword) (cs : List Char) : Unequal (w.spelling.toList ++ cs) := by
  cases w <;> exact fun c hc => by cases hc; decide

theorem spells_word (w : Keyword) : (text w.spelling).Spells Calm [.word w] Unequal :=
  spells_text fun hcs h => ⟨unequal_word w _, Lexer.reads_word w hcs h⟩

theorem spells_word_space (s : String) (w : Keyword) (hs : s.toList = w.spelling.toList ++ [' ']) :
    (text s).Spells P [.word w] Any := by
  refine spells_text fun _ h => ⟨trivial, ?_⟩
  rw [hs, List.append_assoc]
  exact Lexer.reads_word w (calm_space _) (.space rfl h)

theorem exists_nameStart (hx : isName x = true) :
    ∃ c rest, x.toList = c :: rest ∧ isNameStart c = true := by
  unfold isName at hx
  cases hlist : x.toList with
  | nil =>
    rw [hlist] at hx
    cases hx
  | cons c rest =>
    simp only [hlist, Bool.and_eq_true] at hx
    exact ⟨c, rest, rfl, hx.1.1⟩

theorem unequal_name (hx : isName x = true) (cs : List Char) : Unequal (x.toList ++ cs) := by
  obtain ⟨c, rest, hlist, hc⟩ := exists_nameStart hx
  rw [hlist]
  rintro _ ⟨⟩ rfl
  exact absurd hc (by decide)

theorem head_isDigit_name (hx : isName x = true) (cs : List Char) :
    ∀ c ∈ (x.toList ++ cs).head?, c.isDigit = false := by
  obtain ⟨c, rest, hlist, hc⟩ := exists_nameStart hx
  rw [hlist]
  rintro _ ⟨⟩
  cases hdigit : c.isDigit with
  | false => rfl
  | true =>
    rw [(Lexer.front_of_isDigit hdigit).2.1] at hc
    cases hc

theorem spells_name (hx : isName x = true) : (text x).Spells Calm [.ident x] Unequal :=
  spells_text fun hcs h => ⟨unequal_name hx _, Lexer.reads_name hx hcs h⟩

theorem spells_literal (s : String) : (text (Text.literal s)).Spells P [.str s] Unequal := by
  refine spells_text fun _ h => ⟨?_, Lexer.reads_text s h⟩
  rw [Text.literal, String.toList_ofList]
  rintro _ ⟨⟩
  decide

theorem spells_blank : (text " ").Spells P [] Calm := by
  refine spells_text fun _ h => ?_
  exact ⟨calm_space _, .space rfl h⟩

theorem spells_assign : (text " = ").Spells P [.mark .assign] Calm := by
  refine spells_text fun {cs us} _ h => ?_
  have hsign : Reads (['='] ++ ' ' :: cs) (.mark .assign :: us) :=
    Lexer.reads_mark .assign (calm_space cs).unequal nofun nofun (.space rfl h)
  exact ⟨calm_space _, .space rfl hsign⟩

theorem spells_property (hx : isName x = true) :
    (text ("." ++ x)).Spells Calm [.mark .dot, .ident x] Calm := by
  refine spells_text fun {cs us} hcs h => ?_
  have hdigit := head_isDigit_name hx cs
  rw [String.toList_append, List.append_assoc]
  refine ⟨⟨rfl, by decide, by decide, by decide, fun _ => hdigit⟩, ?_⟩
  exact Lexer.reads_mark .dot (unequal_name hx cs) nofun (fun _ => hdigit)
    (Lexer.reads_name hx hcs h)

theorem spells_operator {symbol : String} (m : Mark) (hs : symbol.toList = m.spelling) :
    (text (" " ++ symbol)).Spells Calm [.mark m] Calm := by
  refine spells_text fun {cs us} hcs h => ?_
  rw [String.toList_append, hs, List.append_assoc]
  refine ⟨calm_space _, .space rfl ?_⟩
  exact Lexer.reads_mark m hcs.unequal (fun _ => hcs) (fun _ => hcs.head_isDigit) h

theorem spells_unary (op : UnaryOp) : (text op.symbol).Spells Unequal [.mark op.mark] Unequal := by
  cases op with
  | negate => exact (spells_firm "-" .minus rfl rfl).unequal
  | plus => exact (spells_firm "+" .plus rfl rfl).unequal
  | not =>
    refine spells_text fun hcs h => ⟨?_, Lexer.reads_mark .bang hcs nofun nofun h⟩
    rintro _ ⟨⟩
    decide

theorem spells_number {x : Float} (hx : Number.IsMagnitude x) (hfinite : x.isInf = false)
    (hback : Number.ReadsBack x) :
    (text (Decimal.Style.source.write x)).Spells Calm [.num x] Unequal := by
  refine spells_text fun hcs h => ⟨?_, Lexer.reads_number hx hfinite hback hcs h⟩
  have hwritten := hx.write_isNumeral hfinite
  obtain ⟨c, rest, hw⟩ := hwritten.exists_cons
  rw [hw] at hwritten ⊢
  rintro _ ⟨⟩
  exact hwritten.head.2.2.2.2

theorem spells_if : (text "if (").Spells P [.word .ifWord, .mark .lparen] Any := by
  refine spells_text fun _ h => ⟨trivial, ?_⟩
  exact Lexer.reads_word .ifWord (calm_space _)
    (.space rfl (Lexer.reads_firm (m := .lparen) rfl h))

theorem spells_else : (text " else ").Spells P [.word .elseWord] Calm := by
  refine spells_text fun _ h => ⟨calm_space _, .space rfl ?_⟩
  exact Lexer.reads_word .elseWord (calm_space _) (.space rfl h)

theorem spells_closing : (text ");").Spells P [.mark .rparen, .mark .semi] Calm := by
  refine spells_text fun _ h => ⟨calm_firm (m := .rparen) rfl _, ?_⟩
  exact Lexer.reads_firm (m := .rparen) rfl (Lexer.reads_firm (m := .semi) rfl h)

theorem spells_gap_any : gap.Spells P [] Any := by
  constructor
  rintro cs out us hcs hus (rfl | ⟨n, rfl⟩)
  · exact ⟨trivial, hus⟩
  · exact ⟨trivial, .space rfl (hus.spaces n)⟩

end Doc

/-! ## Tokens of the syntax -/

namespace Printer

/-- Lists of tokens with commas between them. -/
def commaTokens : List (List Token) → List Token
  | [] => []
  | [ts] => ts
  | ts :: tss => ts ++ .mark .comma :: commaTokens tss

/-- The tokens of an operand, which are in no parentheses if it is simple or if the tree is written
bare; `ts` are the tokens of `e`. -/
def operandTokens (bare : Bool) (e : Expr) (ts : List Token) : List Token :=
  if bare || isSimple e then ts else .mark .lparen :: (ts ++ [.mark .rparen])

/-- The tokens of a property access; `ts` are the tokens of the property. -/
def accessTokens (property : Expr) (ts : List Token) : List Token :=
  let computed := .mark .lbracket :: (ts ++ [.mark .rbracket])
  match property with
  | .str x => if isName x then [.mark .dot, .ident x] else computed
  | _ => computed

def keyTokens (k : String) : List Token :=
  if isName k then [.ident k] else [.str k]

def braceTokens (ts : List Token) : List Token :=
  .mark .lbrace :: (ts ++ [.mark .rbrace])

def functionTokens (name : Option String) (params : List String) (body : List Token) :
    List Token :=
  .word .functionWord :: (name.toList.map Token.ident ++
    .mark .lparen :: (commaTokens (params.map fun x => [.ident x]) ++
      .mark .rparen :: braceTokens body))

/-- Tokens with which a statement begins only if it is an expression. -/
def plain : Token → Bool
  | .mark .lbrace | .mark .semi => false
  | .word .functionWord | .word .varWord | .word .letWord | .word .constWord | .word .ifWord
  | .word .elseWord | .word .returnWord => false
  | _ => true

variable (bare : Bool)

mutual

def exprTokens : Expr → List Token
  | .num x => [if !bare && x.isInf then .ident "Infinity" else .num x]
  | .str s => [.str s]
  | .bool b => [.word (if b then .trueWord else .falseWord)]
  | .null => [.word .nullWord]
  | .undefined => [.word .undefinedWord]
  | .var x => [.ident x]
  | .array es => .mark .lbracket :: (commaTokens (exprsTokens es) ++ [.mark .rbracket])
  | .object fs => .mark .lbrace :: (commaTokens (fieldsTokens fs) ++ [.mark .rbrace])
  | .unary op e => .mark op.mark :: operandTokens bare e (exprTokens e)
  | .binary l r op =>
    operandTokens bare l (exprTokens l) ++ .mark op.mark :: operandTokens bare r (exprTokens r)
  | .logic l r op =>
    operandTokens bare l (exprTokens l) ++ .mark op.mark :: operandTokens bare r (exprTokens r)
  | .cond t c a => operandTokens bare t (exprTokens t) ++
      .mark .question :: (exprTokens c ++ .mark .colon :: exprTokens a)
  | .member o p => operandTokens bare o (exprTokens o) ++ accessTokens p (exprTokens p)
  | .call f es => operandTokens bare f (exprTokens f) ++
      .mark .lparen :: (commaTokens (exprsTokens es) ++ [.mark .rparen])
  | .func n ps b => functionTokens n ps (stmtsTokens b)
  | .assign t v => exprTokens t ++ .mark .assign :: exprTokens v
termination_by structural e => e

def exprsTokens : List Expr → List (List Token)
  | [] => []
  | e :: es => exprTokens e :: exprsTokens es
termination_by structural es => es

def fieldsTokens : List (String × Expr) → List (List Token)
  | [] => []
  | (k, e) :: fs => (keyTokens k ++ .mark .colon :: exprTokens e) :: fieldsTokens fs
termination_by structural fs => fs

def bindingsTokens : List (String × Expr) → List (List Token)
  | [] => []
  | (x, e) :: ds => (.ident x :: .mark .assign :: exprTokens e) :: bindingsTokens ds
termination_by structural ds => ds

def stmtTokens : Stmt → List Token
  | .empty => [.mark .semi]
  | .expr e =>
    if (exprTokens e).head?.all plain then exprTokens e ++ [.mark .semi]
    else .mark .lparen :: (exprTokens e ++ [.mark .rparen, .mark .semi])
  | .declare ds => .word .varWord :: (commaTokens (bindingsTokens ds) ++ [.mark .semi])
  | .ifElse t c a => .word .ifWord :: .mark .lparen :: (exprTokens t ++
      .mark .rparen :: (braceTokens (stmtsTokens c) ++
        if a.isEmpty then [] else .word .elseWord :: braceTokens (stmtsTokens a)))
  | .ret e => .word .returnWord :: (exprTokens e ++ [.mark .semi])
  | .block b => braceTokens (stmtsTokens b)
termination_by structural s => s

def stmtsTokens : List Stmt → List Token
  | [] => []
  | s :: ss => stmtTokens s ++ stmtsTokens ss
termination_by structural ss => ss

end

end Printer

mutual

/-- The numbers of an expression. -/
def Expr.numbers : Expr → List Float
  | .num x => [x]
  | .array es => exprsNumbers es
  | .object fs => fieldsNumbers fs
  | .unary _ e => e.numbers
  | .binary l r _ | .logic l r _ => l.numbers ++ r.numbers
  | .cond t c a => t.numbers ++ (c.numbers ++ a.numbers)
  | .member o p => o.numbers ++ p.numbers
  | .call f es => f.numbers ++ exprsNumbers es
  | .func _ _ b => stmtsNumbers b
  | .assign t v => t.numbers ++ v.numbers
  | .str _ | .bool _ | .null | .undefined | .var _ => []
termination_by structural e => e

def exprsNumbers : List Expr → List Float
  | [] => []
  | e :: es => e.numbers ++ exprsNumbers es
termination_by structural es => es

def fieldsNumbers : List (String × Expr) → List Float
  | [] => []
  | (_, e) :: fs => e.numbers ++ fieldsNumbers fs
termination_by structural fs => fs

def Stmt.numbers : Stmt → List Float
  | .empty => []
  | .expr e | .ret e => e.numbers
  | .declare ds => fieldsNumbers ds
  | .ifElse t c a => t.numbers ++ (stmtsNumbers c ++ stmtsNumbers a)
  | .block b => stmtsNumbers b
termination_by structural s => s

def stmtsNumbers : List Stmt → List Float
  | [] => []
  | s :: ss => s.numbers ++ stmtsNumbers ss
termination_by structural ss => ss

end

/-! ## What the printer spells -/

namespace Printer

open Doc

variable {P Q : List Char → Prop} {d l r : Doc} {ts us : List Token} {ds : List Doc}
  {params : List String} {ss : List Stmt} {e : Expr}

theorem spells_cast (h : d.Spells P ts Q) (heq : ts = us) : d.Spells P us Q :=
  heq ▸ h

/-- Documents in a row that can be read as operands, one for each list of tokens. -/
abbrev SpellAll (ds : List Doc) (tss : List (List Token)) : Prop :=
  List.Forall₂ (fun d ts => d.Spells Calm ts Unequal) ds tss

theorem separator_spells : (text "," ++ Doc.space).Spells P [.mark .comma] Calm :=
  (spells_firm "," .comma rfl rfl).append spells_space

theorem commaList_spells {tss : List (List Token)} (h : SpellAll ds tss) :
    (commaList ds).Spells Calm (commaTokens tss) Any := by
  induction h with
  | nil => exact spells_nil.any
  | @cons d ts ds tss hd hds ih =>
    cases hds with
    | nil => exact hd.any
    | cons hd' hds' =>
      have hrow := ((hd.append separator_spells).append ih).any
      exact spells_cast hrow (List.append_assoc _ _ _)

theorem inBrackets_spells {opening closing : String} {m m' : Mark}
    (hopening : opening.toList = m.spelling) (hclosing : closing.toList = m'.spelling)
    (hm : m.isFirm = true) (hm' : m'.isFirm = true) (h : d.Spells Calm ts Any) :
    (inBrackets opening d closing).Spells P (.mark m :: (ts ++ [.mark m'])) Calm := by
  have hinner : (Doc.nest 2 (Doc.gap ++ d)).Spells Calm ts Any := (spells_gap_any.append h).nest 2
  have hopen := (spells_firm opening m hopening hm).append hinner
  unfold inBrackets
  refine spells_cast ((hopen.append spells_gap).append
    (spells_firm closing m' hclosing hm')).group ?_
  simp

theorem operand_spells (e : Expr) (h : d.Spells Calm ts Unequal) :
    (operand e d).Spells Calm (operandTokens false e ts) Unequal := by
  unfold operand operandTokens
  rw [Bool.false_or]
  split_ifs
  · exact h
  · exact (((spells_firm "(" .lparen rfl rfl).append h).append
      (spells_firm ")" .rparen rfl rfl)).unequal

theorem joined_spells {symbol : String} (m : Mark) (hs : symbol.toList = m.spelling)
    (hl : l.Spells Calm ts Unequal) (hr : r.Spells Calm us Unequal) :
    (joined l r symbol).Spells Calm (ts ++ .mark m :: us) Unequal := by
  have hright : (Doc.nest 2 (Doc.space ++ r)).Spells Calm us Calm := (spells_space.append hr).nest 2
  have hrow := ((hl.append (spells_operator m hs)).append hright).group
  exact spells_cast hrow (List.append_assoc _ _ _)

theorem access_spells {p : Expr} {q : Doc} (hd : d.Spells Calm ts Unequal)
    (hq : q.Spells Calm us Unequal) :
    (access d p q).Spells Calm (ts ++ accessTokens p us) Unequal := by
  have hcomputed : (d ++ text "[" ++ q ++ text "]").Spells Calm
      (ts ++ .mark .lbracket :: (us ++ [.mark .rbracket])) Unequal := by
    refine spells_cast (((hd.append (spells_firm "[" .lbracket rfl rfl)).append hq).append
      (spells_firm "]" .rbracket rfl rfl)) ?_
    simp
  cases p with
  | str x =>
    simp only [access, accessTokens]
    split_ifs with hx
    · exact hd.append (spells_property hx)
    · exact hcomputed
  | _ => exact hcomputed

theorem key_spells (k : String) : (key k).Spells Calm (keyTokens k) Unequal := by
  unfold key keyTokens
  split_ifs with hk
  · exact spells_name hk
  · exact spells_literal k

theorem braces_spells (hempty : ds.isEmpty = true → ts = [])
    (h : (Doc.intersperse .space ds).Spells Any ts Any) :
    (braces ds).Spells P (braceTokens ts) Calm := by
  unfold braces braceTokens
  split_ifs with hds
  · rw [hempty hds]
    refine spells_text fun _ hus => ⟨calm_firm (m := .lbrace) rfl _, ?_⟩
    exact Lexer.reads_firm (m := .lbrace) rfl (Lexer.reads_firm (m := .rbrace) rfl hus)
  · have hrow : (Doc.space ++ Doc.intersperse .space ds).Spells Any ts Calm := spells_space.append h
    refine spells_cast ((((spells_firm "\x7b" .lbrace rfl rfl).append (hrow.nest 2)).append
      spells_space.any).append (spells_firm "\x7d" .rbrace rfl rfl)).group ?_
    simp

theorem params_spell (h : ∀ x ∈ params, isName x = true) :
    (Doc.intersperse (text ", ") (params.map text)).Spells Calm
      (commaTokens (params.map fun x => [.ident x])) Any := by
  induction params with
  | nil => exact spells_nil.any
  | cons x params ih =>
    obtain ⟨hx, hparams⟩ := List.forall_mem_cons.1 h
    cases params with
    | nil => exact (spells_name hx).any
    | cons y params =>
      have hrow := ((spells_name hx).append (spells_firm_space ", " .comma rfl rfl)).append
        (ih hparams)
      exact spells_cast hrow.any (List.append_assoc _ _ _)

/-- What stands between the word and the parameters of a function. -/
def nameDoc : Option String → Doc
  | some x => text " " ++ text x
  | none => .nil

theorem function_spells {name : Option String} (hname : ∀ x ∈ name, isName x = true)
    (hparams : ∀ x ∈ params, isName x = true) (hempty : ds.isEmpty = true → ts = [])
    (h : (Doc.intersperse .space ds).Spells Any ts Any) :
    (function name params ds).Spells P (functionTokens name params ts) Unequal := by
  have hword : (text "function").Spells Calm [.word .functionWord] Unequal :=
    spells_word .functionWord
  have hhead : (text "function" ++ nameDoc name).Spells Calm
      (.word .functionWord :: name.toList.map Token.ident) Unequal := by
    cases name with
    | none => exact hword.append spells_nil
    | some x => exact hword.append (spells_blank.append (spells_name (hname x rfl)))
  refine spells_cast ((((hhead.append (spells_firm "(" .lparen rfl rfl)).append
    (params_spell hparams)).append (spells_firm_space ") " .rparen rfl rfl)).append
      (braces_spells hempty h)) ?_
  simp [functionTokens]

theorem stmtsTokens_of_isEmpty (h : (stmts ss).isEmpty = true) : stmtsTokens false ss = [] := by
  cases ss with
  | nil => rfl
  | cons s ss => cases h

theorem braces_stmts_spell
    (h : (Doc.intersperse .space (stmts ss)).Spells Any (stmtsTokens false ss) Any) :
    (braces (stmts ss)).Spells P (braceTokens (stmtsTokens false ss)) Calm :=
  braces_spells stmtsTokens_of_isEmpty h

theorem operandTokens_opens
    (h : ∃ t us, exprTokens false e = t :: us ∧ plain t = !opensLikeStmt e) (us : List Token) :
    ∃ t us', operandTokens false e (exprTokens false e) ++ us = t :: us' ∧
      plain t = !(isSimple e && opensLikeStmt e) := by
  unfold operandTokens
  cases hs : isSimple e with
  | true =>
    obtain ⟨t, us', heq, ht⟩ := h
    exact ⟨t, us' ++ us, by rw [heq]; rfl, ht⟩
  | false => exact ⟨_, _, rfl, rfl⟩

/-- What the printer takes for the beginning of another statement opens with a brace or with
`function`. -/
theorem exprTokens_opens : (e : Expr) → e.Proper →
    ∃ t us, exprTokens false e = t :: us ∧ plain t = !opensLikeStmt e
  | .num x, _ => by
    refine ⟨_, [], rfl, ?_⟩
    split <;> rfl
  | .str _, _ | .null, _ | .undefined, _ | .var _, _ | .array _, _ | .object _, _ | .func .., _ =>
    ⟨_, _, rfl, rfl⟩
  | .bool b, _ => ⟨_, _, rfl, by cases b <;> rfl⟩
  | .unary op _, _ => ⟨_, _, rfl, by cases op <;> rfl⟩
  | .binary e _ _, hp | .logic e _ _, hp | .cond e _ _, hp | .member e _, hp | .call e _, hp =>
    operandTokens_opens (exprTokens_opens e hp.1) _
  | .assign (.member (.var _) _) _, _ => ⟨_, _, rfl, rfl⟩

mutual

theorem expr_spells : ∀ (e : Expr), e.Proper →
    (∀ x ∈ e.numbers, x.isInf = false → Number.ReadsBack x) →
    (expr e).Spells Calm (exprTokens false e) Unequal
  | .num x, hp, hn => by
    change (text (Decimal.Style.source.write x)).Spells Calm
      [if x.isInf then .ident "Infinity" else .num x] Unequal
    cases hinf : x.isInf with
    | true =>
      -- There is no literal for infinity, only a name.
      rw [hp.write_infinite hinf]
      exact spells_name (by decide)
    | false => exact spells_number hp hinf (hn x (List.mem_singleton_self x) hinf)
  | .str s, _, _ => spells_literal s
  | .bool b, _, _ => by
    cases b with
    | true => exact spells_word .trueWord
    | false => exact spells_word .falseWord
  | .null, _, _ => spells_word .nullWord
  | .undefined, _, _ => spells_word .undefinedWord
  | .var x, hp, _ => spells_name hp
  | .array es, hp, hn =>
    (inBrackets_spells rfl rfl rfl rfl (commaList_spells (exprs_spell es hp hn))).unequal
  | .object fs, hp, hn =>
    (inBrackets_spells rfl rfl rfl rfl (commaList_spells (fields_spell fs hp hn))).unequal
  | .unary op e, hp, hn =>
    (spells_unary op).append (operand_spells e (expr_spells e hp hn))
  | .binary l r op, hp, hn => by
    obtain ⟨hnl, hnr⟩ := List.forall_mem_append.1 hn
    refine joined_spells op.mark (by cases op <;> rfl) ?_ ?_
    · exact operand_spells l (expr_spells l hp.1 hnl)
    · exact operand_spells r (expr_spells r hp.2 hnr)
  | .logic l r op, hp, hn => by
    obtain ⟨hnl, hnr⟩ := List.forall_mem_append.1 hn
    refine joined_spells op.mark (by cases op <;> rfl) ?_ ?_
    · exact operand_spells l (expr_spells l hp.1 hnl)
    · exact operand_spells r (expr_spells r hp.2 hnr)
  | .cond t c a, hp, hn => by
    obtain ⟨hnt, hn⟩ := List.forall_mem_append.1 hn
    obtain ⟨hnc, hna⟩ := List.forall_mem_append.1 hn
    have hthen : (Doc.space ++ text "? " ++ expr c).Spells Calm
        (.mark .question :: exprTokens false c) Calm :=
      (spells_space.append (spells_firm_space "? " .question rfl rfl)).append
        (expr_spells c hp.2.1 hnc)
    have harms := ((hthen.append spells_space).append
      (spells_firm_space ": " .colon rfl rfl)).append (expr_spells a hp.2.2 hna)
    have hrow := ((operand_spells t (expr_spells t hp.1 hnt)).append (harms.nest 2)).group
    refine spells_cast hrow ?_
    simp [exprTokens]
  | .member o p, hp, hn => by
    obtain ⟨hno, hnp⟩ := List.forall_mem_append.1 hn
    exact access_spells (operand_spells o (expr_spells o hp.1 hno)) (expr_spells p hp.2 hnp)
  | .call f es, hp, hn => by
    obtain ⟨hnf, hnes⟩ := List.forall_mem_append.1 hn
    exact (operand_spells f (expr_spells f hp.1 hnf)).append
      (inBrackets_spells rfl rfl rfl rfl (commaList_spells (exprs_spell es hp.2 hnes)))
  | .func n ps b, hp, hn =>
    function_spells hp.1 hp.2.1 stmtsTokens_of_isEmpty (stmts_spell b hp.2.2 hn)
  | .assign t v, hp, hn => by
    obtain ⟨hnt, hnv⟩ := List.forall_mem_append.1 hn
    have hrow := ((expr_spells t hp.2.1 hnt).append spells_assign).append
      (expr_spells v hp.2.2 hnv)
    exact spells_cast hrow (List.append_assoc _ _ _)

theorem exprs_spell : ∀ (es : List Expr), ExprsProper es →
    (∀ x ∈ exprsNumbers es, x.isInf = false → Number.ReadsBack x) →
    SpellAll (exprs es) (exprsTokens false es)
  | [], _, _ => .nil
  | e :: es, hp, hn => by
    obtain ⟨hne, hnes⟩ := List.forall_mem_append.1 hn
    exact .cons (expr_spells e hp.1 hne) (exprs_spell es hp.2 hnes)

theorem fields_spell : ∀ (fs : List (String × Expr)), FieldsProper fs →
    (∀ x ∈ fieldsNumbers fs, x.isInf = false → Number.ReadsBack x) →
    SpellAll (fields fs) (fieldsTokens false fs)
  | [], _, _ => .nil
  | (k, e) :: fs, hp, hn => by
    obtain ⟨hne, hnfs⟩ := List.forall_mem_append.1 hn
    refine .cons ?_ (fields_spell fs hp.2 hnfs)
    have hrow := ((key_spells k).append (spells_firm_space ": " .colon rfl rfl)).append
      (expr_spells e hp.1 hne)
    exact spells_cast hrow (List.append_assoc _ _ _)

theorem bindings_spell : ∀ (ds : List (String × Expr)), (∀ d ∈ ds, isName d.1 = true) →
    FieldsProper ds → (∀ x ∈ fieldsNumbers ds, x.isInf = false → Number.ReadsBack x) →
    SpellAll (bindings ds) (bindingsTokens false ds)
  | [], _, _, _ => .nil
  | (x, e) :: ds, hx, hp, hn => by
    obtain ⟨hne, hnds⟩ := List.forall_mem_append.1 hn
    obtain ⟨hx, hds⟩ := List.forall_mem_cons.1 hx
    refine .cons ?_ (bindings_spell ds hds hp.2 hnds)
    exact ((spells_name hx).append spells_assign).append (expr_spells e hp.1 hne)

theorem stmt_spells : ∀ (s : Stmt), s.Proper →
    (∀ x ∈ s.numbers, x.isInf = false → Number.ReadsBack x) →
    (stmt s).Spells Any (stmtTokens false s) Any
  | .empty, _, _ => (spells_firm ";" .semi rfl rfl).any
  | .expr e, hp, hn => by
    have he := expr_spells e hp hn
    obtain ⟨t, us, heq, ht⟩ := exprTokens_opens e hp
    -- The printer and the tokens agree on which statements need parentheses.
    have hopens : (exprTokens false e).head?.all plain = !opensLikeStmt e := by rw [heq]; exact ht
    rw [stmt, stmtTokens, hopens]
    cases opensLikeStmt e with
    | true => exact (((spells_firm "(" .lparen rfl rfl).append he).append spells_closing).any
    | false => exact (he.append (spells_firm ";" .semi rfl rfl)).any
  | .declare ds, hp, hn => by
    have hds := (commaList_spells (bindings_spell ds hp.2.1 hp.2.2 hn)).nest 4
    exact ((spells_word_space "var " .varWord rfl).append hds).append
      (spells_firm ";" .semi rfl rfl)
  | .ifElse t c a, hp, hn => by
    obtain ⟨hnt, hn⟩ := List.forall_mem_append.1 hn
    obtain ⟨hnc, hna⟩ := List.forall_mem_append.1 hn
    have htest : (text "if (" ++ expr t ++ text ") ").Spells Any
        ([.word .ifWord, .mark .lparen] ++ exprTokens false t ++ [.mark .rparen]) Any :=
      (spells_if.append (expr_spells t hp.1 hnt).any).append
        (spells_firm_space ") " .rparen rfl rfl)
    have hthen : (braces (stmts c)).Spells Any (braceTokens (stmtsTokens false c)) Any :=
      (braces_stmts_spell (stmts_spell c hp.2.1 hnc)).any
    have helse : (braces (stmts a)).Spells Any (braceTokens (stmtsTokens false a)) Any :=
      (braces_stmts_spell (stmts_spell a hp.2.2 hna)).any
    rw [stmt, stmtTokens]
    split_ifs
    · refine spells_cast (htest.append hthen) ?_
      simp
    · refine spells_cast (((htest.append hthen).append spells_else.any).append helse) ?_
      simp
  | .ret e, hp, hn =>
    ((spells_word_space "return " .returnWord rfl).append (expr_spells e hp hn)).append
      (spells_firm ";" .semi rfl rfl)
  | .block b, hp, hn => (braces_stmts_spell (stmts_spell b hp hn)).any

theorem stmts_spell : ∀ (ss : List Stmt), StmtsProper ss →
    (∀ x ∈ stmtsNumbers ss, x.isInf = false → Number.ReadsBack x) →
    (Doc.intersperse .space (stmts ss)).Spells Any (stmtsTokens false ss) Any
  | [], _, _ => spells_nil
  | s :: ss, hp, hn => by
    obtain ⟨hns, hnss⟩ := List.forall_mem_append.1 hn
    have hs := stmt_spells s hp.1 hns
    have hss := stmts_spell ss hp.2 hnss
    cases ss with
    | nil => exact spells_cast hs (List.append_nil _).symm
    | cons s' ss =>
      refine spells_cast ((hs.append spells_space.any).append hss) ?_
      rw [List.append_nil]
      rfl

end

theorem reads_program {p : Program} (hp : StmtsProper p.body)
    (hn : ∀ x ∈ stmtsNumbers p.body, x.isInf = false → Number.ReadsBack x) (width : Nat) :
    Reads (p.pretty width).toList (stmtsTokens false p.body) := by
  have hread := ((stmts_spell p.body hp hn).reads trivial .nil (render_laid _ width)).2
  rwa [List.append_nil] at hread

theorem reads_expr (hp : e.Proper) (hn : ∀ x ∈ e.numbers, x.isInf = false → Number.ReadsBack x)
    (width : Nat) : Reads (e.pretty width).toList (exprTokens false e) := by
  have hend : Calm [] := trivial
  have hread := ((expr_spells e hp hn).reads hend .nil (render_laid _ width)).2
  rwa [List.append_nil] at hread

end Printer

end Chance
