import Chance.Proofs.Printing.Levels

/-!
# Parsing the tokens of a tree

The parser reads the tokens of a printed tree as the tree itself, up to the infinite numbers, which
come back under their name. The tokens of a tree that is written bare are read as the tree itself,
if its operands bind tightly enough.

- `Expr.reread`, `Stmt.reread`: the tree that comes back,
- `expr_taken`, `stmt_taken`: what the rules do with the tokens of a tree.
-/

namespace Chance

/-! ## Trees that come back -/

mutual

/-- The expression that the printed text denotes. -/
def Expr.reread : Expr → Expr
  | .num x => if x.isInf then .var "Infinity" else .num x
  | .array es => .array (rereadExprs es)
  | .object fs => .object (rereadFields fs)
  | .unary op e => .unary op e.reread
  | .binary l r op => .binary l.reread r.reread op
  | .logic l r op => .logic l.reread r.reread op
  | .cond t c a => .cond t.reread c.reread a.reread
  | .member o p => .member o.reread p.reread
  | .call f es => .call f.reread (rereadExprs es)
  | .func n ps b => .func n ps (rereadStmts b)
  | .assign t v => .assign t.reread v.reread
  | .str s => .str s
  | .bool b => .bool b
  | .null => .null
  | .undefined => .undefined
  | .var x => .var x
termination_by structural e => e

def rereadExprs : List Expr → List Expr
  | [] => []
  | e :: es => e.reread :: rereadExprs es
termination_by structural es => es

def rereadFields : List (String × Expr) → List (String × Expr)
  | [] => []
  | (k, e) :: fs => (k, e.reread) :: rereadFields fs
termination_by structural fs => fs

def Stmt.reread : Stmt → Stmt
  | .empty => .empty
  | .expr e => .expr e.reread
  | .declare ds => .declare (rereadFields ds)
  | .ifElse t c a => .ifElse t.reread (rereadStmts c) (rereadStmts a)
  | .ret e => .ret e.reread
  | .block b => .block (rereadStmts b)
termination_by structural s => s

def rereadStmts : List Stmt → List Stmt
  | [] => []
  | s :: ss => s.reread :: rereadStmts ss
termination_by structural ss => ss

end

namespace Grammar

open Chance.Parser Rules
open Printer (commaTokens operandTokens accessTokens keyTokens braceTokens functionTokens exprTokens
  exprsTokens fieldsTokens bindingsTokens stmtTokens stmtsTokens plain)

variable {v : Expr} {t : Token} {ts us rest : List Token} {d : Nat}

/-! ## Forms of expressions -/

section Forms

variable {tss : List (List Token)} {vs : List Expr} {fs : List (String × Expr)} {w : Expr}

theorem readable_field {k : String} (h : Readable (fun d => (rules d).expr) ts v) :
    Readable (fun d => (rules d).field) (keyTokens k ++ .mark .colon :: ts) (k, v) := by
  constructor
  intro d rest hd hrest
  simp only [List.length_append, List.length_cons] at hd
  have hvalue := h.takes (d := d) (by omega) hrest
  have hkey : Takes key (keyTokens k ++ .mark .colon :: (ts ++ rest)) k
      (.mark .colon :: (ts ++ rest)) := by
    unfold keyTokens
    split
    · exact fun i => ⟨i + 1, rfl⟩
    · exact fun i => ⟨i + 1, rfl⟩
  rw [List.append_assoc]
  exact Takes.seq hkey (Takes.seq (takes_mark .colon) (Takes.seq hvalue takes_pure))

theorem readable_declarator {x : String} (h : Readable (fun d => (rules d).expr) ts v) :
    Readable (fun d => (rules d).declarator) (.ident x :: .mark .assign :: ts) (x, v) := by
  constructor
  intro d rest hd hrest
  simp only [List.length_cons] at hd
  have hvalue := h.takes (d := d) (by omega) hrest
  have hinit : Takes (optional (mark .assign >>= fun _ => (rules d).expr))
      (.mark .assign :: (ts ++ rest)) (some v) rest :=
    (Takes.seq (takes_mark .assign) hvalue).optional
  exact Takes.seq (takes_name .declared x) (Takes.seq hinit takes_pure)

theorem operand_array (h : List.Forall₂ (Readable fun d => (rules d).expr) tss vs) :
    Operand (.mark .lbracket :: (commaTokens tss ++ [.mark .rbracket])) (.array vs) := by
  refine operand_of_primary (fun op => by cases op <;> nofun) fun {d rest} hd => ?_
  simp only [List.length_append, List.length_singleton] at hd
  have hend : Ends (.mark .rbracket :: rest) := ends_cons rfl rest
  have hitems := takes_sepBy h (by omega) hend nofun (refuses_expr hend d)
  iterate 9 refine Refuses.choice_takes (fun _ => rfl) ?_
  rw [List.append_assoc]
  refine Takes.choice (Takes.seq (takes_mark .lbracket) (Takes.seq hitems ?_))
  have hcomma : Refuses comma (.mark .rbracket :: rest) := fun _ => rfl
  exact Takes.seq hcomma.optional (Takes.seq (takes_mark .rbracket) takes_pure)

theorem operand_object (h : List.Forall₂ (Readable fun d => (rules d).field) tss fs) :
    Operand (.mark .lbrace :: (commaTokens tss ++ [.mark .rbrace])) (.object fs) := by
  refine operand_of_primary (fun op => by cases op <;> nofun) fun {d rest} hd => ?_
  simp only [List.length_append, List.length_singleton] at hd
  have hend : Ends (.mark .rbrace :: rest) := ends_cons rfl rest
  have hitems := takes_sepBy h (d := d) (by omega) hend nofun fun _ => rfl
  iterate 10 refine Refuses.choice_takes (fun _ => rfl) ?_
  rw [List.append_assoc]
  refine Takes.seq (takes_mark .lbrace) (Takes.seq hitems ?_)
  have hcomma : Refuses comma (.mark .rbrace :: rest) := fun _ => rfl
  exact Takes.seq hcomma.optional (Takes.seq (takes_mark .rbrace) takes_pure)

theorem Operand.call (hf : Operand ts v)
    (h : List.Forall₂ (Readable fun d => (rules d).expr) tss vs) :
    Operand (ts ++ .mark .lparen :: (commaTokens tss ++ [.mark .rparen])) (.call v vs) := by
  refine hf.apply (fun e => .call e vs) (Nat.zero_lt_succ _) fun {d rest} hd => ?_
  simp only [List.length_append, List.length_cons, List.length_nil] at hd
  have hend : Ends (.mark .rparen :: rest) := ends_cons rfl rest
  have hargs := takes_sepBy h (d := d) (by omega) hend nofun (refuses_expr hend d)
  rw [List.cons_append, List.append_assoc]
  refine Takes.choice (Takes.seq (takes_mark .lparen) (Takes.seq hargs ?_))
  exact Takes.seq (takes_mark .rparen) takes_pure

theorem takes_computed (h : Readable (fun d => (rules d).expr) ts v) (hd : 4 * ts.length ≤ d) :
    Takes (rules d).suffixForm (.mark .lbracket :: (ts ++ [.mark .rbracket]) ++ rest)
      (fun e => .member e v) rest := by
  have hindex : Takes (rules d).expr (ts ++ .mark .rbracket :: rest) v (.mark .rbracket :: rest) :=
    h.takes hd (ends_cons rfl rest)
  iterate 2 refine Refuses.choice_takes (fun _ => rfl) ?_
  rw [List.cons_append, List.append_assoc]
  refine Takes.seq (takes_mark .lbracket) (Takes.seq hindex ?_)
  exact Takes.seq (takes_mark .rbracket) takes_pure

theorem Operand.member (ho : Operand ts v) {p : Expr} (hp : ∀ x, p = .str x → w = .str x)
    (h : Readable (fun d => (rules d).expr) us w) :
    Operand (ts ++ accessTokens p us) (.member v w) := by
  have hcomputed : Operand (ts ++ .mark .lbracket :: (us ++ [.mark .rbracket])) (.member v w) := by
    refine ho.apply (fun e => .member e w) (Nat.zero_lt_succ _) fun hd => ?_
    simp only [List.length_append, List.length_cons, List.length_nil] at hd
    exact takes_computed h (by omega)
  unfold accessTokens
  split
  next x =>
    rw [hp x rfl] at hcomputed ⊢
    split
    · refine ho.apply (fun e => .member e (.str x)) (Nat.zero_lt_succ _) fun _ i => ?_
      exact ⟨i + 2, rfl⟩
    · exact hcomputed
  · exact hcomputed

theorem binds_unary (op : UnaryOp) (h : Binds levels.length ts v) :
    Binds levels.length (.mark op.mark :: ts) (.unary op v) := by
  constructor
  intro d rest hd hrest
  simp only [List.length_cons] at hd
  obtain ⟨d, rfl⟩ : ∃ d', d = d' + 1 := ⟨d - 1, by omega⟩
  have hoperand : Takes (rules d).unary (ts ++ rest) v rest := h.takes (by omega) hrest
  cases op with
  | negate => exact Takes.choice (Takes.seq (takes_mark .minus) (Takes.seq hoperand takes_pure))
  | plus =>
    refine Refuses.choice_takes (fun _ => rfl) ?_
    exact Takes.choice (Takes.seq (takes_mark .plus) (Takes.seq hoperand takes_pure))
  | not =>
    iterate 2 refine Refuses.choice_takes (fun _ => rfl) ?_
    exact Takes.choice (Takes.seq (takes_mark .bang) (Takes.seq hoperand takes_pure))

theorem graded_joined {f : Expr → Expr → Expr} {m : Mark} {k : Nat} (hk : k < levels.length)
    (hop : ∀ rest, Takes (operator levels[k]) (.mark m :: rest) f rest)
    (htighter : ∀ ops ∈ levels.drop (k + 1), ∀ op ∈ ops, m ≠ op.1)
    (hm : m ∉ [Mark.lparen, .dot, .lbracket]) (hv : Graded (k + 1) ts v)
    (hw : Graded (k + 2) us w) : Graded (k + 1) (ts ++ .mark m :: us) (f v w) := by
  have hright : Binds (k + 1) us w := hw.binds (Nat.lt_succ_self _) hk
  refine ((hv.chains hk (Nat.lt_succ_self k)).joined hright hop (stops_mark hm htighter)).graded ?_
  simp only [List.length_append, List.length_cons]
  omega

theorem graded_binary (op : BinaryOp) (hv : Graded (op.level + 1) ts v)
    (hw : Graded (op.level + 2) us w) :
    Graded (op.level + 1) (ts ++ .mark op.mark :: us) (.binary v w op) := by
  have hk : op.level < levels.length := by cases op <;> decide
  refine graded_joined (f := fun v w => .binary v w op) hk ?_ ?_ ?_ hv hw
  · cases op <;> exact fun _ i => ⟨i + 1, rfl⟩
  · cases op <;> decide
  · cases op <;> decide

theorem graded_logic (op : LogicOp) (hv : Graded (op.level + 1) ts v)
    (hw : Graded (op.level + 2) us w) :
    Graded (op.level + 1) (ts ++ .mark op.mark :: us) (.logic v w op) := by
  have hk : op.level < levels.length := by cases op <;> decide
  refine graded_joined (f := fun v w => .logic v w op) hk ?_ ?_ ?_ hv hw
  · cases op <;> exact fun _ i => ⟨i + 1, rfl⟩
  · cases op <;> decide
  · cases op <;> decide

theorem readable_cond {us' : List Token} {w' : Expr} (ht : Binds 0 ts v)
    (hc : Readable (fun d => (rules d).expr) us w)
    (ha : Readable (fun d => (rules d).expr) us' w') :
    Readable (fun d => (rules d).expr) (ts ++ .mark .question :: (us ++ .mark .colon :: us'))
      (.cond v w w') := by
  constructor
  intro d rest hd hrest
  simp only [List.length_append, List.length_cons] at hd
  obtain ⟨d, rfl⟩ : ∃ d', d = d' + 1 := ⟨d - 1, by omega⟩
  have htest := ht.takes (by omega : _ ≤ d + 1)
    (stops_mark (by decide : Mark.question ∉ _) (by decide) (us ++ .mark .colon :: (us' ++ rest)))
  have hthen : Takes (rules d).expr (us ++ .mark .colon :: (us' ++ rest)) w
      (.mark .colon :: (us' ++ rest)) := hc.takes (by omega) (ends_cons rfl _)
  have helse : Takes (rules d).expr (us' ++ rest) w' rest := ha.takes (by omega) hrest
  have harms : Takes (do
      mark .question
      let c ← (rules d).expr
      mark .colon
      let a ← (rules d).expr
      return (c, a)) (.mark .question :: (us ++ .mark .colon :: (us' ++ rest))) (w, w') rest :=
    Takes.seq (takes_mark .question)
      (Takes.seq hthen (Takes.seq (takes_mark .colon) (Takes.seq helse takes_pure)))
  refine Takes.exprRule_none ?_ (hrest.head_ne rfl)
  simp only [List.append_assoc, List.cons_append]
  exact Takes.seq htest (Takes.seq harms.optional takes_pure)

theorem readable_assign (ht : Binds 0 ts v) (hstore : isStoreProperty v = true)
    (hw : Readable (fun d => (rules d).expr) us w) :
    Readable (fun d => (rules d).expr) (ts ++ .mark .assign :: us) (.assign v w) := by
  constructor
  intro d rest hd hrest
  simp only [List.length_append, List.length_cons] at hd
  obtain ⟨d, rfl⟩ : ∃ d', d = d' + 1 := ⟨d - 1, by omega⟩
  have htarget := ht.takes (by omega : _ ≤ d + 1)
    (stops_mark (by decide : Mark.assign ∉ _) (by decide) (us ++ rest))
  have hvalue : Takes (rules d).expr (us ++ rest) w rest := hw.takes (by omega) hrest
  have hassigned : Takes (optional (mark .assign >>= fun _ => (rules d).expr))
      (.mark .assign :: (us ++ rest)) (some w) rest :=
    (Takes.seq (takes_mark .assign) hvalue).optional
  rw [List.append_assoc]
  refine Takes.seq (Takes.conditional_none htarget nofun) (Takes.seq hassigned ?_)
  simp only [hstore, if_true]
  exact takes_pure

end Forms

/-! ## Statements -/

/-- Tokens that are read as the statement `s` where no `else` follows. -/
structure ReadableStmt (ts : List Token) (s : Stmt) : Prop where
  opens : ∃ t us, ts = t :: us ∧ t ≠ .word .elseWord
  takes : ∀ {d : Nat} {rest : List Token}, 4 * ts.length ≤ d →
    rest.head? ≠ some (.word .elseWord) → Takes (rules d).stmt (ts ++ rest) s rest

structure ReadableStmts (ts : List Token) (ss : List Stmt) : Prop where
  length_le : ss.length ≤ ts.length
  head_ne : ∀ rest, rest.head? ≠ some (.word .elseWord) →
    (ts ++ rest).head? ≠ some (.word .elseWord)
  takes : ∀ {d n : Nat} {rest : List Token}, 4 * ts.length ≤ d → ss.length ≤ n →
    Refuses (rules d).stmt rest → rest.head? ≠ some (.word .elseWord) →
    Takes (many (rules d).stmt n) (ts ++ rest) ss rest

section Statements

variable {s : Stmt} {ss ss' : List Stmt} {us' : List Token} {n : Nat}

theorem readableStmts_nil : ReadableStmts [] [] where
  length_le := Nat.le_refl 0
  head_ne := fun _ h => h
  takes := fun _ _ hrest _ => hrest.many _

theorem readableStmts_cons (hs : ReadableStmt ts s) (hss : ReadableStmts us ss) :
    ReadableStmts (ts ++ us) (s :: ss) := by
  obtain ⟨t, ts', rfl, ht⟩ := hs.opens
  refine ⟨?_, fun rest _ heq => ht (Option.some.inj heq), fun {d n rest} hd hn hrest helse => ?_⟩
  · have := hss.length_le
    simp only [List.length_append, List.length_cons]
    omega
  · simp only [List.length_append, List.length_cons] at hd hn
    obtain ⟨n, rfl⟩ := Nat.exists_eq_add_of_le' (Nat.one_le_of_lt hn)
    rw [List.append_assoc]
    have hfirst : Takes (rules d).stmt (t :: ts' ++ (us ++ rest)) s (us ++ rest) :=
      hs.takes (by simp only [List.length_cons]; omega) (hss.head_ne rest helse)
    have hmore : Takes (many (rules d).stmt n) (us ++ rest) ss rest :=
      hss.takes (by omega) (by omega) hrest helse
    exact hfirst.many hmore

theorem refuses_stmt_rbrace (d : Nat) (rest : List Token) :
    Refuses (rules d).stmt (.mark .rbrace :: rest) := by
  cases d with
  | zero => exact fun _ => rfl
  | succ d =>
    iterate 6 refine Refuses.orElse (fun _ => rfl) ?_
    exact Refuses.seq (refuses_expr (ends_cons rfl rest) d)

theorem refuses_stmt_nil (d : Nat) : Refuses (rules d).stmt [] := by
  cases d with
  | zero => exact fun _ => rfl
  | succ d =>
    iterate 6 refine Refuses.orElse (fun _ => rfl) ?_
    exact Refuses.seq (refuses_expr ends_nil d)

theorem takes_block (h : ReadableStmts ts ss) (hd : 4 * ts.length ≤ d) (rest : List Token) :
    Takes (rules d).block (braceTokens ts ++ rest) ss rest := by
  have hcount := h.length_le
  have hbody := h.takes (n := (rules d).bound) hd (by rw [rules_bound]; omega)
    (refuses_stmt_rbrace d rest) nofun
  rw [braceTokens, List.cons_append, List.append_assoc]
  exact Takes.seq (takes_mark .lbrace)
    (Takes.seq hbody (Takes.seq (takes_mark .rbrace) takes_pure))

theorem readable_params (params : List String) :
    List.Forall₂ (Readable fun _ => name .parameter) (params.map fun x => [.ident x]) params := by
  induction params with
  | nil => exact .nil
  | cons x params ih => exact .cons ⟨fun _ _ => takes_name .parameter x⟩ ih

theorem operand_function (f : Option String) (params : List String) (h : ReadableStmts ts ss) :
    Operand (functionTokens f params ts) (.func f params ss) := by
  refine operand_of_primary (fun op => by cases op <;> nofun) fun {d rest} hd => ?_
  simp only [braceTokens, List.length_append, List.length_cons] at hd
  have hend : Ends (.mark .rparen :: (braceTokens ts ++ rest)) := ends_cons rfl _
  have hparams := takes_sepBy (readable_params params) (d := d) (by omega) hend nofun fun _ => rfl
  have hbody := takes_block (d := d) h (by omega) rest
  have hrest : Takes (rules d).functionRest (.mark .lparen ::
      (commaTokens (params.map fun x => [.ident x]) ++ .mark .rparen :: (braceTokens ts ++ rest)))
      (params, ss) rest :=
    Takes.seq (takes_mark .lparen)
      (Takes.seq hparams (Takes.seq (takes_mark .rparen) (Takes.seq hbody takes_pure)))
  iterate 6 refine Refuses.choice_takes (fun _ => rfl) ?_
  refine Takes.choice (Takes.seq (takes_word .functionWord) ?_)
  simp only [List.append_assoc, List.cons_append]
  cases f with
  | none =>
    have hname : Refuses (name .functionLiteral) (.mark .lparen :: (commaTokens (params.map
        fun x => [.ident x]) ++ .mark .rparen :: (braceTokens ts ++ rest))) := fun _ => rfl
    exact Takes.seq hname.optional (Takes.seq hrest takes_pure)
  | some x =>
    exact Takes.seq (takes_name .functionLiteral x).optional (Takes.seq hrest takes_pure)

theorem readableStmt_empty : ReadableStmt [.mark .semi] .empty := by
  refine ⟨⟨_, [], rfl, nofun⟩, fun {d rest} hd _ => ?_⟩
  obtain ⟨d, rfl⟩ : ∃ d', d = d' + 1 := ⟨d - 1, by simp at hd; omega⟩
  iterate 5 refine Refuses.choice_takes (fun _ => rfl) ?_
  exact Takes.choice (Takes.seq (takes_mark .semi) takes_pure)

theorem head_ne_of_plain {t' : Token} (ht : plain t = true) (ht' : plain t' = false) :
    (t :: ts).head? ≠ some t' := by
  intro heq
  rw [Option.some.inj heq, ht'] at ht
  cases ht

theorem refuses_declaratorWord (ht : plain t = true) : Refuses declaratorWord (t :: ts) := by
  intro i
  have hne : ¬(t = .word .varWord ∨ t = .word .letWord ∨ t = .word .constWord) := by
    rintro (rfl | rfl | rfl) <;> cases ht
  simp only [declaratorWord, token, if_neg hne]

theorem readableStmt_expr (ht : plain t = true)
    (h : Readable (fun d => (rules d).expr) (t :: us) v) :
    ReadableStmt (t :: us ++ [.mark .semi]) (.expr v) := by
  refine ⟨⟨t, us ++ [.mark .semi], rfl, by rintro rfl; cases ht⟩, fun {d rest} hd _ => ?_⟩
  simp only [List.length_append, List.length_cons] at hd
  obtain ⟨d, rfl⟩ : ∃ d', d = d' + 1 := ⟨d - 1, by omega⟩
  have hvalue : Takes (rules d).expr (t :: us ++ .mark .semi :: rest) v (.mark .semi :: rest) :=
    h.takes (by simp only [List.length_cons]; omega) (ends_cons rfl rest)
  rw [List.append_assoc]
  refine Refuses.choice_takes
    (Refuses.seq (Refuses.seq (refuses_mark (head_ne_of_plain ht rfl)))) ?_
  refine Refuses.choice_takes (Refuses.seq (refuses_declaratorWord ht)) ?_
  iterate 3 refine Refuses.choice_takes (Refuses.seq (refuses_word (head_ne_of_plain ht rfl))) ?_
  refine Refuses.choice_takes (Refuses.seq (refuses_mark (head_ne_of_plain ht rfl))) ?_
  exact Takes.seq hvalue (Takes.seq (takes_mark .semi).optional takes_pure)

theorem readableStmt_declare {tss : List (List Token)} {ds : List (String × Expr)}
    (h : List.Forall₂ (Readable fun d => (rules d).declarator) tss ds) (hne : tss ≠ []) :
    ReadableStmt (.word .varWord :: (commaTokens tss ++ [.mark .semi])) (.declare ds) := by
  refine ⟨⟨_, _, rfl, nofun⟩, fun {d rest} hd _ => ?_⟩
  simp only [List.length_append, List.length_cons] at hd
  obtain ⟨d, rfl⟩ : ∃ d', d = d' + 1 := ⟨d - 1, by omega⟩
  have hend : Ends (.mark .semi :: rest) := ends_cons rfl rest
  have hitems := takes_sepBy1 h (d := d) hne (by omega) hend nofun
  have hword : Takes declaratorWord (.word .varWord :: (commaTokens tss ++ .mark .semi :: rest)) ()
      (commaTokens tss ++ .mark .semi :: rest) := fun i => ⟨i + 1, rfl⟩
  refine Refuses.choice_takes (fun _ => rfl) (Takes.choice ?_)
  rw [List.cons_append, List.append_assoc]
  exact Takes.seq hword (Takes.seq hitems (Takes.seq (takes_mark .semi).optional takes_pure))

theorem readableStmt_block (h : ReadableStmts ts ss) :
    ReadableStmt (braceTokens ts) (.block ss) := by
  refine ⟨⟨_, _, rfl, nofun⟩, fun {d rest} hd _ => ?_⟩
  simp only [braceTokens, List.length_append, List.length_cons] at hd
  obtain ⟨d, rfl⟩ : ∃ d', d = d' + 1 := ⟨d - 1, by omega⟩
  exact Takes.choice (Takes.seq (takes_block h (by omega) rest) takes_pure)

theorem readableStmt_ret (h : Readable (fun d => (rules d).expr) ts v) :
    ReadableStmt (.word .returnWord :: (ts ++ [.mark .semi])) (.ret v) := by
  refine ⟨⟨_, _, rfl, nofun⟩, fun {d rest} hd _ => ?_⟩
  simp only [List.length_append, List.length_cons] at hd
  obtain ⟨d, rfl⟩ : ∃ d', d = d' + 1 := ⟨d - 1, by omega⟩
  have hvalue : Takes (rules d).expr (ts ++ .mark .semi :: rest) v (.mark .semi :: rest) :=
    h.takes (by omega) (ends_cons rfl rest)
  iterate 4 refine Refuses.choice_takes (fun _ => rfl) ?_
  rw [List.cons_append, List.append_assoc]
  exact Takes.choice (Takes.seq (takes_word .returnWord)
    (Takes.seq hvalue.optional (Takes.seq (takes_mark .semi).optional takes_pure)))

/-- The arms of a printed conditional are blocks; an absent arm comes back as an empty one. -/
theorem readableStmt_ifElse (ht : Readable (fun d => (rules d).expr) ts v)
    (hc : ReadableStmts us ss) (ha : ReadableStmts us' ss') (absent : Bool)
    (habsent : absent = true → ss' = []) :
    ReadableStmt (.word .ifWord :: .mark .lparen :: (ts ++ .mark .rparen :: (braceTokens us ++
      if absent then [] else .word .elseWord :: braceTokens us'))) (.ifElse v ss ss') := by
  refine ⟨⟨_, _, rfl, nofun⟩, fun {d rest} hd helse => ?_⟩
  simp only [braceTokens, List.length_append, List.length_cons] at hd
  obtain ⟨d, rfl⟩ : ∃ d', d = d' + 1 := ⟨d - 1, by omega⟩
  iterate 3 refine Refuses.choice_takes (fun _ => rfl) ?_
  simp only [List.append_assoc, List.cons_append]
  refine Takes.choice (Takes.seq (takes_word .ifWord) (Takes.seq (takes_mark .lparen) ?_))
  refine Takes.seq (ht.takes (by omega) (ends_cons rfl _)) (Takes.seq (takes_mark .rparen) ?_)
  refine Takes.seq (Takes.choice (takes_block hc (by omega) _)) ?_
  cases absent with
  | true =>
    rw [habsent rfl]
    exact Takes.seq (Refuses.seq (refuses_word helse)).optional takes_pure
  | false =>
    simp only [Bool.false_eq_true, if_false, List.length_append, List.length_cons] at hd
    have harm : Takes (rules d).branch (braceTokens us' ++ rest) ss' rest :=
      Takes.choice (takes_block ha (by omega) rest)
    exact Takes.seq (Takes.seq (takes_word .elseWord) harm).optional takes_pure

end Statements

/-! ## Whole trees -/

theorem graded_token {n : Nat} (ht : ∀ op : UnaryOp, t ≠ .mark op.mark)
    (h : ∀ (r : Rules) (rest : List Token), Takes r.primary (t :: rest) v rest) :
    Graded n [t] v := by
  have hoperand : Operand [t] v := operand_of_primary ht fun {d rest} _ => h (rules d) rest
  exact hoperand.graded n

variable {bare : Bool}

theorem exprTokens_ne_nil (e : Expr) : exprTokens bare e ≠ [] := by
  cases e with
  | member o p =>
    have hne : accessTokens p (exprTokens bare p) ≠ [] := by
      unfold accessTokens
      split
      · split <;> simp
      · simp
    exact List.append_ne_nil_of_right_ne_nil _ hne
  | _ => simp [exprTokens, functionTokens]

mutual

/-- Bare tokens are read as the tree itself. -/
theorem expr_taken : (e : Expr) → e.Proper → (bare = true → e.Nested) →
    Graded e.tightness (exprTokens bare e) (bif bare then e else e.reread)
  | .num x, _, _ => by
    cases bare with
    | true => exact graded_token nofun fun _ _ i => ⟨i + 1, rfl⟩
    | false =>
      by_cases hx : x.isInf = true
      · simp only [exprTokens, Expr.reread, hx, Bool.not_false, Bool.and_self, if_true, cond_false]
        exact graded_token nofun fun _ _ i => ⟨i + 1, rfl⟩
      · simp only [exprTokens, Expr.reread, if_neg hx, Bool.not_false, Bool.true_and, cond_false]
        exact graded_token nofun fun _ _ i => ⟨i + 1, rfl⟩
  | .str _, _, _ | .null, _, _ | .undefined, _, _ | .var _, _, _ => by
    cases bare <;> exact graded_token nofun fun _ _ i => ⟨i + 1, rfl⟩
  | .bool b, _, _ => by
    cases bare <;> cases b <;> exact graded_token nofun fun _ _ i => ⟨i + 1, rfl⟩
  | .array es, hp, hn => by
    have hes := exprs_taken es hp hn
    cases bare <;> exact (operand_array hes).graded _
  | .object fs, hp, hn => by
    have hfs := fields_taken fs hp hn
    cases bare <;> exact (operand_object hfs).graded _
  | .unary op e, hp, hn => by
    have he := (expr_taken e hp fun h => (hn h).2).operandTokens fun h => (hn h).1
    have hbinds := binds_unary op (he.binds (by decide) (Nat.le_refl _))
    cases bare <;> exact hbinds.graded (Nat.zero_lt_succ _)
  | .binary l r op, hp, hn => by
    have hl := (expr_taken l hp.1 fun h => (hn h).2.1).operandTokens fun h => (hn h).1.1
    have hr := (expr_taken r hp.2 fun h => (hn h).2.2).operandTokens fun h => (hn h).1.2
    cases bare <;> exact graded_binary op hl hr
  | .logic l r op, hp, hn => by
    have hl := (expr_taken l hp.1 fun h => (hn h).2.1).operandTokens fun h => (hn h).1.1
    have hr := (expr_taken r hp.2 fun h => (hn h).2.2).operandTokens fun h => (hn h).1.2
    cases bare <;> exact graded_logic op hl hr
  | .cond t c a, hp, hn => by
    have ht := (expr_taken t hp.1 fun h => (hn h).2.1).operandTokens fun h => (hn h).1
    have hc := expr_taken c hp.2.1 fun h => (hn h).2.2.1
    have ha := expr_taken a hp.2.2 fun h => (hn h).2.2.2
    have hall :=
      readable_cond (ht.binds (Nat.lt_succ_self 0) (Nat.zero_le _)) hc.readable ha.readable
    cases bare <;> exact hall.graded
  | .member o p, hp, hn => by
    have ho := (expr_taken o hp.1 fun h => (hn h).2.1).operandTokens fun h => (hn h).1.ge
    have hp' := expr_taken p hp.2 fun h => (hn h).2.2
    have hall := (ho.operand (Nat.le_refl 8)).member (p := p) (by rintro x rfl; cases bare <;> rfl)
      hp'.readable
    cases bare <;> exact hall.graded _
  | .call f es, hp, hn => by
    have hf := (expr_taken f hp.1 fun h => (hn h).2.1).operandTokens fun h => (hn h).1.ge
    have hall := (hf.operand (Nat.le_refl 8)).call (exprs_taken es hp.2 fun h => (hn h).2.2)
    cases bare <;> exact hall.graded _
  | .func f ps b, hp, hn => by
    have hall := operand_function f ps (stmts_taken b hp.2.2 hn)
    cases bare <;> exact hall.graded _
  | .assign t v, hp, hn => by
    have ht := expr_taken t hp.2.1 fun h => (hn h).1
    have hv := expr_taken v hp.2.2 fun h => (hn h).2
    -- A property of the store binds as tightly as any operand, so it needs no parentheses.
    have hstore : t.tightness = 8 ∧ isStoreProperty (bif bare then t else t.reread) = true := by
      obtain ⟨hstore, -⟩ := hp
      unfold Expr.IsStoreProperty at hstore
      split at hstore
      · exact ⟨rfl, by cases bare <;> exact decide_eq_true hstore⟩
      · exact hstore.elim
    have hall := readable_assign (ht.binds (by rw [hstore.1]; decide) (Nat.zero_le _)) hstore.2
      hv.readable
    cases bare <;> exact hall.graded

theorem exprs_taken : (es : List Expr) → ExprsProper es → (bare = true → ExprsNested es) →
    List.Forall₂ (Readable fun d => (rules d).expr) (exprsTokens bare es)
      (bif bare then es else rereadExprs es)
  | [], _, _ => by cases bare <;> exact .nil
  | e :: es, hp, hn => by
    have he := (expr_taken e hp.1 fun h => (hn h).1).readable
    have hes := exprs_taken es hp.2 fun h => (hn h).2
    cases bare <;> exact .cons he hes

theorem fields_taken : (fs : List (String × Expr)) → FieldsProper fs →
    (bare = true → FieldsNested fs) →
    List.Forall₂ (Readable fun d => (rules d).field) (fieldsTokens bare fs)
      (bif bare then fs else rereadFields fs)
  | [], _, _ => by cases bare <;> exact .nil
  | (_, e) :: fs, hp, hn => by
    have he := (expr_taken e hp.1 fun h => (hn h).1).readable
    have hfs := fields_taken fs hp.2 fun h => (hn h).2
    cases bare <;> exact .cons (readable_field he) hfs

theorem bindings_taken : (ds : List (String × Expr)) → FieldsProper ds →
    (bare = true → FieldsNested ds) →
    List.Forall₂ (Readable fun d => (rules d).declarator) (bindingsTokens bare ds)
      (bif bare then ds else rereadFields ds)
  | [], _, _ => by cases bare <;> exact .nil
  | (_, e) :: ds, hp, hn => by
    have he := (expr_taken e hp.1 fun h => (hn h).1).readable
    have hds := bindings_taken ds hp.2 fun h => (hn h).2
    cases bare <;> exact .cons (readable_declarator he) hds

theorem stmt_taken : (s : Stmt) → s.Proper → (bare = true → s.Nested) →
    ReadableStmt (stmtTokens bare s) (bif bare then s else s.reread)
  | .empty, _, _ => by cases bare <;> exact readableStmt_empty
  | .expr e, hp, hn => by
    have he := (expr_taken e hp hn).readable
    have hall :
        ReadableStmt (stmtTokens bare (.expr e)) (.expr (bif bare then e else e.reread)) := by
      rw [stmtTokens]
      split
      -- Without parentheses the first token must not open another statement.
      next hplain =>
        obtain ⟨t, us, heq⟩ := List.exists_cons_of_ne_nil (exprTokens_ne_nil e)
        rw [heq] at he hplain ⊢
        exact readableStmt_expr hplain he
      · simpa using readableStmt_expr rfl ((operand_parens he).graded 0).readable
    cases bare <;> exact hall
  | .declare [], hp, _ => absurd rfl hp.1
  | .declare (b :: ds), hp, hn => by
    have hall := readableStmt_declare (bindings_taken (b :: ds) hp.2.2 hn) (List.cons_ne_nil _ _)
    cases bare <;> exact hall
  | .ifElse t c a, hp, hn => by
    have ht := (expr_taken t hp.1 fun h => (hn h).1).readable
    have hc := stmts_taken c hp.2.1 fun h => (hn h).2.1
    have ha := stmts_taken a hp.2.2 fun h => (hn h).2.2
    have hall := readableStmt_ifElse ht hc ha a.isEmpty fun h => by
      rw [List.isEmpty_iff.1 h]
      cases bare <;> rfl
    cases bare <;> exact hall
  | .ret e, hp, hn => by
    have hall := readableStmt_ret (expr_taken e hp hn).readable
    cases bare <;> exact hall
  | .block b, hp, hn => by
    have hall := readableStmt_block (stmts_taken b hp hn)
    cases bare <;> exact hall

theorem stmts_taken : (ss : List Stmt) → StmtsProper ss → (bare = true → StmtsNested ss) →
    ReadableStmts (stmtsTokens bare ss) (bif bare then ss else rereadStmts ss)
  | [], _, _ => by cases bare <;> exact readableStmts_nil
  | s :: ss, hp, hn => by
    have hall := readableStmts_cons (stmt_taken s hp.1 fun h => (hn h).1)
      (stmts_taken ss hp.2 fun h => (hn h).2)
    cases bare <;> exact hall

end

end Grammar

end Chance
