import Chance.Proofs.Number.Magnitude
import Chance.Grammar.Parse

/-!
# What is read is proper

Texts consist of proper tokens. A parser yields results with a property if it does so on proper
tokens and leaves proper tokens over. The combinators carry this along, so every grammar rule
yields proper syntax, at any depth, and so does reading a text.
-/

namespace Chance

variable {c : Char} {cs : List Char} {source : String}

/-- Tokens that a text can consist of. -/
def Token.Proper : Token → Prop
  | .ident x => isName x
  | .num x => Number.IsMagnitude x
  | _ => True

namespace Parser

variable {α β : Type} {P : α → Prop} {Q : β → Prop} {a : α} {p : Parser α} {sep : Parser Unit}

/-- On proper tokens, results satisfy `P` and the tokens left over are proper. -/
def Yields (P : α → Prop) (p : Parser α) : Prop :=
  ∀ (c : Cursor) (a : α) (c' : Cursor), (∀ t ∈ c.rest, t.Proper) →
    (p c).result = some (a, c') → P a ∧ ∀ t ∈ c'.rest, t.Proper

/-! ## Combinators -/

theorem yields_succeed (h : P a) : Yields P (succeed a) := by
  rintro c _ _ hc ⟨⟩
  exact ⟨h, hc⟩

theorem yields_fail {r : Cursor → Trouble} : Yields P fun c => ⟨none, r c⟩ := by
  intro c a c' _ h
  cases h

theorem Yields.bind {p : Parser α} {f : α → Parser β} (hp : Yields P p)
    (hf : ∀ a, P a → Yields Q (f a)) : Yields Q (p.bind f) := by
  intro c b c' hc h
  unfold Parser.bind at h
  cases hr : (p c).result with
  | none =>
    simp only [hr] at h
    cases h
  | some r =>
    obtain ⟨a, c₁⟩ := r
    simp only [hr] at h
    obtain ⟨ha, hc₁⟩ := hp c a c₁ hc hr
    exact hf a ha c₁ b c' hc₁ h

theorem Yields.seq {f : α → Parser β} (hp : Yields P p) (hf : ∀ a, P a → Yields Q (f a)) :
    Yields Q (p >>= f) :=
  hp.bind hf

theorem yields_pure (h : P a) : Yields P (pure a : Parser α) :=
  yields_succeed h

theorem Yields.imp {P' : α → Prop} (hp : Yields P p) (h : ∀ a, P a → P' a) : Yields P' p := by
  intro c a c' hc hr
  obtain ⟨ha, hc'⟩ := hp c a c' hc hr
  exact ⟨h a ha, hc'⟩

theorem yields_token {e : Expectation} {accept : Token → Option α}
    (h : ∀ t a, t.Proper → accept t = some a → P a) : Yields P (token e accept) := by
  intro c a c' hc hr
  unfold token at hr
  split at hr
  · cases hr
  · rename_i t rest hrest
    split at hr
    · rename_i b hb
      cases hr
      rw [hrest] at hc
      exact ⟨h t _ (hc t List.mem_cons_self) hb, fun u hu => hc u (List.mem_cons_of_mem t hu)⟩
    · cases hr

theorem Yields.orElse {p q : Parser α} (hp : Yields P p) (hq : Yields P q) :
    Yields P (p.orElse q) := by
  intro c a c' hc hr
  unfold Parser.orElse at hr
  cases hpr : (p c).result with
  | some r =>
    simp only [hpr] at hr
    cases hr
    exact hp c a c' hc hpr
  | none =>
    simp only [hpr] at hr
    exact hq c a c' hc hr

theorem yields_choice {ps : List (Parser α)} (h : ∀ p ∈ ps, Yields P p) :
    Yields P (choice ps) := by
  induction ps with
  | nil => exact yields_fail
  | cons p ps ih =>
    cases ps with
    | nil => exact h p List.mem_cons_self
    | cons q qs =>
      exact (h p List.mem_cons_self).orElse (ih fun r hr => h r (List.mem_cons_of_mem p hr))

theorem Yields.optional (hp : Yields P p) : Yields (fun o => ∀ a ∈ o, P a) (optional p) := by
  refine (hp.bind fun a ha => yields_succeed ?_).orElse (yields_succeed nofun)
  intro b hb
  cases hb
  exact ha

theorem Yields.many {p : Parser α} (hp : Yields P p) (fuel : Nat) :
    Yields (fun as => ∀ a ∈ as, P a) (many p fuel) := by
  induction fuel with
  | zero => exact yields_succeed nofun
  | succ fuel ih =>
    refine (hp.bind fun a ha => ih.bind fun as has => yields_succeed ?_).orElse
      (yields_succeed nofun)
    intro b hb
    rcases List.mem_cons.1 hb with rfl | hb
    · exact ha
    · exact has b hb

theorem Yields.sepBy1 (hp : Yields P p) (hsep : Yields (fun _ => True) sep) (fuel : Nat) :
    Yields (fun as => as ≠ [] ∧ ∀ a ∈ as, P a) (sepBy1 p sep fuel) := by
  have hmore : Yields P (sep.bind fun _ => p) := hsep.bind fun _ _ => hp
  refine hp.bind fun a ha => (hmore.many fuel).bind fun as has => yields_succeed ?_
  refine ⟨nofun, fun b hb => ?_⟩
  rcases List.mem_cons.1 hb with rfl | hb
  · exact ha
  · exact has b hb

theorem Yields.sepBy (hp : Yields P p) (hsep : Yields (fun _ => True) sep) (fuel : Nat) :
    Yields (fun as => ∀ a ∈ as, P a) (sepBy p sep fuel) :=
  ((hp.sepBy1 hsep fuel).imp fun _ h => h.2).orElse (yields_succeed nofun)

theorem yields_word (w : Keyword) : Yields (fun _ => True) (word w) :=
  yields_token fun _ _ _ _ => trivial

theorem yields_mark (m : Mark) : Yields (fun _ => True) (mark m) :=
  yields_token fun _ _ _ _ => trivial

theorem yields_name (role : NameRole) : Yields (fun x => isName x) (name role) := by
  refine yields_token fun t x ht hx => ?_
  cases t with
  | ident y =>
    cases hx
    exact ht
  | _ => cases hx

theorem yields_number : Yields Number.IsMagnitude number := by
  refine yields_token fun t x ht hx => ?_
  cases t with
  | num y =>
    cases hx
    exact ht
  | _ => cases hx

theorem yields_text : Yields (fun _ => True) text :=
  yields_token fun _ _ _ _ => trivial

theorem Yields.whole (hp : Yields P p) {tokens : List Token} (ht : ∀ t ∈ tokens, t.Proper)
    (h : p.whole tokens = .ok a) : P a := by
  simp only [Parser.whole] at h
  split at h
  · rename_i b i hb
    cases h
    exact (hp _ _ _ ht hb).1
  · cases h
  · cases h

end Parser

namespace Grammar

open Chance.Parser

/-! ## Rules -/

variable {tokens : List Token}

/-- Rules that yield proper syntax. -/
structure Rules.Proper (r : Rules) : Prop where
  stmt : Yields Stmt.Proper r.stmt
  expr : Yields Expr.Proper r.expr
  unary : Yields Expr.Proper r.unary

namespace Rules.Proper

variable {r : Rules} (hr : r.Proper)
include hr

theorem block : Yields StmtsProper r.block := by
  refine (yields_mark _).seq fun _ _ => (hr.stmt.many _).seq fun body hbody => ?_
  exact (yields_mark _).seq fun _ _ => yields_pure (stmtsProper_iff.2 hbody)

theorem functionRest :
    Yields (fun p => (∀ x ∈ p.1, isName x) ∧ StmtsProper p.2) r.functionRest := by
  refine (yields_mark _).seq fun _ _ => ?_
  refine ((yields_name _).sepBy (yields_mark _) _).seq fun params hparams => ?_
  refine (yields_mark _).seq fun _ _ => hr.block.seq fun body hbody => ?_
  exact yields_pure ⟨hparams, hbody⟩

theorem functionLiteral : Yields Expr.Proper r.functionLiteral := by
  refine (yields_word _).seq fun _ _ => (yields_name _).optional.seq fun f hf => ?_
  exact hr.functionRest.seq fun p hp => yields_pure ⟨hf, hp.1, hp.2⟩

theorem parenthesized : Yields Expr.Proper r.parenthesized := by
  refine (yields_mark _).seq fun _ _ => hr.expr.seq fun e he => ?_
  exact (yields_mark _).seq fun _ _ => yields_pure he

theorem arrayLiteral : Yields Expr.Proper r.arrayLiteral := by
  refine (yields_mark _).seq fun _ _ => ?_
  refine (hr.expr.sepBy (yields_mark _) _).seq fun es hes => ?_
  refine (yields_mark _).optional.seq fun _ _ => (yields_mark _).seq fun _ _ => ?_
  exact yields_pure (exprsProper_iff.2 hes)

theorem field : Yields (fun f => f.2.Proper) r.field := by
  have hkey : Yields (fun _ => True) Rules.key := by
    refine yields_choice ?_
    simp only [List.mem_cons, List.not_mem_nil, or_false, forall_eq_or_imp, forall_eq]
    exact ⟨(yields_name _).imp fun _ _ => trivial, yields_text⟩
  refine hkey.seq fun k _ => (yields_mark _).seq fun _ _ => hr.expr.seq fun e he => ?_
  exact yields_pure he

theorem objectLiteral : Yields Expr.Proper r.objectLiteral := by
  refine (yields_mark _).seq fun _ _ => ?_
  refine (hr.field.sepBy (yields_mark _) _).seq fun fs hfs => ?_
  refine (yields_mark _).optional.seq fun _ _ => (yields_mark _).seq fun _ _ => ?_
  exact yields_pure (fieldsProper_iff.2 hfs)

theorem primary : Yields Expr.Proper r.primary := by
  refine yields_choice ?_
  simp only [List.mem_cons, List.not_mem_nil, or_false, forall_eq_or_imp, forall_eq]
  refine ⟨?_, ?_, ?_, ?_, ?_, ?_, hr.functionLiteral, ?_, hr.parenthesized, hr.arrayLiteral,
    hr.objectLiteral⟩
  · exact yields_number.seq fun x hx => yields_pure hx
  · exact yields_text.seq fun _ _ => yields_pure trivial
  · exact (yields_word _).seq fun _ _ => yields_pure trivial
  · exact (yields_word _).seq fun _ _ => yields_pure trivial
  · exact (yields_word _).seq fun _ _ => yields_pure trivial
  · exact (yields_word _).seq fun _ _ => yields_pure trivial
  · exact (yields_name _).seq fun x hx => yields_pure hx

theorem suffixForm :
    Yields (fun f => ∀ e : Expr, e.Proper → (f e).Proper) r.suffixForm := by
  refine yields_choice ?_
  simp only [List.mem_cons, List.not_mem_nil, or_false, forall_eq_or_imp, forall_eq]
  refine ⟨?_, ?_, ?_⟩
  · refine (yields_mark _).seq fun _ _ => ?_
    refine (hr.expr.sepBy (yields_mark _) _).seq fun args hargs => ?_
    refine (yields_mark _).seq fun _ _ => yields_pure fun e he => ?_
    exact ⟨he, exprsProper_iff.2 hargs⟩
  · refine (yields_mark _).seq fun _ _ => (yields_name _).seq fun x _ => ?_
    exact yields_pure fun e he => ⟨he, trivial⟩
  · refine (yields_mark _).seq fun _ _ => hr.expr.seq fun i hi => ?_
    exact (yields_mark _).seq fun _ _ => yields_pure fun e he => ⟨he, hi⟩

theorem suffixed : Yields Expr.Proper r.suffixed := by
  refine hr.primary.seq fun e he => (hr.suffixForm.many _).seq fun forms hforms => ?_
  refine yields_pure ?_
  induction forms generalizing e with
  | nil => exact he
  | cons f forms ih =>
    exact ih (f e) (hforms f List.mem_cons_self e he) fun g hg =>
      hforms g (List.mem_cons_of_mem f hg)

theorem unaryRule : Yields Expr.Proper r.unaryRule := by
  refine yields_choice ?_
  simp only [List.mem_cons, List.not_mem_nil, or_false, forall_eq_or_imp, forall_eq]
  refine ⟨?_, ?_, ?_, hr.suffixed⟩
  all_goals exact (yields_mark _).seq fun _ _ => hr.unary.seq fun e he => yields_pure he

omit hr in
theorem chain {ops : List (Mark × (Expr → Expr → Expr))} {operand : Parser Expr} (bound : Nat)
    (hops : ∀ op ∈ ops, ∀ x y : Expr, x.Proper → y.Proper → (op.2 x y).Proper)
    (hoperand : Yields Expr.Proper operand) :
    Yields Expr.Proper (Rules.chain ops operand bound) := by
  have hoperator : Yields (fun f => ∀ x y : Expr, x.Proper → y.Proper → (f x y).Proper)
      (Rules.operator ops) := by
    refine yields_choice fun p hp => ?_
    obtain ⟨op, hop, rfl⟩ := List.mem_map.1 hp
    exact (yields_mark _).seq fun _ _ => yields_pure (hops op hop)
  have hmore : Yields
      (fun q : (Expr → Expr → Expr) × Expr => ∀ x : Expr, x.Proper → (q.1 x q.2).Proper)
      (do let f ← Rules.operator ops
          let e ← operand
          return (f, e)) :=
    hoperator.seq fun f hf => hoperand.seq fun e he => yields_pure fun x hx => hf x e hx he
  refine hoperand.seq fun first hfirst => (hmore.many bound).seq fun more hmore => ?_
  refine yields_pure ?_
  induction more generalizing first with
  | nil => exact hfirst
  | cons q more ih =>
    exact ih _ (hmore q List.mem_cons_self first hfirst) fun g hg =>
      hmore g (List.mem_cons_of_mem q hg)

theorem binary : Yields Expr.Proper r.binary := by
  have hlevels : ∀ ops ∈ Rules.levels, ∀ op ∈ ops, ∀ x y : Expr,
      x.Proper → y.Proper → (op.2 x y).Proper := by
    intro ops hops op hop x y hx hy
    simp only [Rules.levels, List.mem_cons, List.not_mem_nil, or_false] at hops
    rcases hops with rfl | rfl | rfl | rfl | rfl | rfl <;>
      simp only [List.mem_cons, List.not_mem_nil, or_false] at hop <;>
      rcases hop with rfl | rfl | rfl | rfl <;> exact ⟨hx, hy⟩
  have hfold : ∀ levels : List (List (Mark × (Expr → Expr → Expr))),
      (∀ ops ∈ levels, ops ∈ Rules.levels) →
      Yields Expr.Proper
        (levels.foldr (fun ops operand => Rules.chain ops operand r.bound) r.unary) := by
    intro levels hsub
    induction levels with
    | nil => exact hr.unary
    | cons ops levels ih =>
      refine chain _ (hlevels ops (hsub ops List.mem_cons_self)) (ih fun o ho => ?_)
      exact hsub o (List.mem_cons_of_mem ops ho)
  exact hfold _ fun _ h => h

theorem conditional : Yields Expr.Proper r.conditional := by
  refine hr.binary.seq fun test htest => ?_
  have harms : Yields (fun p : Expr × Expr => p.1.Proper ∧ p.2.Proper)
      (do mark .question
          let c ← r.expr
          mark .colon
          let a ← r.expr
          return (c, a)) := by
    refine (yields_mark _).seq fun _ _ => hr.expr.seq fun c hc => ?_
    exact (yields_mark _).seq fun _ _ => hr.expr.seq fun a ha => yields_pure ⟨hc, ha⟩
  refine harms.optional.seq fun arms harms => ?_
  cases arms with
  | none => exact yields_pure htest
  | some p =>
    obtain ⟨hc, ha⟩ := harms p rfl
    exact yields_pure ⟨htest, hc, ha⟩

theorem exprRule : Yields Expr.Proper r.exprRule := by
  refine hr.conditional.seq fun target htarget => ?_
  have hvalue : Yields Expr.Proper (do mark .assign; r.expr) :=
    (yields_mark _).seq fun _ _ => hr.expr
  refine hvalue.optional.seq fun value hvalue => ?_
  cases value with
  | none => exact yields_pure htarget
  | some v =>
    dsimp only
    split_ifs with hstore
    · refine yields_pure ⟨?_, htarget, hvalue v rfl⟩
      unfold Rules.isStoreProperty at hstore
      split at hstore
      · have hx := of_decide_eq_true hstore
        exact hx
      · cases hstore
    · exact yields_fail

theorem declarator : Yields (fun d => isName d.1 ∧ d.2.Proper) r.declarator := by
  refine (yields_name _).seq fun x hx => ?_
  have hinit : Yields Expr.Proper (do mark .assign; r.expr) :=
    (yields_mark _).seq fun _ _ => hr.expr
  refine hinit.optional.seq fun init hinit => yields_pure ⟨hx, ?_⟩
  cases init with
  | none => trivial
  | some e => exact hinit e rfl

theorem branch : Yields StmtsProper r.branch := by
  refine yields_choice ?_
  simp only [List.mem_cons, List.not_mem_nil, or_false, forall_eq_or_imp, forall_eq]
  exact ⟨hr.block, hr.stmt.seq fun s hs => yields_pure ⟨hs, trivial⟩⟩

theorem declaration : Yields Stmt.Proper r.declaration := by
  have hword : Yields (fun _ => True) Rules.declaratorWord := yields_token fun _ _ _ _ => trivial
  refine hword.seq fun _ _ => (hr.declarator.sepBy1 (yields_mark _) _).seq fun ds hds => ?_
  refine (yields_mark _).optional.seq fun _ _ => yields_pure ⟨hds.1, ?_, ?_⟩
  · exact fun d hd => (hds.2 d hd).1
  · exact fieldsProper_iff.2 fun d hd => (hds.2 d hd).2

theorem functionStmt : Yields Stmt.Proper r.functionStmt := by
  refine (yields_word _).seq fun _ _ => (yields_name _).seq fun f hf => ?_
  refine hr.functionRest.seq fun p hp => (yields_mark _).optional.seq fun _ _ => ?_
  refine yields_pure ⟨nofun, ?_, ⟨?_, hp.1, hp.2⟩, trivial⟩
  · intro d hd
    rw [List.mem_singleton.1 hd]
    exact hf
  · rintro _ ⟨⟩
    exact hf

theorem ifStmt : Yields Stmt.Proper r.ifStmt := by
  refine (yields_word _).seq fun _ _ => (yields_mark _).seq fun _ _ => ?_
  refine hr.expr.seq fun test htest => (yields_mark _).seq fun _ _ => ?_
  have helse : Yields StmtsProper (do word .elseWord; r.branch) :=
    (yields_word _).seq fun _ _ => hr.branch
  refine hr.branch.seq fun c hc => helse.optional.seq fun a ha => ?_
  refine yields_pure ⟨htest, hc, ?_⟩
  cases a with
  | none => trivial
  | some body => exact ha body rfl

theorem returnStmt : Yields Stmt.Proper r.returnStmt := by
  refine (yields_word _).seq fun _ _ => hr.expr.optional.seq fun e he => ?_
  refine (yields_mark _).optional.seq fun _ _ => yields_pure ?_
  cases e with
  | none => trivial
  | some e => exact he e rfl

theorem stmtRule : Yields Stmt.Proper r.stmtRule := by
  refine yields_choice ?_
  simp only [List.mem_cons, List.not_mem_nil, or_false, forall_eq_or_imp, forall_eq]
  refine ⟨?_, hr.declaration, hr.functionStmt, hr.ifStmt, hr.returnStmt, ?_, ?_⟩
  · exact hr.block.seq fun body hbody => yields_pure hbody
  · exact (yields_mark _).seq fun _ _ => yields_pure trivial
  · exact hr.expr.seq fun e he => (yields_mark _).optional.seq fun _ _ => yields_pure he

end Rules.Proper

theorem rules_proper (depth : Nat) : (rules depth).Proper := by
  induction depth with
  | zero => exact ⟨yields_fail, yields_fail, yields_fail⟩
  | succ depth ih => exact ⟨ih.stmtRule, ih.exprRule, ih.unaryRule⟩

theorem program_proper {body : List Stmt} (ht : ∀ t ∈ tokens, t.Proper)
    (h : program tokens = .ok body) : StmtsProper body :=
  stmtsProper_iff.2 (((rules_proper _).stmt.many _).whole ht h)

theorem expression_proper {e : Expr} (ht : ∀ t ∈ tokens, t.Proper) (h : expression tokens = .ok e) :
    e.Proper :=
  (rules_proper _).expr.whole ht h

end Grammar

/-! ## Texts -/

theorem Token.ofName_proper (hc : isNameStart c) (hcs : cs.all isNamePart) :
    (Token.ofName (String.ofList (c :: cs))).Proper := by
  unfold Token.ofName
  split
  · trivial
  · rename_i hnone
    simp only [Token.Proper, isName, String.toList_ofList, hc, hcs, hnone, Option.isNone_none,
      Bool.and_self]

theorem Lexer.front_proper {text rest : List Char} {t : Token}
    (h : Lexer.front c cs = .token t text rest) : t.Proper := by
  unfold Lexer.front at h
  split_ifs at h with _ hname
  · cases h
    exact Token.ofName_proper hname (List.all_takeWhile)
  · dsimp only at h
    split at h <;> cases h
    trivial
  · split at h
    · cases h
    · split at h <;> cases h
    · dsimp only at h
      split at h
      · cases h
        exact Decimal.isMagnitude_nearest _ _
      · split at h <;> cases h
        trivial

theorem Lexer.lexemesFrom_proper {fuel offset : Nat} {ls : List Lexeme}
    (h : Lexer.lexemesFrom fuel offset cs = .ok ls) : ∀ l ∈ ls, l.token.Proper := by
  induction fuel generalizing offset cs ls with
  | zero =>
    cases cs with
    | nil =>
      cases h
      exact nofun
    | cons c cs => cases h
  | succ fuel ih =>
    cases cs with
    | nil =>
      cases h
      exact nofun
    | cons c cs =>
      simp only [lexemesFrom] at h
      split at h
      · exact ih h
      · rename_i t text rest hfront
        cases hrest : lexemesFrom fuel (offset + Text.byteLength text) rest with
        | error f =>
          rw [hrest] at h
          cases h
        | ok more =>
          rw [hrest] at h
          cases h
          intro l hl
          rcases List.mem_cons.1 hl with rfl | hl
          · exact front_proper hfront
          · exact ih hrest l hl
      · cases h

theorem readWith_proper {α : Type} {P : α → Prop} {rule : List Token → Except Trouble α}
    (hrule : ∀ tokens a, (∀ t ∈ tokens, t.Proper) → rule tokens = .ok a → P a) {a : α}
    (h : readWith rule source = .ok a) : P a := by
  simp only [readWith] at h
  split at h
  · cases h
  · rename_i ls hls
    split at h
    · rename_i b hb
      cases h
      refine hrule _ _ ?_ hb
      intro t ht
      obtain ⟨l, hl, rfl⟩ := List.mem_map.1 ht
      exact Lexer.lexemesFrom_proper hls l hl
    · cases h

theorem Program.parse_proper {p : Program} (h : Program.parse source = .ok p) :
    StmtsProper p.body := by
  unfold Program.parse at h
  cases hread : readWith Grammar.program source with
  | error e =>
    rw [hread] at h
    cases h
  | ok body =>
    rw [hread] at h
    cases h
    exact readWith_proper (fun _ _ => Grammar.program_proper) hread

theorem Expr.parse_proper {e : Expr} (h : Expr.parse source = .ok e) : e.Proper :=
  readWith_proper (fun _ _ => Grammar.expression_proper) h

end Chance
