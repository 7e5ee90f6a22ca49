import Chance.Proofs.Printing.Rereading
import Chance.Proofs.Syntax.Compiled

/-!
# Printing and reading

A printed program, or expression, reads back as the tree it was printed from. The one exception are
numerals beyond the range of doubles: they are infinite numbers in the tree, and these come back
under their name.

- `Lexer.Reads.readWith`: reading a text whose tokens are known,
- `Program.parse_pretty`, `Expr.parse_pretty`: proper trees come back,
- `rereadStmts_of_finite`: trees without infinite numbers come back as they are,
- `printed_text_reads_back`: the trees that texts denote, and compiled programs.
-/

namespace Chance

/-! ## From tokens to texts -/

variable {α : Type} {source : String}

theorem readWith_of_lexemes {rule : List Token → Except Trouble α} {ls : List Lexeme} {a : α}
    (hls : Lexer.lexemes source.toList = .ok ls) (hrule : rule (ls.map Lexeme.token) = .ok a) :
    readWith rule source = .ok a := by
  simp only [readWith, hls, hrule]

theorem Lexer.Reads.readWith {rule : List Token → Except Trouble α} {ts : List Token} {a : α}
    (h : Reads source.toList ts) (hrule : rule ts = .ok a) : readWith rule source = .ok a := by
  obtain ⟨ls, hls, rfl⟩ := h.lexemes
  exact readWith_of_lexemes hls hrule

namespace Grammar

open Chance.Parser

theorem Takes.whole {α : Type} {p : Parser α} {ts : List Token} {a : α} (h : Takes p ts a []) :
    p.whole ts = .ok a := by
  obtain ⟨i, hi⟩ := h 0
  simp only [Parser.whole, hi]

theorem program_stmtsTokens {ss : List Stmt} (h : StmtsProper ss) :
    program (Printer.stmtsTokens false ss) = .ok (rereadStmts ss) := by
  have htaken : ReadableStmts (Printer.stmtsTokens false ss) (rereadStmts ss) :=
    stmts_taken ss h nofun
  have hlength := htaken.length_le
  refine Takes.whole ?_
  have hall : Takes (many (rules (depthFor (Printer.stmtsTokens false ss))).stmt
      (depthFor (Printer.stmtsTokens false ss))) (Printer.stmtsTokens false ss ++ [])
      (rereadStmts ss) [] :=
    htaken.takes (by unfold depthFor; omega) (by unfold depthFor; omega) (refuses_stmt_nil _) nofun
  rwa [List.append_nil] at hall

theorem expression_exprTokens {e : Expr} {bare : Bool} (h : e.Proper)
    (hn : bare = true → e.Nested) :
    expression (Printer.exprTokens bare e) = .ok (bif bare then e else e.reread) := by
  refine Takes.whole ?_
  have hall := (expr_taken e h hn).readable.takes (d := depthFor (Printer.exprTokens bare e))
    (by unfold depthFor; omega) ends_nil
  rwa [List.append_nil] at hall

end Grammar

/-- A proper program comes back from its printed text, provided its finite numbers do. -/
theorem Program.parse_pretty {p : Program} (hp : StmtsProper p.body)
    (hn : ∀ x ∈ stmtsNumbers p.body, x.isInf = false → Number.ReadsBack x) (width : Nat) :
    Program.parse (p.pretty width) = .ok ⟨rereadStmts p.body⟩ := by
  have hread := (Printer.reads_program hp hn width).readWith (Grammar.program_stmtsTokens hp)
  rw [Program.parse, hread]
  rfl

theorem Expr.parse_pretty {e : Expr} (hp : e.Proper)
    (hn : ∀ x ∈ e.numbers, x.isInf = false → Number.ReadsBack x) (width : Nat) :
    Expr.parse (e.pretty width) = .ok e.reread :=
  (Printer.reads_expr hp hn width).readWith (Grammar.expression_exprTokens hp nofun)

/-! ## Trees without infinite numbers -/

mutual

theorem reread_of_finite : (e : Expr) → (∀ x ∈ e.numbers, x.isInf = false) → e.reread = e
  | .num x, h => by
    have hx : x.isInf = false := h x (List.mem_singleton.2 rfl)
    rw [Expr.reread, hx]
    rfl
  | .array es, h => congrArg Expr.array (rereadExprs_of_finite es h)
  | .object fs, h => congrArg Expr.object (rereadFields_of_finite fs h)
  | .unary op e, h => congrArg (Expr.unary op) (reread_of_finite e h)
  | .binary l r op, h => by
    obtain ⟨hl, hr⟩ := List.forall_mem_append.1 h
    rw [Expr.reread, reread_of_finite l hl, reread_of_finite r hr]
  | .logic l r op, h => by
    obtain ⟨hl, hr⟩ := List.forall_mem_append.1 h
    rw [Expr.reread, reread_of_finite l hl, reread_of_finite r hr]
  | .cond t c a, h => by
    obtain ⟨ht, h⟩ := List.forall_mem_append.1 h
    obtain ⟨hc, ha⟩ := List.forall_mem_append.1 h
    rw [Expr.reread, reread_of_finite t ht, reread_of_finite c hc, reread_of_finite a ha]
  | .member o p, h => by
    obtain ⟨ho, hp⟩ := List.forall_mem_append.1 h
    rw [Expr.reread, reread_of_finite o ho, reread_of_finite p hp]
  | .call f es, h => by
    obtain ⟨hf, hes⟩ := List.forall_mem_append.1 h
    rw [Expr.reread, reread_of_finite f hf, rereadExprs_of_finite es hes]
  | .func n ps b, h => congrArg (Expr.func n ps) (rereadStmts_of_finite b h)
  | .assign t v, h => by
    obtain ⟨ht, hv⟩ := List.forall_mem_append.1 h
    rw [Expr.reread, reread_of_finite t ht, reread_of_finite v hv]
  | .str _, _ | .bool _, _ | .null, _ | .undefined, _ | .var _, _ => rfl

theorem rereadExprs_of_finite :
    (es : List Expr) → (∀ x ∈ exprsNumbers es, x.isInf = false) → rereadExprs es = es
  | [], _ => rfl
  | e :: es, h => by
    obtain ⟨he, hes⟩ := List.forall_mem_append.1 h
    rw [rereadExprs, reread_of_finite e he, rereadExprs_of_finite es hes]

theorem rereadFields_of_finite :
    (fs : List (String × Expr)) → (∀ x ∈ fieldsNumbers fs, x.isInf = false) → rereadFields fs = fs
  | [], _ => rfl
  | (k, e) :: fs, h => by
    obtain ⟨he, hfs⟩ := List.forall_mem_append.1 h
    rw [rereadFields, reread_of_finite e he, rereadFields_of_finite fs hfs]

theorem stmt_reread_of_finite : (s : Stmt) → (∀ x ∈ s.numbers, x.isInf = false) → s.reread = s
  | .empty, _ => rfl
  | .expr e, h => congrArg Stmt.expr (reread_of_finite e h)
  | .declare ds, h => congrArg Stmt.declare (rereadFields_of_finite ds h)
  | .ifElse t c a, h => by
    obtain ⟨ht, h⟩ := List.forall_mem_append.1 h
    obtain ⟨hc, ha⟩ := List.forall_mem_append.1 h
    rw [Stmt.reread, reread_of_finite t ht, rereadStmts_of_finite c hc, rereadStmts_of_finite a ha]
  | .ret e, h => congrArg Stmt.ret (reread_of_finite e h)
  | .block b, h => congrArg Stmt.block (rereadStmts_of_finite b h)

theorem rereadStmts_of_finite :
    (ss : List Stmt) → (∀ x ∈ stmtsNumbers ss, x.isInf = false) → rereadStmts ss = ss
  | [], _ => rfl
  | s :: ss, h => by
    obtain ⟨hs, hss⟩ := List.forall_mem_append.1 h
    rw [rereadStmts, stmt_reread_of_finite s hs, rereadStmts_of_finite ss hss]

end

/-! ## Texts -/

/-- Printing a program that a text denotes, or that compiling a text gives, and reading the result
gives the program back at every width, and likewise for expressions: the tree is the same but for
infinite numbers, which come back under the name `Infinity`. What is assumed of the finite numbers
in the tree is that they read back from their own text. -/
theorem printed_text_reads_back (source : String) (width : Nat) :
    (∀ p : Program,
      (Program.parse source = .ok p ∨ ∃ withPrelude, compileSource source withPrelude = .ok p) →
      (∀ x ∈ stmtsNumbers p.body, x.isInf = false → Number.ReadsBack x) →
      Program.parse (p.pretty width) = .ok ⟨rereadStmts p.body⟩ ∧
        ((∀ x ∈ stmtsNumbers p.body, x.isInf = false) →
          Program.parse (p.pretty width) = .ok p)) ∧
    (∀ e : Expr, Expr.parse source = .ok e →
      (∀ x ∈ e.numbers, x.isInf = false → Number.ReadsBack x) →
      Expr.parse (e.pretty width) = .ok e.reread ∧
        ((∀ x ∈ e.numbers, x.isInf = false) → Expr.parse (e.pretty width) = .ok e)) := by
  constructor
  · intro p hp hn
    have hproper : StmtsProper p.body := by
      rcases hp with hp | ⟨withPrelude, hp⟩
      · exact Program.parse_proper hp
      · obtain ⟨name, params, body, hbody, -, hfunc⟩ := compileSource_isConverted hp
        rw [hbody]
        exact ⟨hfunc, trivial⟩
    have hback := Program.parse_pretty hproper hn width
    refine ⟨hback, fun hfinite => ?_⟩
    rw [hback, rereadStmts_of_finite p.body hfinite]
  · intro e he hn
    have hback := Expr.parse_pretty (Expr.parse_proper he) hn width
    refine ⟨hback, fun hfinite => ?_⟩
    rw [hback, reread_of_finite e hfinite]

/-- A source with a number that has no short binary form, and with one beyond all doubles. -/
def denseSource : String :=
  "(function(x) \x7b return \x7ba: [x, 0.1], 'b c': -x || !1e999\x7d; \x7d)(2)['a'] ? 1.5 : 3"

/-- The finite ones of some numbers read back. -/
def finiteReadBack (xs : List Float) : Bool :=
  xs.all fun x => x.isInf ||
    (Decimal.numeral? (Decimal.Style.source.write x).toList).map Decimal.Numeral.value = some x

theorem readsBack_of_finiteReadBack {xs : List Float} (h : finiteReadBack xs = true) :
    ∀ x ∈ xs, x.isInf = false → Number.ReadsBack x := by
  intro x hx hfinite
  simpa [hfinite, Number.ReadsBack] using List.all_eq_true.1 h x hx

/-- The text is a program that compiles, and an expression, and the numbers in all of these read
back. -/
def numbersReadBack (source : String) : Bool :=
  match Program.parse source, compileSource source false, Expr.parse source with
  | .ok p, .ok q, .ok e =>
    finiteReadBack (stmtsNumbers p.body) && finiteReadBack (stmtsNumbers q.body) &&
      finiteReadBack e.numbers
  | _, _, _ => false

theorem denseSource_reads_back :
    ∃ p q e, Program.parse denseSource = .ok p ∧ compileSource denseSource false = .ok q ∧
      Expr.parse denseSource = .ok e ∧
      Program.parse (p.pretty 20) = .ok ⟨rereadStmts p.body⟩ ∧
      Program.parse (q.pretty 20) = .ok ⟨rereadStmts q.body⟩ ∧
      Expr.parse (e.pretty 20) = .ok e.reread := by
  have hnumbers : numbersReadBack denseSource = true := by decide +kernel
  unfold numbersReadBack at hnumbers
  split at hnumbers
  · rename_i p q e hp hq he
    simp only [Bool.and_eq_true] at hnumbers
    obtain ⟨⟨hnp, hnq⟩, hne⟩ := hnumbers
    obtain ⟨hprogram, hexpr⟩ := printed_text_reads_back denseSource 20
    have hback := hprogram p (.inl hp) (readsBack_of_finiteReadBack hnp)
    have hback' := hprogram q (.inr ⟨false, hq⟩) (readsBack_of_finiteReadBack hnq)
    have hback'' := hexpr e he (readsBack_of_finiteReadBack hne)
    exact ⟨p, q, e, hp, hq, he, hback.1, hback'.1, hback''.1⟩
  · cases hnumbers

end Chance
