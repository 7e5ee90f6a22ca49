import Chance.Program.Basic
import Chance.Token.Basic
import Chance.Text.Quoted
import Chance.Decimal.Style
import Chance.Layout

/-!
# Printing programs

A printed program reads back as the program it was printed from. Operands are put in parentheses
unless they are simple; an expression statement may not open with a brace or the word `function`.
-/

namespace Chance.Printer

/-- Items separated by a comma and a possible line end. -/
def commaList (items : List Doc) : Doc :=
  Doc.intersperse (.text "," ++ .space) items

/-- A bracketed list, on one line or with its items indented. -/
def inBrackets (opening : String) (inner : Doc) (closing : String) : Doc :=
  .group (.text opening ++ .nest 2 (.gap ++ inner) ++ .gap ++ .text closing)

/-- Expressions that need no parentheses as operands. -/
def isSimple : Expr → Bool
  | .num x => x ≥ 0 && x.isFinite
  | .str _ | .bool _ | .null | .undefined | .var _ | .array _ | .object _ | .member .. | .call .. =>
    true
  | _ => false

/-- Expressions whose text opens with a brace or the word `function`. -/
def opensLikeStmt : Expr → Bool
  | .object _ => true
  | .func .. => true
  | .member e _ => isSimple e && opensLikeStmt e
  | .call e _ => isSimple e && opensLikeStmt e
  | .binary e _ _ => isSimple e && opensLikeStmt e
  | .logic e _ _ => isSimple e && opensLikeStmt e
  | .cond e _ _ => isSimple e && opensLikeStmt e
  | .assign e _ => isSimple e && opensLikeStmt e
  | _ => false

def key (k : String) : Doc :=
  .text (if isName k then k else Text.literal k)

/-- Puts an operand in parentheses where it needs them; `d` is the document of `e`. -/
def operand (e : Expr) (d : Doc) : Doc :=
  if isSimple e then d else .text "(" ++ d ++ .text ")"

/-- Two operands around an operator. -/
def joined (left right : Doc) (symbol : String) : Doc :=
  .group (left ++ .text (" " ++ symbol) ++ .nest 2 (.space ++ right))

/-- A property access; `p` is the document of the property. -/
def access (object : Doc) (property : Expr) (p : Doc) : Doc :=
  let computed := object ++ .text "[" ++ p ++ .text "]"
  match property with
  | .str x => if isName x then object ++ .text ("." ++ x) else computed
  | _ => computed

/-- Statements between braces. -/
def braces (body : List Doc) : Doc :=
  if body.isEmpty then .text "\x7b\x7d"
  else .group (.text "\x7b" ++ .nest 2 (.space ++ Doc.intersperse .space body) ++ .space
    ++ .text "\x7d")

def function (name : Option String) (params : List String) (body : List Doc) : Doc :=
  let name :=
    match name with
    | some x => .text " " ++ .text x
    | none => .nil
  .text "function" ++ name ++ .text "(" ++ Doc.intersperse (.text ", ") (params.map .text)
    ++ .text ") " ++ braces body

mutual

def expr : Expr → Doc
  | .num x => .text (Decimal.Style.source.write x)
  | .str s => .text (Text.literal s)
  | .bool b => .text (if b then "true" else "false")
  | .null => .text "null"
  | .undefined => .text "undefined"
  | .var x => .text x
  | .array es => inBrackets "[" (commaList (exprs es)) "]"
  | .object fs => inBrackets "\x7b" (commaList (fields fs)) "\x7d"
  | .unary op e => .text op.symbol ++ operand e (expr e)
  | .binary l r op => joined (operand l (expr l)) (operand r (expr r)) op.symbol
  | .logic l r op => joined (operand l (expr l)) (operand r (expr r)) op.symbol
  | .cond t c a =>
    .group (operand t (expr t)
      ++ .nest 2 (.space ++ .text "? " ++ expr c ++ .space ++ .text ": " ++ expr a))
  | .member o p => access (operand o (expr o)) p (expr p)
  | .call f es => operand f (expr f) ++ inBrackets "(" (commaList (exprs es)) ")"
  | .func n ps b => function n ps (stmts b)
  | .assign t v => expr t ++ .text " = " ++ expr v
termination_by structural e => e

def exprs : List Expr → List Doc
  | [] => []
  | e :: es => expr e :: exprs es
termination_by structural es => es

def fields : List (String × Expr) → List Doc
  | [] => []
  | (k, e) :: fs => (key k ++ .text ": " ++ expr e) :: fields fs
termination_by structural fs => fs

def bindings : List (String × Expr) → List Doc
  | [] => []
  | (x, e) :: ds => (.text x ++ .text " = " ++ expr e) :: bindings ds
termination_by structural ds => ds

def stmt : Stmt → Doc
  | .empty => .text ";"
  | .expr e => if opensLikeStmt e then .text "(" ++ expr e ++ .text ");" else expr e ++ .text ";"
  | .declare ds => .text "var " ++ .nest 4 (commaList (bindings ds)) ++ .text ";"
  | .ifElse t c a =>
    let head := .text "if (" ++ expr t ++ .text ") " ++ braces (stmts c)
    if a.isEmpty then head else head ++ .text " else " ++ braces (stmts a)
  | .ret e => .text "return " ++ expr e ++ .text ";"
  | .block b => braces (stmts b)
termination_by structural s => s

def stmts : List Stmt → List Doc
  | [] => []
  | s :: ss => stmt s :: stmts ss
termination_by structural ss => ss

end

end Chance.Printer

namespace Chance

/-- The text of a program within the given width. -/
def Program.pretty (p : Program) (width : Nat) : String :=
  (Doc.intersperse .space (Printer.stmts p.body)).render width

/-- The text of an expression within the given width. -/
def Expr.pretty (e : Expr) (width : Nat) : String :=
  (Printer.expr e).render width

end Chance
