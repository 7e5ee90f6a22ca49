import Chance.Program.Basic
import Chance.Grammar.Parser

/-!
# Grammar rules

Statements, expressions and prefix operators refer to each other and to themselves. A `Rules`
record holds parsers for these three; each rule below builds its parser from such a record, and
`rules` closes the circle to any wanted depth of nesting.
-/

namespace Chance.Grammar

open Chance.Parser

/-- Parsers for what may be nested, and a bound on repetitions. -/
structure Rules where
  stmt : Parser Stmt
  expr : Parser Expr
  /-- An operand of the infix operators: prefix operators before a postfix form. -/
  unary : Parser Expr
  bound : Nat

namespace Rules

variable (r : Rules)

def comma : Parser Unit := mark .comma

/-- Statements between braces. -/
def block : Parser (List Stmt) := do
  mark .lbrace
  let body ← many r.stmt r.bound
  mark .rbrace
  return body

/-- The parameters and the body of a function. -/
def functionRest : Parser (List String × List Stmt) := do
  mark .lparen
  let params ← sepBy (name .parameter) comma r.bound
  mark .rparen
  let body ← r.block
  return (params, body)

/-- An object key: a name or a text. -/
def key : Parser String :=
  choice [name .key, text]

def field : Parser (String × Expr) := do
  let k ← key
  mark .colon
  let e ← r.expr
  return (k, e)

def functionLiteral : Parser Expr := do
  word .functionWord
  let f ← optional (name .functionLiteral)
  let (params, body) ← r.functionRest
  return .func f params body

def parenthesized : Parser Expr := do
  mark .lparen
  let e ← r.expr
  mark .rparen
  return e

def arrayLiteral : Parser Expr := do
  mark .lbracket
  let es ← sepBy r.expr comma r.bound
  let _ ← optional comma
  mark .rbracket
  return .array es

def objectLiteral : Parser Expr := do
  mark .lbrace
  let fs ← sepBy r.field comma r.bound
  let _ ← optional comma
  mark .rbrace
  return .object fs

def primary : Parser Expr :=
  choice
    [ do let x ← number; return .num x,
      do let s ← text; return .str s,
      do word .trueWord; return .bool true,
      do word .falseWord; return .bool false,
      do word .nullWord; return .null,
      do word .undefinedWord; return .undefined,
      r.functionLiteral,
      do let x ← name .variable; return .var x,
      r.parenthesized,
      r.arrayLiteral,
      r.objectLiteral ]

/-- What may follow a primary form, as the change it makes to the form before it. -/
def suffixForm : Parser (Expr → Expr) :=
  choice
    [ do
        mark .lparen
        let args ← sepBy r.expr comma r.bound
        mark .rparen
        return fun e => .call e args,
      do
        mark .dot
        let x ← name .property
        return fun e => .member e (.str x),
      do
        mark .lbracket
        let i ← r.expr
        mark .rbracket
        return fun e => .member e i ]

def suffixed : Parser Expr := do
  let e ← r.primary
  let forms ← many r.suffixForm r.bound
  return forms.foldl (fun e f => f e) e

def unaryRule : Parser Expr :=
  choice
    [ do mark .minus; let e ← r.unary; return .unary .negate e,
      do mark .plus; let e ← r.unary; return .unary .plus e,
      do mark .bang; let e ← r.unary; return .unary .not e,
      r.suffixed ]

/-- The infix operators by level, from the loosest to the tightest. -/
def levels : List (List (Mark × (Expr → Expr → Expr))) :=
  [ [(.orOr, fun x y => .logic x y .or)],
    [(.andAnd, fun x y => .logic x y .and)],
    [ (.eqEq, fun x y => .binary x y .eq),
      (.notEq, fun x y => .binary x y .ne),
      (.eqEqEq, fun x y => .binary x y .strictEq),
      (.notEqEq, fun x y => .binary x y .strictNe) ],
    [ (.lt, fun x y => .binary x y .lt),
      (.leq, fun x y => .binary x y .le),
      (.gt, fun x y => .binary x y .gt),
      (.geq, fun x y => .binary x y .ge) ],
    [ (.plus, fun x y => .binary x y .add),
      (.minus, fun x y => .binary x y .sub) ],
    [ (.star, fun x y => .binary x y .mul),
      (.slash, fun x y => .binary x y .div),
      (.percent, fun x y => .binary x y .mod) ] ]

/-- One of the operators of a level. -/
def operator (ops : List (Mark × (Expr → Expr → Expr))) : Parser (Expr → Expr → Expr) :=
  choice (ops.map fun (m, f) => do mark m; return f)

/-- Operands joined by the operators of one level, grouped from the left. -/
def chain (ops : List (Mark × (Expr → Expr → Expr))) (operand : Parser Expr) (bound : Nat) :
    Parser Expr := do
  let first ← operand
  let more ← many (do let f ← operator ops; let e ← operand; return (f, e)) bound
  return more.foldl (fun acc (f, e) => f acc e) first

def binary : Parser Expr :=
  levels.foldr (fun ops operand => chain ops operand r.bound) r.unary

def conditional : Parser Expr := do
  let test ← r.binary
  let arms ← optional do
    mark .question
    let c ← r.expr
    mark .colon
    let a ← r.expr
    return (c, a)
  match arms with
  | some (c, a) => return .cond test c a
  | none => return test

/-- Whether an expression is a property of the store, the only thing that can be assigned. -/
def isStoreProperty : Expr → Bool
  | .member (.var x) _ => x = Expr.storeName
  | _ => false

/-- Targets are read as ordinary expressions and judged once the assigned value has been read. -/
def exprRule : Parser Expr := do
  let target ← r.conditional
  let value ← optional do
    mark .assign
    r.expr
  match value with
  | none => return target
  | some value =>
    if isStoreProperty target then return .assign target value else reject .storeProperty

def declarator : Parser (String × Expr) := do
  let x ← name .declared
  let init ← optional do
    mark .assign
    r.expr
  return (x, init.getD .undefined)

/-- The words that begin a declaration; they all mean the same. -/
def declaratorWord : Parser Unit :=
  token .declarator fun t =>
    if t = .word .varWord ∨ t = .word .letWord ∨ t = .word .constWord then some () else none

/-- An arm of a conditional statement. -/
def branch : Parser (List Stmt) :=
  choice [r.block, do let s ← r.stmt; return [s]]

def semi : Parser Unit := mark .semi

def declaration : Parser Stmt := do
  declaratorWord
  let ds ← sepBy1 r.declarator comma r.bound
  let _ ← optional semi
  return .declare ds

/-- A function statement declares a variable of the function's name. -/
def functionStmt : Parser Stmt := do
  word .functionWord
  let f ← name .function
  let (params, body) ← r.functionRest
  let _ ← optional semi
  return .declare [(f, .func (some f) params body)]

def ifStmt : Parser Stmt := do
  word .ifWord
  mark .lparen
  let test ← r.expr
  mark .rparen
  let c ← r.branch
  let a ← optional do
    word .elseWord
    r.branch
  return .ifElse test c (a.getD [])

def returnStmt : Parser Stmt := do
  word .returnWord
  let e ← optional r.expr
  let _ ← optional semi
  return .ret (e.getD .undefined)

def stmtRule : Parser Stmt :=
  choice
    [ do let body ← r.block; return .block body,
      r.declaration,
      r.functionStmt,
      r.ifStmt,
      r.returnStmt,
      do semi; return .empty,
      do
        let e ← r.expr
        let _ ← optional semi
        return .expr e ]

end Rules

/-- The rules for nesting up to the given depth. -/
def rules : Nat → Rules
  | 0 =>
    { stmt := fun _ => ⟨none, .none⟩
      expr := fun _ => ⟨none, .none⟩
      unary := fun _ => ⟨none, .none⟩
      bound := 0 }
  | depth + 1 =>
    let inner := rules depth
    { stmt := inner.stmtRule
      expr := inner.exprRule
      unary := inner.unaryRule
      bound := depth + 1 }

/-- A depth that the given number of tokens cannot exceed: between one token and the next at most a
statement, an expression and an operand are entered. -/
def depthFor (tokens : List Token) : Nat :=
  4 * (tokens.length + 1)

/-- The statements of a program. -/
def program (tokens : List Token) : Except Trouble (List Stmt) :=
  let r := rules (depthFor tokens)
  (many r.stmt r.bound).whole tokens

/-- A single expression. -/
def expression (tokens : List Token) : Except Trouble Expr :=
  (rules (depthFor tokens)).expr.whole tokens

end Chance.Grammar
