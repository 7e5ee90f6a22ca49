/-!
# Programs

The abstract form of the language: expressions, statements and programs. A static member name
(`a.b`) is a member with a string literal as its property; a computed one (`a[e]`) holds the
expression itself. Assignments have a property of the store as their target, which is for the
grammar to see to.
-/

namespace Chance

inductive UnaryOp where
  | negate
  | plus
  | not
deriving DecidableEq, Repr

inductive BinaryOp where
  | add
  | sub
  | mul
  | div
  | mod
  | lt
  | le
  | gt
  | ge
  | eq
  | ne
  | strictEq
  | strictNe
deriving DecidableEq, Repr

inductive LogicOp where
  | and
  | or
deriving DecidableEq, Repr

def UnaryOp.symbol : UnaryOp → String
  | .negate => "-"
  | .plus => "+"
  | .not => "!"

def BinaryOp.symbol : BinaryOp → String
  | .add => "+"
  | .sub => "-"
  | .mul => "*"
  | .div => "/"
  | .mod => "%"
  | .lt => "<"
  | .le => "<="
  | .gt => ">"
  | .ge => ">="
  | .eq => "=="
  | .ne => "!="
  | .strictEq => "==="
  | .strictNe => "!=="

def LogicOp.symbol : LogicOp → String
  | .and => "&&"
  | .or => "||"

mutual

inductive Expr where
  | num (x : Float)
  | str (s : String)
  | bool (b : Bool)
  | null
  | undefined
  | var (x : String)
  | array (elements : List Expr)
  | object (fields : List (String × Expr))
  | unary (op : UnaryOp) (e : Expr)
  | binary (left right : Expr) (op : BinaryOp)
  | logic (left right : Expr) (op : LogicOp)
  | cond (test consequent alternate : Expr)
  | member (object property : Expr)
  | call (callee : Expr) (args : List Expr)
  | func (name : Option String) (params : List String) (body : List Stmt)
  | assign (target value : Expr)

inductive Stmt where
  | empty
  | expr (e : Expr)
  | declare (bindings : List (String × Expr))
  | ifElse (test : Expr) (consequent alternate : List Stmt)
  | ret (e : Expr)
  | block (body : List Stmt)

end

deriving instance Inhabited for Expr, Stmt

structure Program where
  body : List Stmt
deriving Inhabited

namespace Expr

/-- A function whose body is the single expression statement `body`. -/
def lambda (params : List String) (body : Expr) : Expr :=
  .func none params [.expr body]

/-- The name under which programs read and write the store. -/
def storeName : String := "globalStore"

/-- Calls through a member of an identifier (`Math.log(x)`) or with a static property name
(`xs.concat(ys)`) are primitive: they run in place and see neither a continuation nor an address. -/
def isPrimitive : Expr → Bool
  | .member (.var _) _ => true
  | .member _ (.str _) => true
  | _ => false

end Expr

mutual

/-- Structural equality of expressions; numbers compare as doubles. -/
def Expr.same : Expr → Expr → Bool
  | .num x, .num y => x == y
  | .str s, .str t => s == t
  | .bool a, .bool b => a == b
  | .null, .null => true
  | .undefined, .undefined => true
  | .var x, .var y => x == y
  | .array es, .array fs => sameExprs es fs
  | .object es, .object fs => sameFields es fs
  | .unary op e, .unary op' e' => op = op' && e.same e'
  | .binary l r op, .binary l' r' op' => op = op' && l.same l' && r.same r'
  | .logic l r op, .logic l' r' op' => op = op' && l.same l' && r.same r'
  | .cond t c a, .cond t' c' a' => t.same t' && c.same c' && a.same a'
  | .member o p, .member o' p' => o.same o' && p.same p'
  | .call f es, .call g fs => f.same g && sameExprs es fs
  | .func n ps b, .func n' ps' b' => n == n' && ps == ps' && sameStmts b b'
  | .assign t v, .assign t' v' => t.same t' && v.same v'
  | _, _ => false
termination_by structural e => e

def sameExprs : List Expr → List Expr → Bool
  | [], [] => true
  | e :: es, f :: fs => e.same f && sameExprs es fs
  | _, _ => false
termination_by structural es => es

def sameFields : List (String × Expr) → List (String × Expr) → Bool
  | [], [] => true
  | (k, e) :: es, (l, f) :: fs => k == l && e.same f && sameFields es fs
  | _, _ => false
termination_by structural es => es

def Stmt.same : Stmt → Stmt → Bool
  | .empty, .empty => true
  | .expr e, .expr f => e.same f
  | .declare ds, .declare ds' => sameFields ds ds'
  | .ifElse t c a, .ifElse t' c' a' => t.same t' && sameStmts c c' && sameStmts a a'
  | .ret e, .ret f => e.same f
  | .block b, .block b' => sameStmts b b'
  | _, _ => false
termination_by structural s => s

def sameStmts : List Stmt → List Stmt → Bool
  | [], [] => true
  | s :: ss, t :: ts => s.same t && sameStmts ss ts
  | _, _ => false
termination_by structural ss => ss

end

def Program.same (p q : Program) : Bool :=
  sameStmts p.body q.body

end Chance
