import Chance.Compile.Fresh
import Chance.Compile.Entry

/-!
# Addresses

Every function gets an address as a first parameter, and every call that is not primitive passes
one: the address of the function it stands in, extended by a fragment of its own. Two calls in a
run then have the same address only if they are the same call.
-/

namespace Chance.Compile

/-- The argument that extends the address `a` by a fragment. -/
def extended (a : String) (fragment : Expr) : Expr :=
  .call (.member (.var a) (.str "concat")) [fragment]

mutual

/-- Adds addresses inside an expression that stands in the function with address `a`. -/
def addressExpr (a : String) : Expr → Gen Expr
  | .array es => return .array (← addressExprs a es)
  | .object fs => return .object (← addressFields a fs)
  | .unary op e => return .unary op (← addressExpr a e)
  | .binary l r op => return .binary (← addressExpr a l) (← addressExpr a r) op
  | .logic l r op => return .logic (← addressExpr a l) (← addressExpr a r) op
  | .cond t c e => return .cond (← addressExpr a t) (← addressExpr a c) (← addressExpr a e)
  | .member o p => return .member (← addressExpr a o) (← addressExpr a p)
  | .call f es => do
    let f' ← addressExpr a f
    let es' ← addressExprs a es
    if f.isPrimitive then
      return .call f' es'
    else
      let l ← fragment
      return .call f' (extended a l :: es')
  | .func name params body => do
    let inner ← fresh "address"
    let body' ← addressStmts inner body
    return .func name (inner :: params) body'
  | .assign t v => return .assign (← addressExpr a t) (← addressExpr a v)
  | .num x => return .num x
  | .str s => return .str s
  | .bool b => return .bool b
  | .null => return .null
  | .undefined => return .undefined
  | .var x => return .var x
termination_by structural e => e

def addressExprs (a : String) : List Expr → Gen (List Expr)
  | [] => return []
  | e :: es => return (← addressExpr a e) :: (← addressExprs a es)
termination_by structural es => es

def addressFields (a : String) : List (String × Expr) → Gen (List (String × Expr))
  | [] => return []
  | (k, e) :: fs => return (k, ← addressExpr a e) :: (← addressFields a fs)
termination_by structural fs => fs

def addressStmt (a : String) : Stmt → Gen Stmt
  | .empty => return .empty
  | .expr e => return .expr (← addressExpr a e)
  | .declare ds => return .declare (← addressFields a ds)
  | .ifElse t c e => return .ifElse (← addressExpr a t) (← addressStmts a c) (← addressStmts a e)
  | .ret e => return .ret (← addressExpr a e)
  | .block body => return .block (← addressStmts a body)
termination_by structural s => s

def addressStmts (a : String) : List Stmt → Gen (List Stmt)
  | [] => return []
  | s :: ss => return (← addressStmt a s) :: (← addressStmts a ss)
termination_by structural ss => ss

end

/-- Adds addresses to a function that stands in no other. -/
def addressFunction (name : Option String) (params : List String) (body : List Stmt) : Expr :=
  let named : Gen Expr := do
    let a ← fresh "address"
    let body' ← addressStmts a body
    return .func name (a :: params) body'
  (named.run 0).1

end Chance.Compile

namespace Chance

/-- Adds addresses to a program that is one function. -/
def Program.addressed (p : Program) : Except Error Program :=
  p.mapFunction .naming fun name params body => .ok (Compile.addressFunction name params body)

end Chance
