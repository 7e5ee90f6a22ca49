import Chance.Compile.Entry

/-!
# The form of compiled programs

In a compiled program every function body is one expression statement that ends in a call, or in a
choice between calls, and calls that are not primitive stand nowhere else.
-/

namespace Chance.Compile

mutual

/-- Checks an expression in tail position. -/
def checkTail : Expr → Except Error Unit
  | .cond t c a => do
    checkPlain t
    checkTail c
    checkTail a
  | .call f es =>
    if f.isPrimitive then
      .error (.compile .check .noTailCall (Expr.call f es).outline)
    else do
      checkPlain f
      checkPlains es
  | e => .error (.compile .check .noTailCall e.outline)
termination_by structural e => e

/-- Checks an expression outside tail position. -/
def checkPlain : Expr → Except Error Unit
  | .array es => checkPlains es
  | .object fs => checkFields fs
  | .unary _ e => checkPlain e
  | .binary l r _ => do checkPlain l; checkPlain r
  | .logic l r _ => do checkPlain l; checkPlain r
  | .cond t c a => do checkPlain t; checkPlain c; checkPlain a
  | .member o p => do checkPlain o; checkPlain p
  | .call f es =>
    if f.isPrimitive then do checkPlain f; checkPlains es
    else .error (.compile .check .callOutsideTail f.outline)
  | .func _ _ [.expr e] => checkTail e
  | .func _ _ body => .error (.compile .check .bodyNotSingle (bodyOutline body))
  | .assign t v => do checkPlain t; checkPlain v
  | .num _ | .str _ | .bool _ | .null | .undefined | .var _ => .ok ()
termination_by structural e => e

def checkPlains : List Expr → Except Error Unit
  | [] => .ok ()
  | e :: es => do checkPlain e; checkPlains es
termination_by structural es => es

def checkFields : List (String × Expr) → Except Error Unit
  | [] => .ok ()
  | (_, e) :: fs => do checkPlain e; checkFields fs
termination_by structural fs => fs

end

end Chance.Compile

namespace Chance

/-- Passes a program on if it is one function in continuation-passing form. -/
def Program.checked (p : Program) : Except Error Program :=
  p.mapFunction .check fun name params body => do
    let f : Expr := .func name params body
    Compile.checkPlain f
    return f

end Chance
