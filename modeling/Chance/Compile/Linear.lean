import Chance.Program.Basic

/-!
# Linear statement lists

In a linear list every path ends exactly once: blocks are spliced into the list, what follows a
conditional with a return is moved into both of its arms, and a return is the last thing on its
path, where it needs no mark and becomes an expression statement. Conditionals without a return
stay as they are.
-/

namespace Chance

mutual

/-- Whether a statement holds a return, functions inside it apart. -/
def Stmt.hasReturn : Stmt → Bool
  | .ret _ => true
  | .block body => anyReturn body
  | .ifElse _ c a => anyReturn c || anyReturn a
  | _ => false
termination_by structural s => s

def anyReturn : List Stmt → Bool
  | [] => false
  | s :: ss => s.hasReturn || anyReturn ss
termination_by structural ss => ss

end

mutual

/-- The linear form of a statement followed by the linear list `after`. -/
def Stmt.linearizeOnto : Stmt → List Stmt → List Stmt
  | .block body, after => linearizeOnto body after
  | .ifElse t c a, after =>
    if anyReturn c || anyReturn a then
      [.ifElse t (linearizeOnto c after) (linearizeOnto a after)]
    else
      .ifElse t c a :: after
  | .ret e, _ => [.expr e]
  | .empty, after => .empty :: after
  | .expr e, after => .expr e :: after
  | .declare ds, after => .declare ds :: after
termination_by structural s => s

/-- The linear form of a list followed by the linear list `after`. -/
def linearizeOnto : List Stmt → List Stmt → List Stmt
  | [], after => after
  | s :: ss, after => s.linearizeOnto (linearizeOnto ss after)
termination_by structural ss => ss

end

def linearize (body : List Stmt) : List Stmt :=
  linearizeOnto body []

mutual

/-- The expression with all function bodies inside it linear. -/
def Expr.flatten : Expr → Expr
  | .array es => .array (flattenExprs es)
  | .object fs => .object (flattenFields fs)
  | .unary op e => .unary op e.flatten
  | .binary l r op => .binary l.flatten r.flatten op
  | .logic l r op => .logic l.flatten r.flatten op
  | .cond t c a => .cond t.flatten c.flatten a.flatten
  | .member o p => .member o.flatten p.flatten
  | .call f es => .call f.flatten (flattenExprs es)
  | .func name params body => .func name params (linearize (flattenStmts body))
  | .assign t v => .assign t.flatten v.flatten
  | .num x => .num x
  | .str s => .str s
  | .bool b => .bool b
  | .null => .null
  | .undefined => .undefined
  | .var x => .var x
termination_by structural e => e

def flattenExprs : List Expr → List Expr
  | [] => []
  | e :: es => e.flatten :: flattenExprs es
termination_by structural es => es

def flattenFields : List (String × Expr) → List (String × Expr)
  | [] => []
  | (k, e) :: fs => (k, e.flatten) :: flattenFields fs
termination_by structural fs => fs

/-- The statement with all function bodies inside it linear; its own lists stay as they are. -/
def Stmt.flatten : Stmt → Stmt
  | .empty => .empty
  | .expr e => .expr e.flatten
  | .declare ds => .declare (flattenFields ds)
  | .ifElse t c a => .ifElse t.flatten (flattenStmts c) (flattenStmts a)
  | .ret e => .ret e.flatten
  | .block body => .block (flattenStmts body)
termination_by structural s => s

def flattenStmts : List Stmt → List Stmt
  | [] => []
  | s :: ss => s.flatten :: flattenStmts ss
termination_by structural ss => ss

end

end Chance
