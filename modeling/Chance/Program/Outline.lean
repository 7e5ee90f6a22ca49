import Chance.Program.Basic
import Chance.Text.Quoted
import Chance.Decimal.Style

/-!
# Outlines

The outline of a tree names every node by its constructor, on one line. It is what messages about
ill-formed programs show.
-/

namespace Chance

/-- Items in brackets, separated by commas. -/
def bracketed (items : List String) : String :=
  "[" ++ ", ".intercalate items ++ "]"

def outlineName : Option String → String
  | none => "None"
  | some x => "Some(" ++ x ++ ")"

mutual

def Expr.outline : Expr → String
  | .num x => "Num(" ++ Decimal.Style.outline.write x ++ ")"
  | .str s => "Str(" ++ Text.quoted s ++ ")"
  | .bool b => "Bool(" ++ (if b then "true" else "false") ++ ")"
  | .null => "Null"
  | .undefined => "Undefined"
  | .var x => "EVar(" ++ x ++ ")"
  | .array es => "Array(" ++ bracketed (exprOutlines es) ++ ")"
  | .object fs => "Object(" ++ bracketed (fieldOutlines fs) ++ ")"
  | .unary op e => "Unary(" ++ op.symbol ++ ", " ++ e.outline ++ ")"
  | .binary l r op => "Bin(" ++ l.outline ++ ", " ++ r.outline ++ ", " ++ op.symbol ++ ")"
  | .logic l r op => "Logical(" ++ l.outline ++ ", " ++ r.outline ++ ", " ++ op.symbol ++ ")"
  | .cond t c a => "Cond(" ++ t.outline ++ ", " ++ c.outline ++ ", " ++ a.outline ++ ")"
  | .member o p => "Member(" ++ o.outline ++ ", " ++ p.outline ++ ")"
  | .call f es => "App(" ++ f.outline ++ ", " ++ bracketed (exprOutlines es) ++ ")"
  | .func n ps b =>
    "Func(Func \x7b name: " ++ outlineName n ++ ", params: " ++ bracketed ps ++ ", body: "
      ++ bracketed (stmtOutlines b) ++ " \x7d)"
  | .assign t v => "Assign(" ++ t.outline ++ ", " ++ v.outline ++ ")"
termination_by structural e => e

def exprOutlines : List Expr → List String
  | [] => []
  | e :: es => e.outline :: exprOutlines es
termination_by structural es => es

/-- The fields of an object, whose keys are texts. -/
def fieldOutlines : List (String × Expr) → List String
  | [] => []
  | (k, e) :: fs => ("(" ++ Text.quoted k ++ ", " ++ e.outline ++ ")") :: fieldOutlines fs
termination_by structural fs => fs

/-- The bindings of a declaration, whose keys are names. -/
def bindingOutlines : List (String × Expr) → List String
  | [] => []
  | (x, e) :: ds => ("(" ++ x ++ ", " ++ e.outline ++ ")") :: bindingOutlines ds
termination_by structural ds => ds

def Stmt.outline : Stmt → String
  | .empty => "Empty"
  | .expr e => "Expr(" ++ e.outline ++ ")"
  | .declare ds => "Var(" ++ bracketed (bindingOutlines ds) ++ ")"
  | .ifElse t c a =>
    "If(" ++ t.outline ++ ", " ++ bracketed (stmtOutlines c) ++ ", " ++ bracketed (stmtOutlines a)
      ++ ")"
  | .ret e => "Return(" ++ e.outline ++ ")"
  | .block b => "Block(" ++ bracketed (stmtOutlines b) ++ ")"
termination_by structural s => s

def stmtOutlines : List Stmt → List String
  | [] => []
  | s :: ss => s.outline :: stmtOutlines ss
termination_by structural ss => ss

end

/-- The outline of a statement list. -/
def bodyOutline (body : List Stmt) : String :=
  bracketed (stmtOutlines body)

def Program.outline (p : Program) : String :=
  "Program \x7b body: " ++ bodyOutline p.body ++ " \x7d"

end Chance
