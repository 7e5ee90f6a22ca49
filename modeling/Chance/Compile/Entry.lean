import Chance.Program.Outline
import Chance.Error

/-!
# Programs as one function

The passes work on programs that consist of one function expression. `Program.thunk` makes any
program such a one: a function without parameters that returns the value of the last expression
statement of each path.
-/

namespace Chance

mutual

/-- Turns an expression statement in last place into a return. -/
def Stmt.returning : Stmt → Stmt
  | .block body => .block (returnLast body)
  | .expr e => .ret e
  | .ifElse t c a => .ifElse t (returnLast c) (returnLast a)
  | s => s
termination_by structural s => s

/-- Turns the last expression statement of every path into a return. -/
def returnLast : List Stmt → List Stmt
  | [] => []
  | [s] => [s.returning]
  | s :: t :: ss => s :: returnLast (t :: ss)
termination_by structural ss => ss

end

namespace Program

def thunk (p : Program) : Program :=
  ⟨[.expr (.func none [] (returnLast p.body))]⟩

/-- What a program that is not one function is reported by. -/
def firstOutline (p : Program) : String :=
  match p.body with
  | [] => "None"
  | s :: _ => "Some(" ++ s.outline ++ ")"

/-- Changes the single function expression that the program consists of. -/
def mapFunction (stage : Stage) (p : Program)
    (f : Option String → List String → List Stmt → Except Error Expr) : Except Error Program :=
  match p.body with
  | [.expr (.func name params body)] => do
    let e ← f name params body
    return ⟨[.expr e]⟩
  | _ => .error (.compile stage .notOneFunction p.firstOutline)

end Program

end Chance
