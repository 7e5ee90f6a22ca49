import Chance.Machine.Primitive
import Chance.Program.Outline

/-!
# Evaluation in place

Atomic expressions are evaluated where they stand. The body of a compiled function is an expression
in tail position: it chooses a call, which is what the machine does next.
-/

namespace Chance

/-- What the machine has to do. -/
inductive Task where
  | call (f : Value) (args : List Value)
  /-- Hands a loop the result for its last item. -/
  | turn (loop : Loop) (index : Nat) (rest : List Value) (acc : Value)
  /-- Goes on with a loop at the items `rest`, the first of which has the given index. -/
  | iterate (loop : Loop) (index : Nat) (rest : List Value) (acc : Value)
  /-- Installs an enumeration and explores its first path. -/
  | enter (engine : Engine) (thunk exit : Value)
deriving Inhabited

/-- How a task ends. -/
inductive Step where
  /-- With another task, in a step of its own. -/
  | bounce (t : Task)
  /-- With another task that is part of the same step. -/
  | through (t : Task)
  /-- With the value of the run. -/
  | done (v : Value)
deriving Inhabited

/-- Goes on at a continuation. -/
def Step.resume (k v : Value) : Step :=
  .bounce (.call k [v])

mutual

def eval (env : Env) : Expr → Exec Value
  | .num x => return .num x
  | .str s => return .str s
  | .bool b => return .bool b
  | .null => return .null
  | .undefined => return .undefined
  | .var x =>
    if x = Expr.storeName then return .object (← get).store
    else
      match env.lookup? x with
      | some v => return v
      | none => throw (.unbound x)
  | .array es => return .array (← evalAll env es)
  | .object fs => return .object (← evalFields env fs [])
  | .unary op e => do
    let v ← eval env e
    op.apply v
  | .binary l r op => do
    let v ← eval env l
    let w ← eval env r
    op.apply v w
  | .logic l r op => do
    let v ← eval env l
    match op, v.truthy with
    | .and, true => eval env r
    | .or, false => eval env r
    | _, _ => return v
  | .cond t c a => do
    if (← eval env t).truthy then eval env c else eval env a
  | .member o p => do
    let object ← eval env o
    let property ← eval env p
    member object property
  | .call (.member o p) args =>
    if (Expr.member o p).isPrimitive then do
      let object ← eval env o
      let name ← eval env p
      let values ← evalAll env args
      callMethod object name.key values
    else throw (.compile .eval .callOutsideTail (Expr.call (.member o p) args).outline)
  | .call f args => throw (.compile .eval .callOutsideTail (Expr.call f args).outline)
  | .func name params body => do
    let id ← Exec.freshId
    return .closure id name params body env
  | .assign (.member (.var x) p) e =>
    if x = Expr.storeName then do
      let property ← eval env p
      let v ← eval env e
      modify fun m => { m with store := setField m.store property.key v }
      return v
    else throw (.type .notAssignable)
  | .assign _ _ => throw (.type .notAssignable)
termination_by structural e => e

def evalAll (env : Env) : List Expr → Exec (List Value)
  | [] => return []
  | e :: es => do
    let v ← eval env e
    let vs ← evalAll env es
    return v :: vs
termination_by structural es => es

/-- The fields of an object, added to those before them; of equal keys the last counts. -/
def evalFields (env : Env) : List (String × Expr) → List (String × Value) →
    Exec (List (String × Value))
  | [], fields => return fields
  | (k, e) :: fs, fields => do
    let v ← eval env e
    evalFields env fs (setField fields k v)
termination_by structural fs => fs

end

/-- Evaluates the body of a compiled function up to the call in tail position. -/
def evalTail (env : Env) : Expr → Exec Step
  | .cond t c a => do
    if (← eval env t).truthy then evalTail env c else evalTail env a
  | .call f args =>
    if f.isPrimitive then do
      let v ← eval env (.call f args)
      return .done v
    else do
      let g ← eval env f
      let values ← evalAll env args
      return .bounce (.call g values)
  | e => do
    let v ← eval env e
    return .done v

/-- The scope of a function call: the function under its own name, then the parameters. Missing
arguments are `undefined`. -/
def bindParams (self : Value) (name : Option String) (params : List String) (args : List Value) :
    Frame :=
  let own : Frame :=
    match name with
    | some f => [(f, self)]
    | none => []
  own ++ params.zipIdx.map fun (x, i) => (x, argument args i)

/-- Enters the body of a function of the program. -/
def enterClosure (id : Nat) (name : Option String) (params : List String) (body : List Stmt)
    (env : Env) (args : List Value) : Exec Step :=
  let self : Value := .closure id name params body env
  match body with
  | [.expr e] => evalTail (bindParams self name params args :: env) e
  | _ => throw (.compile .apply .bodyNotCps self.text)

end Chance
