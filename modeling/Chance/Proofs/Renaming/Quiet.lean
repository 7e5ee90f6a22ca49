import Chance.Proofs.Renaming.Values

/-!
# Runs that show no function

Texts are taken of operands beside a text, of property names, of what is printed, of the arguments
of cached functions and of the results of enumerations. Texts in the messages of errors do not
count. A run is quiet if no value whose text is taken shows the name of a function.

- `Expr.isQuiet`, `Expr.isQuietTail`: evaluation in place,
- `Task.isQuiet`: single tasks,
- `Task.quietFor`, `Program.quietFor`: runs.
-/

namespace Chance

/-! ## Operators, members and methods -/

/-- Whether addition takes the text of no function. -/
def plusIsQuiet : Value → Value → Bool
  | .str _, w => w.isNameless
  | v, .str _ => v.isNameless
  | _, _ => true

def BinaryOp.isQuiet (op : BinaryOp) (v w : Value) : Bool :=
  match op with
  | .add => plusIsQuiet v w
  | _ => true

/-- Objects take the text of a property. -/
def memberIsQuiet (object property : Value) : Bool :=
  match object with
  | .object _ => property.isNameless
  | _ => true

/-- Printing takes the texts of all arguments. -/
def Primitive.isQuiet (p : Primitive) (args : List Value) : Bool :=
  match p with
  | .display => args.all Value.isNameless
  | _ => true

/-- Texts take the texts of what is joined to them or looked for in them, and marginals that of the
value they score. -/
def methodIsQuiet (object : Value) (name : String) (args : List Value) : Bool :=
  match object, name with
  | .str _, "concat" => args.all Value.isNameless
  | .str _, "indexOf" => (argument args 0).isNameless
  | .dist _ d, "score" => !d.readsText || (argument args 0).isNameless
  | .object _, name =>
    match object.get name with
    | .primitive p => p.isQuiet args
    | _ => true
  | _, _ => true

/-! ## Evaluation -/

/-- Whether the condition holds after a computation that succeeds. -/
def Exec.after {α : Type} (x : Exec α) (m : Machine) (p : α → Machine → Bool) : Bool :=
  match x m with
  | .ok a m' => p a m'
  | .error _ _ => true

mutual

/-- Whether evaluating the expression takes the text of no function. -/
def Expr.isQuiet (env : Env) : Expr → Machine → Bool
  | .num _, _ | .str _, _ | .bool _, _ | .null, _ | .undefined, _ | .var _, _ | .func .., _ => true
  | .array es, m => exprsQuiet env es m
  | .object fs, m => fieldsQuiet env fs m
  | .unary _ e, m => e.isQuiet env m
  | .binary l r op, m =>
    l.isQuiet env m && (eval env l).after m fun v m =>
      r.isQuiet env m && (eval env r).after m fun w _ => op.isQuiet v w
  | .logic l r op, m =>
    l.isQuiet env m && (eval env l).after m fun v m =>
      match op, v.truthy with
      | .and, true => r.isQuiet env m
      | .or, false => r.isQuiet env m
      | _, _ => true
  | .cond t c a, m =>
    t.isQuiet env m && (eval env t).after m fun v m =>
      if v.truthy then c.isQuiet env m else a.isQuiet env m
  | .member o p, m =>
    o.isQuiet env m && (eval env o).after m fun object m =>
      p.isQuiet env m && (eval env p).after m fun property _ => memberIsQuiet object property
  | .call (.member o p) args, m =>
    if (Expr.member o p).isPrimitive then
      o.isQuiet env m && (eval env o).after m fun object m =>
        p.isQuiet env m && (eval env p).after m fun name m =>
          name.isNameless && exprsQuiet env args m && (evalAll env args).after m fun values _ =>
            methodIsQuiet object name.key values
    else true
  | .call _ _, _ => true
  | .assign (.member (.var x) p) e, m =>
    if x = Expr.storeName then
      p.isQuiet env m && (eval env p).after m fun property m =>
        property.isNameless && e.isQuiet env m
    else true
  | .assign _ _, _ => true
termination_by structural e => e

def exprsQuiet (env : Env) : List Expr → Machine → Bool
  | [], _ => true
  | e :: es, m => e.isQuiet env m && (eval env e).after m fun _ m => exprsQuiet env es m
termination_by structural es => es

def fieldsQuiet (env : Env) : List (String × Expr) → Machine → Bool
  | [], _ => true
  | (_, e) :: fs, m => e.isQuiet env m && (eval env e).after m fun _ m => fieldsQuiet env fs m
termination_by structural fs => fs

end

/-- The same of the body of a compiled function, up to the call in tail position. -/
def Expr.isQuietTail (env : Env) : Expr → Machine → Bool
  | .cond t c a, m =>
    t.isQuiet env m && (eval env t).after m fun v m =>
      if v.truthy then c.isQuietTail env m else a.isQuietTail env m
  | .call f args, m =>
    if f.isPrimitive then (Expr.call f args).isQuiet env m
    else f.isQuiet env m && (eval env f).after m fun _ m => exprsQuiet env args m
  | e, m => e.isQuiet env m

/-! ## Tasks and runs -/

/-- Whether entering a function takes the text of no function. -/
def enterIsQuiet (id : Nat) (name : Option String) (params : List String) (body : List Stmt)
    (env : Env) (args : List Value) (m : Machine) : Bool :=
  match body with
  | [.expr e] =>
    e.isQuietTail (bindParams (.closure id name params body env) name params args :: env) m
  | _ => true

/-- Whether a call takes the text of no function. A cached function takes the texts of its
arguments, and the end of a path that of its result if it counts. -/
def callIsQuiet (f : Value) (args : List Value) (m : Machine) : Bool :=
  match f with
  | .closure id name params body env => enterIsQuiet id name params body env args m
  | .primitive p => p.isQuiet (args.drop 2)
  | .cached _ _ => valuesNameless (args.drop 2)
  | .cont _ (.leave i) =>
    match m.engine? i with
    | some e => !Tally.counts e.score || (argument args 0).isNameless
    | none => true
  | _ => true

def Task.isQuiet (t : Task) (m : Machine) : Bool :=
  match t with
  | .call f args => callIsQuiet f args m
  | _ => true

/-- Whether a run from a task takes the text of no function. -/
def Task.quietFor : Nat → Task → Machine → Bool
  | 0, _, _ => true
  | fuel + 1, t, m =>
    t.isQuiet m && t.perform.after m fun
      | .done _, _ => true
      | .bounce t, m => t.quietFor fuel m
      | .through t, m => t.quietFor fuel m

def Step.quietFor (fuel : Nat) : Step → Machine → Bool
  | .done _, _ => true
  | .bounce t, m => t.quietFor fuel m
  | .through t, m => t.quietFor fuel m

/-- Whether a run of a compiled program takes the text of no function. -/
def Program.quietFor (fuel : Nat) (p : Program) (m : Machine) : Bool :=
  (Exec.newCont .exit).after m fun k m =>
    match p.body with
    | [.expr (.func name params body)] =>
      Exec.freshId.after m fun id m =>
        enterIsQuiet id name params body globalEnv [k, .str ""] m &&
          (enterClosure id name params body globalEnv [k, .str ""]).after m fun s m =>
            s.quietFor fuel m
    | _ => true

end Chance
