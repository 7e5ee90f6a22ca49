import Chance.Compile.Fresh
import Chance.Compile.Entry
import Chance.Compile.Linear

/-!
# Continuation-passing form

Every function gets a continuation as a first parameter and passes its value to it; every call
that is not primitive is a tail call and passes a continuation on. Atomic expressions, which hold
no such call, are evaluated in place.

There are three ways of using an expression (`Usage`): it can be kept where it is, its value can be
passed to a continuation, or its value can be made available to whatever is built next. The usage
of an expression is composed of those of its parts, and so is the code of a statement list.
Function bodies are taken to be linear already; `Expr.flatten` sees to that.
-/

namespace Chance

mutual

/-- Atomic expressions hold no call that could hand over control: they can be evaluated in place. -/
def Expr.isAtomic : Expr → Bool
  | .array es => allAtomic es
  | .object fs => allFieldsAtomic fs
  | .unary _ e => e.isAtomic
  | .binary l r _ => l.isAtomic && r.isAtomic
  | .logic l r _ => l.isAtomic && r.isAtomic
  | .cond t c a => t.isAtomic && c.isAtomic && a.isAtomic
  | .member o p => o.isAtomic && p.isAtomic
  | .call f es => f.isPrimitive && f.isAtomic && allAtomic es
  | .assign t v => t.isAtomic && v.isAtomic
  | .num _ | .str _ | .bool _ | .null | .undefined | .var _ | .func .. => true
termination_by structural e => e

def allAtomic : List Expr → Bool
  | [] => true
  | e :: es => e.isAtomic && allAtomic es
termination_by structural es => es

def allFieldsAtomic : List (String × Expr) → Bool
  | [] => true
  | (_, e) :: fs => e.isAtomic && allFieldsAtomic fs
termination_by structural fs => fs

end

namespace Compile

/-- Builds code from the atomic form of a value. -/
abbrev Build (α : Type) := α → Gen Expr

/-- The ways of using an expression. -/
structure Usage where
  /-- The expression with only the functions inside it converted. -/
  keep : Gen Expr
  /-- Code that passes the value to the continuation. -/
  pass : Build Expr
  /-- Code that goes on with an atomic expression for the value. -/
  use : Build Expr → Gen Expr

/-- Hands a value to a continuation. -/
def resume (k value : Expr) : Expr :=
  .call k [value]

/-- Goes on with a variable for the continuation `k`, so that using it twice copies no code. -/
def nameContinuation (k : Expr) (build : Build Expr) : Gen Expr :=
  match k with
  | .var x => build (.var x)
  | k => do
    let k' ← fresh "k"
    let body ← build (.var k')
    return .call (.lambda [k'] body) [k]

/-- A continuation that names its value, before `build` goes on with the name. -/
def useResult (pass : Build Expr) (build : Build Expr) : Gen Expr := do
  let x ← fresh "result"
  let body ← build (.var x)
  pass (.lambda [x] body)

namespace Usage

/-- An expression that is evaluated in place if it is atomic, and otherwise by `use`. -/
def make (atomic : Bool) (keep : Gen Expr) (pass : Build Expr) (use : Build Expr → Gen Expr) :
    Usage where
  keep := keep
  pass := pass
  use := fun build => if atomic then keep >>= build else use build

/-- A literal or a variable. -/
def leaf (e : Expr) : Usage where
  keep := pure e
  pass := fun k => pure (resume k e)
  use := fun build => build e

/-- The atomic forms of several values, from the left to the right. -/
def useAll : List Usage → Build (List Expr) → Gen Expr
  | [], build => build []
  | d :: ds, build => d.use fun e => useAll ds fun es => build (e :: es)

/-- The atomic forms of the values of fields, from the left to the right. -/
def useFields : List (String × Usage) → Build (List (String × Expr)) → Gen Expr
  | [], build => build []
  | (k, d) :: ds, build => d.use fun e => useFields ds fun fs => build ((k, e) :: fs)

def keepAll : List Usage → Gen (List Expr)
  | [] => return []
  | d :: ds => return (← d.keep) :: (← keepAll ds)

def keepFields : List (String × Usage) → Gen (List (String × Expr))
  | [] => return []
  | (k, d) :: ds => return (k, ← d.keep) :: (← keepFields ds)

/-- An array. -/
def array (atomic : Bool) (ds : List Usage) : Usage :=
  make atomic
    (return .array (← keepAll ds))
    (fun k => useAll ds fun es => return resume k (.array es))
    (fun build => useAll ds fun es => build (.array es))

/-- An object. -/
def object (atomic : Bool) (ds : List (String × Usage)) : Usage :=
  make atomic
    (return .object (← keepFields ds))
    (fun k => useFields ds fun fs => return resume k (.object fs))
    (fun build => useFields ds fun fs => build (.object fs))

/-- One operand, with the form `wrap` around it. -/
def unary (atomic : Bool) (wrap : Expr → Expr) (d : Usage) : Usage :=
  make atomic
    (return wrap (← d.keep))
    (fun k => d.use fun e => return resume k (wrap e))
    (fun build => d.use fun e => build (wrap e))

/-- A property of an object. -/
def member (atomic : Bool) (o p : Usage) : Usage :=
  make atomic
    (return .member (← o.keep) (← p.keep))
    (fun k => o.use fun o => p.use fun p => return resume k (.member o p))
    (fun build => o.use fun o => p.use fun p => build (.member o p))

/-- Two operands, with the form `wrap` around them. -/
def binary (atomic : Bool) (wrap : Expr → Expr → Expr) (l r : Usage) : Usage :=
  let pass : Build Expr := fun k => l.use fun l => r.use fun r => return resume k (wrap l r)
  make atomic (return wrap (← l.keep) (← r.keep)) pass (useResult pass)

/-- A choice between two expressions. -/
def cond (atomic : Bool) (t c a : Usage) : Usage :=
  let pass : Build Expr := fun k =>
    nameContinuation k fun k => t.use fun t => do
      let c ← c.pass k
      let a ← a.pass k
      return .cond t c a
  make atomic (return .cond (← t.keep) (← c.keep) (← a.keep)) pass (useResult pass)

/-- A right operand that is evaluated only if the left one does not decide. -/
def logic (atomic : Bool) (op : LogicOp) (l r : Usage) : Usage :=
  let pass : Build Expr := fun k =>
    nameContinuation k fun k => l.use fun l => do
      let long ← r.pass k
      let short := resume k l
      match op with
      | .or => return .cond l short long
      | .and => return .cond l long short
  make atomic (return .logic (← l.keep) (← r.keep) op) pass (useResult pass)

/-- A call: a primitive one is a value like any other, another one takes the continuation along. -/
def call (atomic primitive : Bool) (f : Usage) (ds : List Usage) : Usage :=
  let pass : Build Expr := fun k =>
    f.use fun f => useAll ds fun es =>
      return if primitive then resume k (.call f es) else .call f (k :: es)
  make atomic (return .call (← f.keep) (← keepAll ds)) pass (useResult pass)

/-- A function, given the code of its body for a continuation. -/
def function (name : Option String) (params : List String) (body : Build Expr) : Gen Expr := do
  let k ← fresh "k"
  let e ← body (.var k)
  return .func name (k :: params) [.expr e]

/-- A function literal. -/
def func (name : Option String) (params : List String) (body : Build Expr) : Usage :=
  let keep := function name params body
  { keep := keep
    pass := fun k => return resume k (← keep)
    use := fun build => keep >>= build }

end Usage

/-- A continuation that ignores its value and goes on with `rest`. -/
def ignoring (rest : Gen Expr) : Gen Expr := do
  let dummy ← fresh "dummy"
  let body ← rest
  return .lambda [dummy] body

mutual

def usage : Expr → Usage
  | .num x => .leaf (.num x)
  | .str s => .leaf (.str s)
  | .bool b => .leaf (.bool b)
  | .null => .leaf .null
  | .undefined => .leaf .undefined
  | .var x => .leaf (.var x)
  | .array es => .array (Expr.array es).isAtomic (usageAll es)
  | .object fs => .object (Expr.object fs).isAtomic (usageFields fs)
  | .unary op e => .unary e.isAtomic (.unary op) (usage e)
  | .binary l r op =>
    .binary (Expr.binary l r op).isAtomic (fun l r => .binary l r op) (usage l) (usage r)
  | .logic l r op => .logic (Expr.logic l r op).isAtomic op (usage l) (usage r)
  | .cond t c a => .cond (Expr.cond t c a).isAtomic (usage t) (usage c) (usage a)
  | .member o p => .member (Expr.member o p).isAtomic (usage o) (usage p)
  | .call f es => .call (Expr.call f es).isAtomic f.isPrimitive (usage f) (usageAll es)
  | .func name params body => .func name params fun k => sequence body k
  | .assign t v => .binary (Expr.assign t v).isAtomic .assign (usage t) (usage v)
termination_by structural e => e

def usageAll : List Expr → List Usage
  | [] => []
  | e :: es => usage e :: usageAll es
termination_by structural es => es

def usageFields : List (String × Expr) → List (String × Usage)
  | [] => []
  | (k, e) :: fs => (k, usage e) :: usageFields fs
termination_by structural fs => fs

/-- Code for declarations that scope over `tail`. The function of a binding without a name of its
own takes the name it is bound to. -/
def bindAll : List (String × Expr) → Gen Expr → Gen Expr
  | [], tail => tail
  | (x, .func none params body) :: ds, tail => do
    let rest ← bindAll ds tail
    (Usage.func (some x) params fun k => sequence body k).pass (.lambda [x] rest)
  | (x, e) :: ds, tail => do
    let rest ← bindAll ds tail
    (usage e).pass (.lambda [x] rest)
termination_by structural ds => ds

/-- Code for a statement list that passes the value of the list to the continuation `k`. -/
def sequence : List Stmt → Expr → Gen Expr
  | [], k => return resume k .undefined
  | .empty :: rest, k => sequence rest k
  | .ret e :: _, k => (usage e).pass k
  | .declare ds :: rest, k => bindAll ds (sequence rest k)
  | .expr e :: rest, k =>
    if rest.isEmpty then (usage e).pass k
    else do
      let after ← ignoring (sequence rest k)
      (usage e).pass after
  | .block body :: rest, k =>
    if rest.isEmpty then sequence body k
    else do
      let after ← ignoring (sequence rest k)
      sequence body after
  | .ifElse t c a :: rest, k => do
    let k ← if rest.isEmpty then pure k else ignoring (sequence rest k)
    nameContinuation k fun k => (usage t).use fun t => do
      let c ← sequence c k
      let a ← sequence a k
      return .cond t c a
termination_by structural ss => ss

end

/-- Code that passes the value of `e` to the continuation `k`. -/
def passTo (e k : Expr) : Expr :=
  ((usage e.flatten).pass k |>.run 0).1

/-- Code that passes the value of a statement list, as it stands, to the continuation `k`. -/
def passBodyTo (body : List Stmt) (k : Expr) : Expr :=
  (sequence (flattenStmts body) k |>.run 0).1

/-- The continuation-passing form of a function. -/
def convertFunction (name : Option String) (params : List String) (body : List Stmt) : Expr :=
  ((usage (Expr.func name params body).flatten).keep.run 0).1

end Compile

/-- The continuation-passing form of a program that is one function. -/
def Program.converted (p : Program) : Except Error Program :=
  p.mapFunction .cps fun name params body => .ok (Compile.convertFunction name params body)

end Chance
