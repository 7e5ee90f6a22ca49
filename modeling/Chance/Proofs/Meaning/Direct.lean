import Chance.Proofs.Meaning.Atomic

/-!
# Direct evaluation

What programs mean without continuations: operands are evaluated from the left to the right, a call
returns to where it stands, a declaration scopes over the rest of its list, and the value of a list
is that of the expression in last place. Function bodies are taken to be linear already, as they are
for the conversion. Nothing here can stop a run or go on with it twice: of the functions that come
with the language only the primitive ones can be called.

- `evaluate`, `execute`: expressions and statement lists, given what a call does,
- `invoke`, `Program.evaluate`: calls and whole programs, with so many calls inside one another,
- `Demands`: what can be asked of the names, the full expressions and the left operands of a
  program,
- `Demands.tame`: programs whose meaning conversion keeps,
- `stmtsMeet_linear`: the linear form of a program meets what the program meets.
-/

namespace Chance

open Compile

/-! ## Expressions -/

/-- What calls of a function with arguments do. -/
abbrev Caller := Value → List Value → Exec Value

mutual

def evaluate (call : Caller) (env : Env) : Expr → Exec Value
  | .num x => return .num x
  | .str s => return .str s
  | .bool b => return .bool b
  | .null => return .null
  | .undefined => return .undefined
  | .var x =>
    if x = Expr.storeName then return .object (← get).store
    else
      match env.lookup? x with
      | some v => return v
      | none => throw (.unbound x)
  | .array es => return .array (← evaluateAll call env es)
  | .object fs => return .object (← evaluateFields call env fs [])
  | .unary op e => do
    let v ← evaluate call env e
    op.apply v
  | .binary l r op => do
    let v ← evaluate call env l
    let w ← evaluate call env r
    op.apply v w
  | .logic l r op => do
    let v ← evaluate call env l
    match op, v.truthy with
    | .and, true => evaluate call env r
    | .or, false => evaluate call env r
    | _, _ => return v
  | .cond t c a => do
    if (← evaluate call env t).truthy then evaluate call env c else evaluate call env a
  | .member o p => do
    let object ← evaluate call env o
    let property ← evaluate call env p
    member object property
  | .call (.member o p) args => do
    let object ← evaluate call env o
    let property ← evaluate call env p
    if (Expr.member o p).isPrimitive then
      let values ← evaluateAll call env args
      callMethod object property.key values
    else
      let f ← member object property
      let values ← evaluateAll call env args
      call f values
  | .call f args => do
    let g ← evaluate call env f
    let values ← evaluateAll call env args
    call g values
  | .func name params body => do
    let id ← Exec.freshId
    return .closure id name params body env
  | .assign (.member (.var x) p) e =>
    if x = Expr.storeName then do
      let property ← evaluate call env p
      let v ← evaluate call env e
      modify fun m => { m with store := setField m.store property.key v }
      return v
    else throw (.type .notAssignable)
  | .assign _ _ => throw (.type .notAssignable)
termination_by structural e => e

def evaluateAll (call : Caller) (env : Env) : List Expr → Exec (List Value)
  | [] => return []
  | e :: es => do
    let v ← evaluate call env e
    let vs ← evaluateAll call env es
    return v :: vs
termination_by structural es => es

/-- The fields of an object, added to those before them; of equal keys the last counts. -/
def evaluateFields (call : Caller) (env : Env) : List (String × Expr) → List (String × Value) →
    Exec (List (String × Value))
  | [], fields => return fields
  | (k, e) :: fs, fields => do
    let v ← evaluate call env e
    evaluateFields call env fs (setField fields k v)
termination_by structural fs => fs

end

/-! ## Statement lists -/

/-- The scope after declarations. A function that is declared can call itself. -/
def declareAll (call : Caller) : Env → List (String × Expr) → Exec Env
  | env, [] => return env
  | env, (x, e) :: ds => do
    let v ← evaluate call env (e.called x)
    declareAll call ([(x, v)] :: env) ds

/-- How far the declarations in a block reach. -/
inductive BlockScope where
  /-- To the end of the block. -/
  | own
  /-- To the end of the list that the block stands in. -/
  | list
deriving DecidableEq

/-- The scope after a block. -/
def BlockScope.after (blocks : BlockScope) (outer inner : Env) : Env :=
  match blocks with
  | .own => outer
  | .list => inner

mutual

/-- The scope after a statement, and its value. -/
def Stmt.execute (blocks : BlockScope) (call : Caller) (env : Env) : Stmt → Exec (Env × Value)
  | .empty => return (env, .undefined)
  | .expr e => return (env, ← evaluate call env e)
  | .ret e => return (env, ← evaluate call env e)
  | .declare ds => return (← declareAll call env ds, .undefined)
  | .block body => do
    let (inner, v) ← execute blocks call env body
    return (blocks.after env inner, v)
  | .ifElse t c a => do
    let test ← evaluate call env t
    let (_, v) ← if test.truthy then execute blocks call env c else execute blocks call env a
    return (env, v)
termination_by structural s => s

/-- The scope at the end of a statement list, and the value of the list: that of the statement in
last place. -/
def execute (blocks : BlockScope) (call : Caller) (env : Env) : List Stmt → Exec (Env × Value)
  | [] => return (env, .undefined)
  | .ret e :: _ => return (env, ← evaluate call env e)
  | s :: rest => do
    let (env', v) ← s.execute blocks call env
    if rest.isEmpty then return (env', v) else execute blocks call env' rest
termination_by structural ss => ss

end

/-! ## Calls and programs -/

/-- Calls a function, with at most so many calls inside one another. -/
def invoke (blocks : BlockScope) : Nat → Caller
  | 0, _, _ => throw .cancelled
  | fuel + 1, f, args =>
    match f with
    | .closure id name params body env => do
      let self : Value := .closure id name params body env
      let (_, v) ← execute blocks (invoke blocks fuel)
        (bindParams self name params args :: env) body
      return v
    | .primitive p => p.run args
    | v => throw (.type (.notFunction v.text))

/-- The linear form of the function that a program is taken for. -/
def Program.linear (p : Program) : List Stmt :=
  linearize (flattenStmts (returnLast p.body))

/-- The value of a program, with at most so many calls inside one another. -/
def Program.evaluate (blocks : BlockScope) (fuel : Nat) (p : Program) : Exec Value := do
  let (_, v) ← execute blocks (invoke blocks fuel) globalEnv p.linear
  return v

/-! ## Demands on programs -/

/-- What is asked of a program: of its identifiers, of its full expressions (expression statements,
initializers, tests and returned expressions), and of left operands that may decide. -/
structure Demands where
  name : String → Prop
  full : Expr → Prop
  left : Expr → Prop

mutual

def Expr.Meets (D : Demands) : Expr → Prop
  | .var x => D.name x
  | .array es => exprsMeet D es
  | .object fs => fieldsMeet D fs
  | .unary _ e => e.Meets D
  | .binary l r _ => l.Meets D ∧ r.Meets D
  | .logic l r _ => D.left l ∧ l.Meets D ∧ r.Meets D
  | .cond t c a => t.Meets D ∧ c.Meets D ∧ a.Meets D
  | .member o p => o.Meets D ∧ p.Meets D
  | .call f es => f.Meets D ∧ exprsMeet D es
  | .func name params body =>
    (∀ x ∈ name, D.name x) ∧ (∀ x ∈ params, D.name x) ∧ stmtsMeet D body
  | .assign t v => t.Meets D ∧ v.Meets D
  | .num _ | .str _ | .bool _ | .null | .undefined => True
termination_by structural e => e

def exprsMeet (D : Demands) : List Expr → Prop
  | [] => True
  | e :: es => e.Meets D ∧ exprsMeet D es
termination_by structural es => es

def fieldsMeet (D : Demands) : List (String × Expr) → Prop
  | [] => True
  | (_, e) :: fs => e.Meets D ∧ fieldsMeet D fs
termination_by structural fs => fs

def Stmt.Meets (D : Demands) : Stmt → Prop
  | .empty => True
  | .expr e | .ret e => D.full e ∧ e.Meets D
  | .declare ds => (∀ d ∈ ds, D.name d.1 ∧ D.full d.2) ∧ fieldsMeet D ds
  | .ifElse t c a => D.full t ∧ t.Meets D ∧ stmtsMeet D c ∧ stmtsMeet D a
  | .block body => stmtsMeet D body
termination_by structural s => s

def stmtsMeet (D : Demands) : List Stmt → Prop
  | [] => True
  | s :: ss => s.Meets D ∧ stmtsMeet D ss
termination_by structural ss => ss

end

section Deciding

variable (D : Demands) [DecidablePred D.name] [DecidablePred D.full] [DecidablePred D.left]

mutual

def Expr.decidableMeets : (e : Expr) → Decidable (e.Meets D)
  | .var x => inferInstanceAs (Decidable (D.name x))
  | .array es => decidableExprsMeet es
  | .object fs => decidableFieldsMeet fs
  | .unary _ e => e.decidableMeets
  | .binary l r _ => @instDecidableAnd _ _ l.decidableMeets r.decidableMeets
  | .logic l r _ =>
    @instDecidableAnd _ _ (inferInstanceAs (Decidable (D.left l)))
      (@instDecidableAnd _ _ l.decidableMeets r.decidableMeets)
  | .cond t c a =>
    @instDecidableAnd _ _ t.decidableMeets
      (@instDecidableAnd _ _ c.decidableMeets a.decidableMeets)
  | .member o p => @instDecidableAnd _ _ o.decidableMeets p.decidableMeets
  | .call f es => @instDecidableAnd _ _ f.decidableMeets (decidableExprsMeet es)
  | .func name params body =>
    @instDecidableAnd _ _ (inferInstanceAs (Decidable (∀ x ∈ name, D.name x)))
      (@instDecidableAnd _ _ (inferInstanceAs (Decidable (∀ x ∈ params, D.name x)))
        (decidableStmtsMeet body))
  | .assign t v => @instDecidableAnd _ _ t.decidableMeets v.decidableMeets
  | .num _ | .str _ | .bool _ | .null | .undefined => .isTrue trivial
termination_by structural e => e

def decidableExprsMeet : (es : List Expr) → Decidable (exprsMeet D es)
  | [] => .isTrue trivial
  | e :: es => @instDecidableAnd _ _ e.decidableMeets (decidableExprsMeet es)
termination_by structural es => es

def decidableFieldsMeet : (fs : List (String × Expr)) → Decidable (fieldsMeet D fs)
  | [] => .isTrue trivial
  | (_, e) :: fs => @instDecidableAnd _ _ e.decidableMeets (decidableFieldsMeet fs)
termination_by structural fs => fs

def Stmt.decidableMeets : (s : Stmt) → Decidable (s.Meets D)
  | .empty => .isTrue trivial
  | .expr e | .ret e =>
    @instDecidableAnd _ _ (inferInstanceAs (Decidable (D.full e))) e.decidableMeets
  | .declare ds =>
    @instDecidableAnd _ _ (inferInstanceAs (Decidable (∀ d ∈ ds, D.name d.1 ∧ D.full d.2)))
      (decidableFieldsMeet ds)
  | .ifElse t c a =>
    @instDecidableAnd _ _ (inferInstanceAs (Decidable (D.full t)))
      (@instDecidableAnd _ _ t.decidableMeets
        (@instDecidableAnd _ _ (decidableStmtsMeet c) (decidableStmtsMeet a)))
  | .block body => decidableStmtsMeet body
termination_by structural s => s

def decidableStmtsMeet : (ss : List Stmt) → Decidable (stmtsMeet D ss)
  | [] => .isTrue trivial
  | s :: ss => @instDecidableAnd _ _ s.decidableMeets (decidableStmtsMeet ss)
termination_by structural ss => ss

end

instance (ss : List Stmt) : Decidable (stmtsMeet D ss) := decidableStmtsMeet D ss

end Deciding

/-- Demands that linear form cannot break. -/
structure Demands.Stable (D : Demands) : Prop where
  full : ∀ {e : Expr}, D.full e → D.full e.flatten
  left : ∀ {e : Expr}, D.left e → D.left e.flatten

section Linear

variable {D : Demands}

mutual

theorem Stmt.meets_linearizeOnto : ∀ {s : Stmt} {after : List Stmt}, s.Meets D →
    stmtsMeet D after → stmtsMeet D (s.linearizeOnto after)
  | .block body, _, h, hafter => stmtsMeet_linearizeOnto h hafter
  | .ifElse t c a, after, h, hafter => by
    obtain ⟨hfull, ht, hc, ha⟩ := h
    rw [Stmt.linearizeOnto]
    split_ifs
    · have hc' := stmtsMeet_linearizeOnto hc hafter
      have ha' := stmtsMeet_linearizeOnto ha hafter
      exact ⟨⟨hfull, ht, hc', ha'⟩, trivial⟩
    · exact ⟨⟨hfull, ht, hc, ha⟩, hafter⟩
  | .ret _, _, h, _ => ⟨h, trivial⟩
  | .empty, _, h, hafter | .expr _, _, h, hafter | .declare _, _, h, hafter => ⟨h, hafter⟩

theorem stmtsMeet_linearizeOnto : ∀ {ss after : List Stmt}, stmtsMeet D ss →
    stmtsMeet D after → stmtsMeet D (linearizeOnto ss after)
  | [], _, _, hafter => hafter
  | _ :: _, _, ⟨hs, hss⟩, hafter => Stmt.meets_linearizeOnto hs (stmtsMeet_linearizeOnto hss hafter)

end

mutual

theorem Expr.meets_flatten (hD : D.Stable) : ∀ {e : Expr}, e.Meets D → e.flatten.Meets D
  | .array _, h => exprsMeet_flatten hD h
  | .object _, h => fieldsMeet_flatten hD h
  | .unary _ e, h => Expr.meets_flatten hD (e := e) h
  | .binary .., ⟨hl, hr⟩ | .member .., ⟨hl, hr⟩ | .assign .., ⟨hl, hr⟩ =>
    ⟨Expr.meets_flatten hD hl, Expr.meets_flatten hD hr⟩
  | .logic .., ⟨hleft, hl, hr⟩ =>
    ⟨hD.left hleft, Expr.meets_flatten hD hl, Expr.meets_flatten hD hr⟩
  | .cond .., ⟨ht, hc, ha⟩ =>
    ⟨Expr.meets_flatten hD ht, Expr.meets_flatten hD hc, Expr.meets_flatten hD ha⟩
  | .call .., ⟨hf, hes⟩ => ⟨Expr.meets_flatten hD hf, exprsMeet_flatten hD hes⟩
  | .func .., ⟨hname, hparams, hbody⟩ =>
    ⟨hname, hparams, stmtsMeet_linearizeOnto (stmtsMeet_flatten hD hbody) trivial⟩
  | .var _, h => h
  | .num _, _ | .str _, _ | .bool _, _ | .null, _ | .undefined, _ => trivial

theorem exprsMeet_flatten (hD : D.Stable) :
    ∀ {es : List Expr}, exprsMeet D es → exprsMeet D (flattenExprs es)
  | [], _ => trivial
  | _ :: _, ⟨he, hes⟩ => ⟨Expr.meets_flatten hD he, exprsMeet_flatten hD hes⟩

theorem fieldsMeet_flatten (hD : D.Stable) :
    ∀ {fs : List (String × Expr)}, fieldsMeet D fs → fieldsMeet D (flattenFields fs)
  | [], _ => trivial
  | (_, _) :: _, ⟨he, hfs⟩ => ⟨Expr.meets_flatten hD he, fieldsMeet_flatten hD hfs⟩

theorem Stmt.meets_flatten (hD : D.Stable) : ∀ {s : Stmt}, s.Meets D → s.flatten.Meets D
  | .empty, _ => trivial
  | .expr _, ⟨hfull, he⟩ | .ret _, ⟨hfull, he⟩ => ⟨hD.full hfull, Expr.meets_flatten hD he⟩
  | .declare ds, ⟨hds, hfields⟩ => by
    refine ⟨?_, fieldsMeet_flatten hD hfields⟩
    clear hfields
    -- The names stay, and the initializers are flattened one by one.
    induction ds with
    | nil => exact nofun
    | cons d ds ih =>
      have hd := hds d List.mem_cons_self
      have hrest := ih fun d' hd' => hds d' (List.mem_cons_of_mem d hd')
      exact List.forall_mem_cons.2 ⟨⟨hd.1, hD.full hd.2⟩, hrest⟩
  | .ifElse .., ⟨hfull, ht, hc, ha⟩ =>
    ⟨hD.full hfull, Expr.meets_flatten hD ht, stmtsMeet_flatten hD hc, stmtsMeet_flatten hD ha⟩
  | .block body, h => stmtsMeet_flatten hD h

theorem stmtsMeet_flatten (hD : D.Stable) :
    ∀ {ss : List Stmt}, stmtsMeet D ss → stmtsMeet D (flattenStmts ss)
  | [], _ => trivial
  | _ :: _, ⟨hs, hss⟩ => ⟨Stmt.meets_flatten hD hs, stmtsMeet_flatten hD hss⟩

end

mutual

theorem Stmt.meets_returning : ∀ {s : Stmt}, s.Meets D → s.returning.Meets D
  | .block _, h => stmtsMeet_returnLast h
  | .ifElse .., ⟨hfull, ht, hc, ha⟩ => ⟨hfull, ht, stmtsMeet_returnLast hc, stmtsMeet_returnLast ha⟩
  | .empty, h | .expr _, h | .declare _, h | .ret _, h => h

theorem stmtsMeet_returnLast : ∀ {ss : List Stmt}, stmtsMeet D ss → stmtsMeet D (returnLast ss)
  | [], _ => trivial
  | [_], ⟨hs, _⟩ => ⟨Stmt.meets_returning hs, trivial⟩
  | _ :: _ :: _, ⟨hs, hss⟩ => ⟨hs, stmtsMeet_returnLast hss⟩

end

/-- The linear form of a program meets what the program meets. -/
theorem stmtsMeet_linear (hD : D.Stable) {p : Program} (h : stmtsMeet D p.body) :
    stmtsMeet D p.linear :=
  stmtsMeet_linearizeOnto (stmtsMeet_flatten hD (stmtsMeet_returnLast h)) trivial

end Linear

/-! ## What continuations leave alone -/

/-- Whether the expression mentions the store, functions inside it apart. -/
def Expr.mentionsStore (e : Expr) : Bool :=
  e.anywhere fun f => f == .name Expr.storeName

/-- Programs whose meaning conversion keeps: no identifier has the shape of a generated name, no
full expression both mentions the store and makes a call that is not primitive, and no left operand
that may decide writes to the store. -/
def Demands.tame : Demands where
  name x := ¬ IsGenerated x
  full e := e.isAtomic = true ∨ e.mentionsStore = false
  left l := l.writes = false

instance : DecidablePred Demands.tame.name := fun x => inferInstanceAs (Decidable (¬ IsGenerated x))
instance : DecidablePred Demands.tame.full := fun e =>
  inferInstanceAs (Decidable (e.isAtomic = true ∨ e.mentionsStore = false))
instance : DecidablePred Demands.tame.left := fun l =>
  inferInstanceAs (Decidable (l.writes = false))

theorem Demands.tame_stable : Demands.tame.Stable where
  full := by
    intro e h
    simpa only [Demands.tame, e.isAtomic_flatten, Expr.mentionsStore, e.anywhere_flatten] using h
  left := by
    intro e h
    simpa only [Demands.tame, Expr.writes, e.anywhere_flatten] using h

/-! ## What addresses leave alone -/

section Addresses

variable {a : String} (p : Form → Bool)

mutual

theorem Addressed.anywhere_eq : ∀ {e e' : Expr}, Addressed a e e' → e.isAtomic = true →
    e'.anywhere p = e.anywhere p
  | _, _, .array h, hatomic => by
    simp only [Expr.anywhere, ExprsAddressed.anywhere_eq h hatomic]
  | _, _, .object h, hatomic => by
    simp only [Expr.anywhere, FieldsAddressed.anywhere_eq h hatomic]
  | _, _, .unary _ h, hatomic => by simp only [Expr.anywhere, Addressed.anywhere_eq h hatomic]
  | _, _, .binary _ hl hr, hatomic | _, _, .logic _ hl hr, hatomic
  | _, _, .member hl hr, hatomic | _, _, .assign hl hr, hatomic => by
    obtain ⟨hatomicl, hatomicr⟩ := Bool.and_eq_true_iff.1 hatomic
    simp only [Expr.anywhere, Addressed.anywhere_eq hl hatomicl, Addressed.anywhere_eq hr hatomicr]
  | _, _, .cond ht hc he, hatomic => by
    obtain ⟨hatomic, hatomice⟩ := Bool.and_eq_true_iff.1 hatomic
    obtain ⟨hatomict, hatomicc⟩ := Bool.and_eq_true_iff.1 hatomic
    simp only [Expr.anywhere, Addressed.anywhere_eq ht hatomict, Addressed.anywhere_eq hc hatomicc,
      Addressed.anywhere_eq he hatomice]
  | _, _, .method _ hf hes, hatomic => by
    obtain ⟨hatomic, hatomices⟩ := Bool.and_eq_true_iff.1 hatomic
    obtain ⟨_, hatomicf⟩ := Bool.and_eq_true_iff.1 hatomic
    simp only [Expr.anywhere, Addressed.anywhere_eq hf hatomicf,
      ExprsAddressed.anywhere_eq hes hatomices]
  | _, _, .call _ hprimitive _ _, hatomic => by
    simp only [Expr.isAtomic, hprimitive, Bool.false_and, Bool.false_eq_true] at hatomic
  | _, _, .num .., _ | _, _, .str .., _ | _, _, .bool .., _ | _, _, .null _, _
  | _, _, .undefined _, _ | _, _, .var .., _ | _, _, .func .., _ => rfl

theorem ExprsAddressed.anywhere_eq : ∀ {es es' : List Expr}, ExprsAddressed a es es' →
    allAtomic es = true → anywhereIn p es' = anywhereIn p es
  | _, _, .nil _, _ => rfl
  | _, _, .cons he hes, hatomic => by
    obtain ⟨hatomice, hatomices⟩ := Bool.and_eq_true_iff.1 hatomic
    simp only [anywhereIn, Addressed.anywhere_eq he hatomice,
      ExprsAddressed.anywhere_eq hes hatomices]

theorem FieldsAddressed.anywhere_eq : ∀ {fs fs' : List (String × Expr)},
    FieldsAddressed a fs fs' → allFieldsAtomic fs = true →
    anywhereInFields p fs' = anywhereInFields p fs
  | _, _, .nil _, _ => rfl
  | _, _, .cons _ he hfs, hatomic => by
    obtain ⟨hatomice, hatomicfs⟩ := Bool.and_eq_true_iff.1 hatomic
    simp only [anywhereInFields, Addressed.anywhere_eq he hatomice,
      FieldsAddressed.anywhere_eq hfs hatomicfs]

end

end Addresses

end Chance
