import Chance.Proofs.Syntax.Names
import Chance.Proofs.Syntax.Compiled

/-!
# Code with addresses beside the program

With addresses, every function has one more parameter and every call that is not primitive has one
more argument. The two programs are related tree by tree.

- `Addressed`, `StmtsAddressed`: a tree and the same tree with addresses,
- `addressExpr_addressed`: the pass that adds addresses gives such a tree,
- `Addressed.flatten`: linear form keeps trees so related.
-/

namespace Chance

open Compile

def Expr.isVar : Expr → Bool
  | .var _ => true
  | _ => false

def Expr.isStr : Expr → Bool
  | .str _ => true
  | _ => false

theorem Expr.isPrimitive_member (o p : Expr) :
    (Expr.member o p).isPrimitive = (o.isVar || p.isStr) := by
  cases o <;> cases p <;> rfl

namespace Compile

theorem flatten_isPrimitive (e : Expr) : e.flatten.isPrimitive = e.isPrimitive := by
  cases e with
  | member o p => cases o <;> cases p <;> rfl
  | _ => rfl

end Compile

mutual

/-- The second expression is the first one with addresses, in the function with address `a`. -/
inductive Addressed : String → Expr → Expr → Prop
  | num (a : String) (x : Float) : Addressed a (.num x) (.num x)
  | str (a : String) (s : String) : Addressed a (.str s) (.str s)
  | bool (a : String) (b : Bool) : Addressed a (.bool b) (.bool b)
  | null (a : String) : Addressed a .null .null
  | undefined (a : String) : Addressed a .undefined .undefined
  | var (a : String) (x : String) : Addressed a (.var x) (.var x)
  | array {a : String} {es es' : List Expr} :
      ExprsAddressed a es es' → Addressed a (.array es) (.array es')
  | object {a : String} {fs fs' : List (String × Expr)} :
      FieldsAddressed a fs fs' → Addressed a (.object fs) (.object fs')
  | unary {a : String} {e e' : Expr} (op : UnaryOp) :
      Addressed a e e' → Addressed a (.unary op e) (.unary op e')
  | binary {a : String} {l l' r r' : Expr} (op : BinaryOp) :
      Addressed a l l' → Addressed a r r' → Addressed a (.binary l r op) (.binary l' r' op)
  | logic {a : String} {l l' r r' : Expr} (op : LogicOp) :
      Addressed a l l' → Addressed a r r' → Addressed a (.logic l r op) (.logic l' r' op)
  | cond {a : String} {t t' c c' e e' : Expr} :
      Addressed a t t' → Addressed a c c' → Addressed a e e' →
      Addressed a (.cond t c e) (.cond t' c' e')
  | member {a : String} {o o' p p' : Expr} :
      Addressed a o o' → Addressed a p p' → Addressed a (.member o p) (.member o' p')
  | method {a : String} {f f' : Expr} {es es' : List Expr} :
      f.isPrimitive = true → Addressed a f f' → ExprsAddressed a es es' →
      Addressed a (.call f es) (.call f' es')
  | call {a : String} {f f' : Expr} {es es' : List Expr} (fragment : String) :
      f.isPrimitive = false → Addressed a f f' → ExprsAddressed a es es' →
      Addressed a (.call f es) (.call f' (extended a (.str fragment) :: es'))
  | func {a inner : String} {body body' : List Stmt} (name : Option String)
      (params : List String) :
      IsAddressName inner → StmtsAddressed inner body body' →
      Addressed a (.func name params body) (.func name (inner :: params) body')
  | assign {a : String} {t t' v v' : Expr} :
      Addressed a t t' → Addressed a v v' → Addressed a (.assign t v) (.assign t' v')

inductive ExprsAddressed : String → List Expr → List Expr → Prop
  | nil (a : String) : ExprsAddressed a [] []
  | cons {a : String} {e e' : Expr} {es es' : List Expr} :
      Addressed a e e' → ExprsAddressed a es es' → ExprsAddressed a (e :: es) (e' :: es')

inductive FieldsAddressed : String → List (String × Expr) → List (String × Expr) → Prop
  | nil (a : String) : FieldsAddressed a [] []
  | cons {a : String} {e e' : Expr} {fs fs' : List (String × Expr)} (key : String) :
      Addressed a e e' → FieldsAddressed a fs fs' →
      FieldsAddressed a ((key, e) :: fs) ((key, e') :: fs')

inductive StmtAddressed : String → Stmt → Stmt → Prop
  | empty (a : String) : StmtAddressed a .empty .empty
  | expr {a : String} {e e' : Expr} : Addressed a e e' → StmtAddressed a (.expr e) (.expr e')
  | ret {a : String} {e e' : Expr} : Addressed a e e' → StmtAddressed a (.ret e) (.ret e')
  | declare {a : String} {ds ds' : List (String × Expr)} :
      FieldsAddressed a ds ds' → StmtAddressed a (.declare ds) (.declare ds')
  | ifElse {a : String} {t t' : Expr} {c c' e e' : List Stmt} :
      Addressed a t t' → StmtsAddressed a c c' → StmtsAddressed a e e' →
      StmtAddressed a (.ifElse t c e) (.ifElse t' c' e')
  | block {a : String} {body body' : List Stmt} :
      StmtsAddressed a body body' → StmtAddressed a (.block body) (.block body')

inductive StmtsAddressed : String → List Stmt → List Stmt → Prop
  | nil (a : String) : StmtsAddressed a [] []
  | cons {a : String} {s s' : Stmt} {ss ss' : List Stmt} :
      StmtAddressed a s s' → StmtsAddressed a ss ss' → StmtsAddressed a (s :: ss) (s' :: ss')

end

/-! ## The pass -/

namespace Compile

mutual

theorem addressExpr_addressed (a : String) :
    ∀ e : Expr, Gen.Yields (Addressed a e) (addressExpr a e)
  | .array es => (addressExprs_addressed a es).bind fun _ h => .pure (.array h)
  | .object fs => (addressFields_addressed a fs).bind fun _ h => .pure (.object h)
  | .unary op e => (addressExpr_addressed a e).bind fun _ h => .pure (.unary op h)
  | .binary l r op =>
    (addressExpr_addressed a l).bind fun _ hl => (addressExpr_addressed a r).bind fun _ hr =>
      .pure (.binary op hl hr)
  | .logic l r op =>
    (addressExpr_addressed a l).bind fun _ hl => (addressExpr_addressed a r).bind fun _ hr =>
      .pure (.logic op hl hr)
  | .cond t c e =>
    (addressExpr_addressed a t).bind fun _ ht => (addressExpr_addressed a c).bind fun _ hc =>
      (addressExpr_addressed a e).bind fun _ he => .pure (.cond ht hc he)
  | .member o p =>
    (addressExpr_addressed a o).bind fun _ ho => (addressExpr_addressed a p).bind fun _ hp =>
      .pure (.member ho hp)
  | .assign t v =>
    (addressExpr_addressed a t).bind fun _ ht => (addressExpr_addressed a v).bind fun _ hv =>
      .pure (.assign ht hv)
  | .call f es => by
    refine (addressExpr_addressed a f).bind fun f' hf => ?_
    refine (addressExprs_addressed a es).bind fun es' hes => ?_
    split_ifs with hprimitive
    · exact .pure (.method hprimitive hf hes)
    · have hcall (s : String) := Addressed.call s (Bool.eq_false_iff.2 hprimitive) hf hes
      refine Gen.Yields.bind (P := fun l => ∃ s, l = .str s) (fun _ => ⟨_, rfl⟩) ?_
      rintro _ ⟨s, rfl⟩
      exact .pure (hcall s)
  | .func name params body => by
    refine Gen.Yields.bind (P := IsAddressName) (fun n => ⟨n, rfl⟩) fun inner hinner => ?_
    exact (addressStmts_addressed inner body).bind fun _ h => .pure (.func name params hinner h)
  | .num x => .pure (.num a x)
  | .str s => .pure (.str a s)
  | .bool b => .pure (.bool a b)
  | .null => .pure (.null a)
  | .undefined => .pure (.undefined a)
  | .var x => .pure (.var a x)

theorem addressExprs_addressed (a : String) :
    ∀ es : List Expr, Gen.Yields (ExprsAddressed a es) (addressExprs a es)
  | [] => .pure (.nil a)
  | e :: es =>
    (addressExpr_addressed a e).bind fun _ he => (addressExprs_addressed a es).bind fun _ hes =>
      .pure (.cons he hes)

theorem addressFields_addressed (a : String) :
    ∀ fs : List (String × Expr), Gen.Yields (FieldsAddressed a fs) (addressFields a fs)
  | [] => .pure (.nil a)
  | (key, e) :: fs =>
    (addressExpr_addressed a e).bind fun _ he => (addressFields_addressed a fs).bind fun _ hfs =>
      .pure (.cons key he hfs)

theorem addressStmt_addressed (a : String) :
    ∀ s : Stmt, Gen.Yields (StmtAddressed a s) (addressStmt a s)
  | .empty => .pure (.empty a)
  | .expr e => (addressExpr_addressed a e).bind fun _ he => .pure (.expr he)
  | .ret e => (addressExpr_addressed a e).bind fun _ he => .pure (.ret he)
  | .declare ds => (addressFields_addressed a ds).bind fun _ hds => .pure (.declare hds)
  | .block body => (addressStmts_addressed a body).bind fun _ hbody => .pure (.block hbody)
  | .ifElse t c e =>
    (addressExpr_addressed a t).bind fun _ ht => (addressStmts_addressed a c).bind fun _ hc =>
      (addressStmts_addressed a e).bind fun _ he => .pure (.ifElse ht hc he)

theorem addressStmts_addressed (a : String) :
    ∀ ss : List Stmt, Gen.Yields (StmtsAddressed a ss) (addressStmts a ss)
  | [] => .pure (.nil a)
  | s :: ss =>
    (addressStmt_addressed a s).bind fun _ hs => (addressStmts_addressed a ss).bind fun _ hss =>
      .pure (.cons hs hss)

end

end Compile

/-! ## Linear form -/

section Linear

variable {a : String}

mutual

theorem StmtAddressed.hasReturn_eq : ∀ {s s' : Stmt}, StmtAddressed a s s' →
    s'.hasReturn = s.hasReturn
  | _, _, .empty _ | _, _, .expr _ | _, _, .ret _ | _, _, .declare _ => rfl
  | _, _, .block h => StmtsAddressed.anyReturn_eq h
  | _, _, .ifElse _ hc he =>
    congrArg₂ (· || ·) (StmtsAddressed.anyReturn_eq hc) (StmtsAddressed.anyReturn_eq he)

theorem StmtsAddressed.anyReturn_eq : ∀ {ss ss' : List Stmt}, StmtsAddressed a ss ss' →
    anyReturn ss' = anyReturn ss
  | _, _, .nil _ => rfl
  | _, _, .cons hs hss =>
    congrArg₂ (· || ·) (StmtAddressed.hasReturn_eq hs) (StmtsAddressed.anyReturn_eq hss)

end

mutual

theorem StmtAddressed.linearizeOnto : ∀ {s s' : Stmt} {after after' : List Stmt},
    StmtAddressed a s s' → StmtsAddressed a after after' →
    StmtsAddressed a (s.linearizeOnto after) (s'.linearizeOnto after')
  | _, _, _, _, .empty _, hafter => .cons (.empty a) hafter
  | _, _, _, _, .expr he, hafter => .cons (.expr he) hafter
  | _, _, _, _, .ret he, _ => .cons (.expr he) (.nil a)
  | _, _, _, _, .declare hds, hafter => .cons (.declare hds) hafter
  | _, _, _, _, .block hbody, hafter => StmtsAddressed.linearizeOnto hbody hafter
  | _, _, after, after', .ifElse ht hc he, hafter => by
    rw [Stmt.linearizeOnto, Stmt.linearizeOnto, hc.anyReturn_eq, he.anyReturn_eq]
    split_ifs
    · have hc' := StmtsAddressed.linearizeOnto hc hafter
      have he' := StmtsAddressed.linearizeOnto he hafter
      exact .cons (.ifElse ht hc' he') (.nil a)
    · exact .cons (.ifElse ht hc he) hafter

theorem StmtsAddressed.linearizeOnto : ∀ {ss ss' after after' : List Stmt},
    StmtsAddressed a ss ss' → StmtsAddressed a after after' →
    StmtsAddressed a (linearizeOnto ss after) (linearizeOnto ss' after')
  | _, _, _, _, .nil _, hafter => hafter
  | _, _, _, _, .cons hs hss, hafter =>
    StmtAddressed.linearizeOnto hs (StmtsAddressed.linearizeOnto hss hafter)

end

mutual

theorem Addressed.flatten : ∀ {a : String} {e e' : Expr}, Addressed a e e' →
    Addressed a e.flatten e'.flatten
  | _, _, _, .num a x => .num a x
  | _, _, _, .str a s => .str a s
  | _, _, _, .bool a b => .bool a b
  | _, _, _, .null a => .null a
  | _, _, _, .undefined a => .undefined a
  | _, _, _, .var a x => .var a x
  | _, _, _, .array hes => .array (ExprsAddressed.flatten hes)
  | _, _, _, .object hfs => .object (FieldsAddressed.flatten hfs)
  | _, _, _, .unary op he => .unary op (Addressed.flatten he)
  | _, _, _, .binary op hl hr => .binary op (Addressed.flatten hl) (Addressed.flatten hr)
  | _, _, _, .logic op hl hr => .logic op (Addressed.flatten hl) (Addressed.flatten hr)
  | _, _, _, .cond ht hc he =>
    .cond (Addressed.flatten ht) (Addressed.flatten hc) (Addressed.flatten he)
  | _, _, _, .member ho hp => .member (Addressed.flatten ho) (Addressed.flatten hp)
  | _, _, _, .method hprimitive hf hes =>
    .method ((flatten_isPrimitive _).trans hprimitive) (Addressed.flatten hf)
      (ExprsAddressed.flatten hes)
  | _, _, _, .call s hprimitive hf hes =>
    .call s ((flatten_isPrimitive _).trans hprimitive) (Addressed.flatten hf)
      (ExprsAddressed.flatten hes)
  | _, _, _, .func name params hinner hbody =>
    .func name params hinner ((StmtsAddressed.flatten hbody).linearizeOnto (.nil _))
  | _, _, _, .assign ht hv => .assign (Addressed.flatten ht) (Addressed.flatten hv)

theorem ExprsAddressed.flatten : ∀ {a : String} {es es' : List Expr}, ExprsAddressed a es es' →
    ExprsAddressed a (flattenExprs es) (flattenExprs es')
  | _, _, _, .nil a => .nil a
  | _, _, _, .cons he hes => .cons (Addressed.flatten he) (ExprsAddressed.flatten hes)

theorem FieldsAddressed.flatten : ∀ {a : String} {fs fs' : List (String × Expr)},
    FieldsAddressed a fs fs' → FieldsAddressed a (flattenFields fs) (flattenFields fs')
  | _, _, _, .nil a => .nil a
  | _, _, _, .cons key he hfs => .cons key (Addressed.flatten he) (FieldsAddressed.flatten hfs)

theorem StmtAddressed.flatten : ∀ {a : String} {s s' : Stmt}, StmtAddressed a s s' →
    StmtAddressed a s.flatten s'.flatten
  | _, _, _, .empty a => .empty a
  | _, _, _, .expr he => .expr (Addressed.flatten he)
  | _, _, _, .ret he => .ret (Addressed.flatten he)
  | _, _, _, .declare hds => .declare (FieldsAddressed.flatten hds)
  | _, _, _, .ifElse ht hc he =>
    .ifElse (Addressed.flatten ht) (StmtsAddressed.flatten hc) (StmtsAddressed.flatten he)
  | _, _, _, .block hbody => .block (StmtsAddressed.flatten hbody)

theorem StmtsAddressed.flatten : ∀ {a : String} {ss ss' : List Stmt}, StmtsAddressed a ss ss' →
    StmtsAddressed a (flattenStmts ss) (flattenStmts ss')
  | _, _, _, .nil a => .nil a
  | _, _, _, .cons hs hss => .cons (StmtAddressed.flatten hs) (StmtsAddressed.flatten hss)

end

end Linear

/-! ## What addresses leave alone -/

section Same

variable {a : String}

theorem Addressed.isPrimitive_eq : ∀ {e e' : Expr}, Addressed a e e' →
    e'.isPrimitive = e.isPrimitive
  | _, _, .member ho hp => by
    rw [Expr.isPrimitive_member, Expr.isPrimitive_member]
    cases ho <;> cases hp <;> rfl
  | _, _, .num .. | _, _, .str .. | _, _, .bool .. | _, _, .null _ | _, _, .undefined _
  | _, _, .var .. | _, _, .array _ | _, _, .object _ | _, _, .unary .. | _, _, .binary ..
  | _, _, .logic .. | _, _, .cond .. | _, _, .method .. | _, _, .call .. | _, _, .func ..
  | _, _, .assign .. => rfl

mutual

theorem Addressed.isAtomic_eq : ∀ {e e' : Expr}, Addressed a e e' → e'.isAtomic = e.isAtomic
  | _, _, .array h => ExprsAddressed.isAtomic_eq h
  | _, _, .object h => FieldsAddressed.isAtomic_eq h
  | _, _, .unary _ h => by simp only [Expr.isAtomic, Addressed.isAtomic_eq h]
  | _, _, .binary _ hl hr | _, _, .logic _ hl hr | _, _, .member hl hr | _, _, .assign hl hr =>
    congrArg₂ (· && ·) (Addressed.isAtomic_eq hl) (Addressed.isAtomic_eq hr)
  | _, _, .cond ht hc he =>
    congrArg₂ (· && ·)
      (congrArg₂ (· && ·) (Addressed.isAtomic_eq ht) (Addressed.isAtomic_eq hc))
      (Addressed.isAtomic_eq he)
  | _, _, .method _ hf hes => by
    simp only [Expr.isAtomic, hf.isPrimitive_eq, Addressed.isAtomic_eq hf,
      ExprsAddressed.isAtomic_eq hes]
  | _, _, .call _ hprimitive hf _ => by
    simp only [Expr.isAtomic, hf.isPrimitive_eq, hprimitive, Bool.false_and]
  | _, _, .num .. | _, _, .str .. | _, _, .bool .. | _, _, .null _ | _, _, .undefined _
  | _, _, .var .. | _, _, .func .. => rfl

theorem ExprsAddressed.isAtomic_eq : ∀ {es es' : List Expr}, ExprsAddressed a es es' →
    allAtomic es' = allAtomic es
  | _, _, .nil _ => rfl
  | _, _, .cons he hes =>
    congrArg₂ (· && ·) (Addressed.isAtomic_eq he) (ExprsAddressed.isAtomic_eq hes)

theorem FieldsAddressed.isAtomic_eq : ∀ {fs fs' : List (String × Expr)},
    FieldsAddressed a fs fs' → allFieldsAtomic fs' = allFieldsAtomic fs
  | _, _, .nil _ => rfl
  | _, _, .cons _ he hfs =>
    congrArg₂ (· && ·) (Addressed.isAtomic_eq he) (FieldsAddressed.isAtomic_eq hfs)

end

theorem FieldsAddressed.keys_eq : ∀ {fs fs' : List (String × Expr)},
    FieldsAddressed a fs fs' → fs'.map Prod.fst = fs.map Prod.fst
  | _, _, .nil _ => rfl
  | _, _, .cons key _ hfs => congrArg (key :: ·) (FieldsAddressed.keys_eq hfs)

end Same

end Chance
