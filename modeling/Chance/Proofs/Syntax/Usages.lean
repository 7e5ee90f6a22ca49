import Chance.Compile.Pipeline

/-!
# Usages by their parts

Most forms are used in one way: the operands are made available one after another, and the form is
put around what is left of them. Whether its value is then named or used as it is, is all that
differs. A statement goes on with what follows it, which is the continuation of the list if nothing
does.

- `Compile.Usage.formed`: a form around several operands,
- `Compile.usage_binary`, `Compile.usage_object`, …: the usages of forms as such,
- `Compile.following`: the continuation of a statement, given the statements after it.
-/

namespace Chance

/-- The function of a binding without a name of its own goes by the name it is bound to. -/
def Expr.called (x : String) : Expr → Expr
  | .func none params body => .func (some x) params body
  | e => e

namespace Compile

open Usage

/-! ## Forms -/

theorem usage_use : ∀ {e : Expr}, e.isAtomic = true →
    ∀ build : Build Expr, (usage e).use build = (usage e).keep >>= build
  | .array _, h, _ | .object _, h, _ | .unary .., h, _ | .binary .., h, _ | .logic .., h, _
  | .cond .., h, _ | .member .., h, _ | .call .., h, _ | .assign .., h, _ => if_pos h
  | .num _, _, _ | .str _, _, _ | .bool _, _, _ | .null, _, _ | .undefined, _, _ | .var _, _, _
  | .func .., _, _ => rfl

theorem Usage.make_use {atomic : Bool} {keep : Gen Expr} {pass : Build Expr}
    {use : Build Expr → Gen Expr} (h : atomic = false) : (make atomic keep pass use).use = use := by
  subst h
  rfl

theorem use_member (o p : Expr) (build : Build Expr) :
    (usage (.member o p)).use build =
      (usage o).use fun x => (usage p).use fun y => build (.member x y) := by
  cases hatomic : (Expr.member o p).isAtomic with
  | false => exact congrFun (Usage.make_use hatomic) build
  | true =>
    rcases Bool.and_eq_true_iff.1 hatomic with ⟨ho, hp⟩
    rw [usage_use hatomic, usage_use ho]
    change (Usage.member ..).keep >>= build = _
    simp only [usage_use hp, Usage.member, Usage.make, bind_assoc, pure_bind]

/-- One of several operands. -/
def part (es : List Expr) (i : Nat) : Expr :=
  es.getD i .undefined

namespace Usage

/-- Several operands, with the form `wrap` around them. -/
def formed (atomic named : Bool) (wrap : List Expr → Expr) (ds : List Usage) : Usage :=
  let pass : Build Expr := fun k => useAll ds fun es => return resume k (wrap es)
  make atomic (return wrap (← keepAll ds)) pass
    (if named then useResult pass else fun build => useAll ds fun es => build (wrap es))

theorem forall_mem_two {P : Usage → Prop} {d d' : Usage} (h : P d) (h' : P d') :
    ∀ x ∈ [d, d'], P x :=
  List.forall_mem_cons.2 ⟨h, List.forall_mem_singleton.2 h'⟩

theorem keepFields_zip (ds : List (String × Usage)) :
    keepFields ds = keepAll (ds.map Prod.snd) >>= fun es => pure ((ds.map Prod.fst).zip es) := by
  induction ds with
  | nil => rfl
  | cons d ds ih =>
    simp only [keepFields, ih, List.map_cons, keepAll, bind_assoc, pure_bind, List.zip_cons_cons]

theorem useFields_zip (ds : List (String × Usage)) (build : Build (List (String × Expr))) :
    useFields ds build =
      useAll (ds.map Prod.snd) fun es => build ((ds.map Prod.fst).zip es) := by
  induction ds generalizing build with
  | nil => rfl
  | cons d ds ih => simp only [useFields, ih, List.map_cons, useAll, List.zip_cons_cons]

end Usage

theorem allFieldsAtomic_eq (fs : List (String × Expr)) :
    allFieldsAtomic fs = allAtomic (fs.map Prod.snd) := by
  induction fs with
  | nil => rfl
  | cons f fs ih => exact congrArg (f.2.isAtomic && ·) ih

theorem checkFields_eq (fs : List (String × Expr)) :
    checkFields fs = checkPlains (fs.map Prod.snd) := by
  induction fs with
  | nil => rfl
  | cons f fs ih => simp only [checkFields, List.map_cons, checkPlains, ih]

theorem usageFields_keys (fs : List (String × Expr)) :
    (usageFields fs).map Prod.fst = fs.map Prod.fst := by
  induction fs with
  | nil => rfl
  | cons f fs ih => exact congrArg (f.1 :: ·) ih

theorem usageFields_values (fs : List (String × Expr)) :
    (usageFields fs).map Prod.snd = usageAll (fs.map Prod.snd) := by
  induction fs with
  | nil => rfl
  | cons f fs ih => exact congrArg (usage f.2 :: ·) ih

section Forms

variable (e f : Expr)

theorem usageAll_nil : usageAll [] = [] :=
  rfl

theorem usageAll_cons (es : List Expr) : usageAll (e :: es) = usage e :: usageAll es :=
  rfl

theorem usage_var (x : String) : usage (.var x) = leaf (.var x) :=
  rfl

theorem keep_member : (usage (.member e f)).keep = (usage e).keep >>= fun x =>
    (usage f).keep >>= fun y => pure (.member x y) :=
  rfl

theorem usage_array (es : List Expr) :
    usage (.array es) = formed (Expr.array es).isAtomic false .array (usageAll es) :=
  rfl

theorem usage_object (fs : List (String × Expr)) :
    usage (.object fs) = formed (Expr.object fs).isAtomic false
      (fun es => .object ((fs.map Prod.fst).zip es)) (usageAll (fs.map Prod.snd)) := by
  change object .. = _
  simp only [object, formed, keepFields_zip, useFields_zip, usageFields_keys,
    usageFields_values, bind_assoc, pure_bind, Bool.false_eq_true, if_false]

theorem usage_unary (op : UnaryOp) :
    usage (.unary op e) =
      formed (Expr.unary op e).isAtomic false (fun es => .unary op (part es 0)) (usageAll [e]) := by
  change unary .. = _
  simp only [unary, formed, usageAll_nil, usageAll_cons, keepAll, useAll, bind_assoc, pure_bind,
    Bool.false_eq_true, if_false]
  rfl

theorem usage_member :
    usage (.member e f) = formed (Expr.member e f).isAtomic false
      (fun es => .member (part es 0) (part es 1)) (usageAll [e, f]) := by
  change member .. = _
  simp only [member, formed, usageAll_nil, usageAll_cons, keepAll, useAll, bind_assoc, pure_bind,
    Bool.false_eq_true, if_false]
  rfl

theorem usage_binary (op : BinaryOp) :
    usage (.binary e f op) = formed (Expr.binary e f op).isAtomic true
      (fun es => .binary (part es 0) (part es 1) op) (usageAll [e, f]) := by
  change binary .. = _
  simp only [binary, formed, usageAll_nil, usageAll_cons, keepAll, useAll, bind_assoc, pure_bind,
    if_true]
  rfl

theorem usage_assign :
    usage (.assign e f) = formed (Expr.assign e f).isAtomic true
      (fun es => .assign (part es 0) (part es 1)) (usageAll [e, f]) := by
  change binary .. = _
  simp only [binary, formed, usageAll_nil, usageAll_cons, keepAll, useAll, bind_assoc, pure_bind,
    if_true]
  rfl

theorem usage_storeAssign (x : String) :
    usage (.assign (.member (.var x) e) f) =
      formed (Expr.assign (.member (.var x) e) f).isAtomic true
        (fun es => .assign (.member (.var x) (part es 0)) (part es 1)) (usageAll [e, f]) := by
  rw [usage_assign]
  simp only [formed, usageAll_nil, usageAll_cons, keepAll, useAll, use_member]
  simp only [keep_member, usage_var, leaf, bind_assoc, pure_bind]
  rfl

theorem usage_primitive (h : e.isPrimitive = true) (es : List Expr) :
    usage (.call e es) = formed (Expr.call e es).isAtomic true
      (fun es => .call (part es 0) es.tail) (usageAll (e :: es)) := by
  change call .. = _
  simp only [call, formed, usageAll_cons, keepAll, useAll, bind_assoc, pure_bind, if_true, h]
  rfl

theorem usage_method {o p : Expr} (h : (Expr.member o p).isPrimitive = true) (es : List Expr) :
    usage (.call (.member o p) es) = formed (Expr.call (.member o p) es).isAtomic true
      (fun xs => .call (.member (part xs 0) (part xs 1)) (xs.drop 2))
      (usageAll (o :: p :: es)) := by
  rw [usage_primitive _ h]
  simp only [formed, usageAll_cons, keepAll, useAll, use_member]
  simp only [keep_member, bind_assoc, pure_bind]
  rfl

end Forms

/-! ## What follows -/

theorem bindAll_cons (x : String) (e : Expr) (ds : List (String × Expr)) (tail : Gen Expr) :
    bindAll ((x, e) :: ds) tail =
      bindAll ds tail >>= fun rest => (usage (e.called x)).pass (.lambda [x] rest) := by
  cases e with
  | func name params body => cases name <;> rfl
  | _ => rfl

/-- The continuation of a statement before the list. -/
def following (ss : List Stmt) (k : Expr) : Gen Expr :=
  if ss.isEmpty then pure k else ignoring (sequence ss k)

theorem sequence_expr (e : Expr) (ss : List Stmt) (k : Expr) :
    sequence (.expr e :: ss) k = following ss k >>= (usage e).pass := by
  cases ss with
  | nil => exact (pure_bind ..).symm
  | cons s ss => rfl

theorem sequence_block (body ss : List Stmt) (k : Expr) :
    sequence (.block body :: ss) k = following ss k >>= sequence body := by
  cases ss with
  | nil => exact (pure_bind ..).symm
  | cons s ss => rfl

/-- The code of a choice, given a name for its continuation. -/
def choosing (t : Expr) (c a : List Stmt) (k : Expr) : Gen Expr :=
  (usage t).use fun x => do return .cond x (← sequence c k) (← sequence a k)

theorem sequence_choice (t : Expr) (c a ss : List Stmt) (k : Expr) :
    sequence (.ifElse t c a :: ss) k =
      following ss k >>= fun k => nameContinuation k (choosing t c a) := by
  cases ss with
  | nil => exact (pure_bind k fun k => nameContinuation k (choosing t c a)).symm
  | cons s ss => rfl

end Compile

end Chance
