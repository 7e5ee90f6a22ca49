import Chance.Machine.Eval
import Chance.Proofs.Likeness.Primitives
import Chance.Proofs.Syntax.Usages

/-!
# Forms around operands

Most forms are evaluated in one way: the operands are evaluated one after another, and a value is
made of what they give. What is shown of evaluation by induction is shown of these forms at once;
choices, functions and assignments remain.

- `Formed`: a form, its operands, and what is made of their values,
- `Expr.form_induction`: induction over expressions as they are evaluated,
- `Formed.inStep`: what is made of related values is related.
-/

namespace Chance

open Compile

/-- The name of the store. -/
def Expr.isStore : Expr → Bool
  | .var x => x == Expr.storeName
  | _ => false

/-- A property of the store, which is all that can be assigned to. -/
def Expr.isPlace : Expr → Bool
  | .member o _ => o.isStore
  | _ => false

/-- The expression is a form around operands; `wrap` is the form, and `make` computes its value from
those of the operands. -/
inductive Formed : Expr → List Expr → (List Expr → Expr) → (List Value → Exec Value) → Prop
  | array (es : List Expr) : Formed (.array es) es .array fun vs => pure (.array vs)
  | object (fs : List (String × Expr)) :
      Formed (.object fs) (fs.map Prod.snd) (fun xs => .object ((fs.map Prod.fst).zip xs))
        fun vs => pure (.object (addFields [] (fs.map Prod.fst) vs))
  | unary (op : UnaryOp) (e : Expr) :
      Formed (.unary op e) [e] (fun xs => .unary op (part xs 0)) fun vs =>
        liftM (op.apply (argument vs 0))
  | binary (op : BinaryOp) (l r : Expr) :
      Formed (.binary l r op) [l, r] (fun xs => .binary (part xs 0) (part xs 1) op) fun vs =>
        liftM (op.apply (argument vs 0) (argument vs 1))
  | member (o p : Expr) :
      Formed (.member o p) [o, p] (fun xs => .member (part xs 0) (part xs 1)) fun vs =>
        liftM (member (argument vs 0) (argument vs 1))
  | method {o p : Expr} (h : (Expr.member o p).isPrimitive = true) (es : List Expr) :
      Formed (.call (.member o p) es) (o :: p :: es)
        (fun xs => .call (.member (part xs 0) (part xs 1)) (xs.drop 2)) fun vs =>
          callMethod (argument vs 0) (argument vs 1).key (vs.drop 2)

/-! ## Evaluation -/

/-- The parts of an expression that are evaluated with it are in the class. -/
def Expr.Parts (A : Expr → Prop) : Expr → Prop
  | .array es => ∀ e ∈ es, A e
  | .object fs => ∀ f ∈ fs, A f.2
  | .unary _ e => A e
  | .binary l r _ | .logic l r _ | .member l r | .assign l r => A l ∧ A r
  | .cond t c a => A t ∧ A c ∧ A a
  | .call f es => A f ∧ ∀ e ∈ es, A e
  | .func .. | .num _ | .str _ | .bool _ | .null | .undefined | .var _ => True

section Evaluation

variable {e : Expr} {es : List Expr} {wrap : List Expr → Expr} {make : List Value → Exec Value}

theorem evalFields_eq (env : Env) (fs : List (String × Expr)) (before : List (String × Value)) :
    evalFields env fs before =
      evalAll env (fs.map Prod.snd) >>= fun vs => pure (addFields before (fs.map Prod.fst) vs) := by
  induction fs generalizing before with
  | nil => simp [evalFields, evalAll, addFields]
  | cons f fs ih =>
    simp only [evalFields, ih, List.map_cons, evalAll, bind_assoc, pure_bind]
    rfl

theorem Formed.eval (h : Formed e es wrap make) (env : Env) :
    eval env e = evalAll env es >>= make := by
  cases h with
  | array => rfl
  | object => simp only [Chance.eval, evalFields_eq, bind_assoc, pure_bind]
  | unary | binary | member =>
    simp only [Chance.eval, evalAll, bind_assoc, pure_bind]
    rfl
  | method h =>
    simp only [Chance.eval, evalAll, if_pos h, bind_assoc, pure_bind]
    rfl

theorem eval_call_other {f : Expr} (h : f.isPrimitive = false) (env : Env) (es : List Expr) :
    eval env (.call f es) = throw (.compile .eval .callOutsideTail (Expr.call f es).outline) := by
  cases f with
  | member o p => simp only [eval, h, Bool.false_eq_true, if_false]
  | _ => rfl

theorem eval_assign_other {t : Expr} (h : t.isPlace = false) (env : Env) (v : Expr) :
    eval env (.assign t v) = throw (.type .notAssignable) := by
  cases t with
  | member o p =>
    cases o with
    | var x =>
      have hx : ¬ x = Expr.storeName := beq_eq_false_iff_ne.1 h
      simp only [eval, if_neg hx]
    | _ => rfl
  | _ => rfl

/-- Operands are parts, or parts of a callee. -/
theorem Formed.operands (h : Formed e es wrap make) {A : Expr → Prop} (hA : ∀ {e}, A e → e.Parts A)
    (he : A e) : ∀ d ∈ es, A d := by
  have hparts := hA he
  cases h with
  | array => exact hparts
  | object => exact List.forall_mem_map.2 hparts
  | unary => exact List.forall_mem_singleton.2 hparts
  | binary | member =>
    exact List.forall_mem_cons.2 ⟨hparts.1, List.forall_mem_singleton.2 hparts.2⟩
  | method =>
    have hcallee := hA hparts.1
    exact List.forall_mem_cons.2 ⟨hcallee.1, List.forall_mem_cons.2 ⟨hcallee.2, hparts.2⟩⟩

theorem Formed.inStep (h : Formed e es wrap make) {R : Value → Value → Prop} (L : Likeness R)
    {vs ws : List Value} (hs : List.Forall₂ R vs ws) : InStep R (make vs) (make ws) := by
  have harg (i : Nat) := L.argument hs i
  cases h with
  | array => exact .pure (L.array hs)
  | object => exact .pure (L.semblance.object (Semblance.addFields hs _ .nil))
  | unary op => exact .lift (L.semblance.unary op (harg 0))
  | binary op =>
    exact .lift (L.semblance.binary op (harg 0) (harg 1) (fun _ _ _ => L.key_eq (harg 0))
      fun _ _ _ => L.key_eq (harg 1))
  | member => exact .lift (L.semblance.member (harg 0) (harg 1) fun _ _ => L.key_eq (harg 1))
  | method =>
    simp only [L.key_eq (harg 1)]
    exact L.method_inStep (harg 0) _ (List.forall₂_drop 2 hs)

end Evaluation

/-! ## Induction -/

section Induction

set_option linter.unusedSectionVars false

variable {P : Expr → Prop} (num : ∀ x, P (.num x)) (str : ∀ s, P (.str s)) (bool : ∀ b, P (.bool b))
  (null : P .null) (undefined : P .undefined) (var : ∀ x, P (.var x))
  (formed : ∀ {e es wrap make}, Formed e es wrap make → (∀ d ∈ es, P d) → P e)
  (logic : ∀ {l r} op, P l → P r → P (.logic l r op))
  (cond : ∀ {t c a}, P t → P c → P a → P (.cond t c a))
  (func : ∀ name params body, P (.func name params body))
  (assign : ∀ {p v}, P p → P v → P (.assign (.member (.var Expr.storeName) p) v))
  (call_other : ∀ {f} es, f.isPrimitive = false → P f → (∀ d ∈ es, P d) → P (.call f es))
  (assign_other : ∀ {t} v, t.isPlace = false → P (.assign t v))
include num str bool null undefined var formed logic cond func assign call_other assign_other

mutual

/-- What holds of forms around operands of which it holds, and of all else that is evaluated, holds
of every expression. -/
theorem Expr.form_induction : ∀ e : Expr, P e
  | .num x => num x
  | .str s => str s
  | .bool b => bool b
  | .null => null
  | .undefined => undefined
  | .var x => var x
  | .array es => formed (.array es) (exprs_form_induction es)
  | .object fs => formed (.object fs) (fields_form_induction fs)
  | .unary op e => formed (.unary op e) (List.forall_mem_singleton.2 (Expr.form_induction e))
  | .binary l r op => formed (.binary op l r) (List.forall_mem_cons.2
      ⟨Expr.form_induction l, List.forall_mem_singleton.2 (Expr.form_induction r)⟩)
  | .member o p => formed (.member o p) (List.forall_mem_cons.2
      ⟨Expr.form_induction o, List.forall_mem_singleton.2 (Expr.form_induction p)⟩)
  | .logic l r op => logic op (Expr.form_induction l) (Expr.form_induction r)
  | .cond t c a => cond (Expr.form_induction t) (Expr.form_induction c) (Expr.form_induction a)
  | .func name params body => func name params body
  | .call f es => by
    cases hprimitive : f.isPrimitive with
    | false => exact call_other es hprimitive (Expr.form_induction f) (exprs_form_induction es)
    | true =>
      match f, hprimitive with
      | .member o p, hprimitive =>
        exact formed (.method hprimitive es) (List.forall_mem_cons.2 ⟨Expr.form_induction o,
          List.forall_mem_cons.2 ⟨Expr.form_induction p, exprs_form_induction es⟩⟩)
  | .assign t v => by
    cases hplace : t.isPlace with
    | false => exact assign_other v hplace
    | true =>
      match t, hplace with
      | .member (.var x) p, hplace =>
        obtain rfl := beq_iff_eq.1 hplace
        exact assign (Expr.form_induction p) (Expr.form_induction v)

theorem exprs_form_induction : ∀ es : List Expr, ∀ d ∈ es, P d
  | [] => List.forall_mem_nil _
  | e :: es => List.forall_mem_cons.2 ⟨Expr.form_induction e, exprs_form_induction es⟩

theorem fields_form_induction : ∀ fs : List (String × Expr), ∀ d ∈ fs.map Prod.snd, P d
  | [] => List.forall_mem_nil _
  | (_, e) :: fs => List.forall_mem_cons.2 ⟨Expr.form_induction e, fields_form_induction fs⟩

end

end Induction

end Chance
