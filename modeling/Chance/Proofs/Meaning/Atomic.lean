import Chance.Proofs.Enumeration.Exhaustive
import Chance.Proofs.Machine.Levels
import Chance.Proofs.Machine.Outcomes

/-!
# Atomic expressions

An atomic expression can be evaluated in place, or converted to code that passes its value to a
continuation. The code is the expression with the continuation moved into its arms; only a left
operand that decides occurs twice, as the test and as the value. So both ways agree unless such an
operand writes to the store.

- `Expr.anywhere`: what occurs in an expression outside of the functions in it,
- `Expr.passed`: an expression with the continuation moved into its arms,
- `pass_eq_keep`: the code of an atomic expression,
- `passing_agrees_with_evaluating`: what it does.
-/

namespace Chance

open Compile

/-! ## What occurs in an expression -/

variable {α β : Type} {m n : Machine} {source : String}

/-- An expression apart from its parts. -/
inductive Form where
  | name (x : String)
  | assignment
  | other
deriving DecidableEq

def Form.isAssignment : Form → Bool
  | .assignment => true
  | _ => false

mutual

/-- Whether the form of the expression or of a part of it is such a one, functions inside it
apart. -/
def Expr.anywhere (p : Form → Bool) : Expr → Bool
  | .array es => p .other || anywhereIn p es
  | .object fs => p .other || anywhereInFields p fs
  | .unary _ e => p .other || e.anywhere p
  | .binary l r _ => p .other || l.anywhere p || r.anywhere p
  | .logic l r _ => p .other || l.anywhere p || r.anywhere p
  | .cond t c a => p .other || t.anywhere p || c.anywhere p || a.anywhere p
  | .member o q => p .other || o.anywhere p || q.anywhere p
  | .call f es => p .other || f.anywhere p || anywhereIn p es
  | .assign t v => p .assignment || t.anywhere p || v.anywhere p
  | .var x => p (.name x)
  | .num _ | .str _ | .bool _ | .null | .undefined | .func .. => p .other
termination_by structural e => e

def anywhereIn (p : Form → Bool) : List Expr → Bool
  | [] => false
  | e :: es => e.anywhere p || anywhereIn p es
termination_by structural es => es

def anywhereInFields (p : Form → Bool) : List (String × Expr) → Bool
  | [] => false
  | (_, e) :: fs => e.anywhere p || anywhereInFields p fs
termination_by structural fs => fs

end

theorem anywhereInFields_eq (p : Form → Bool) (fs : List (String × Expr)) :
    anywhereInFields p fs = anywhereIn p (fs.map Prod.snd) := by
  induction fs with
  | nil => rfl
  | cons f fs ih => exact congrArg (f.2.anywhere p || ·) ih

/-- Whether evaluating the expression may write to the store. -/
def Expr.writes (e : Expr) : Bool :=
  e.anywhere Form.isAssignment

/-- Whether a left operand whose value the expression may have, without evaluating more, writes. -/
def Expr.decidesByWriting : Expr → Bool
  | .cond _ c a => c.decidesByWriting || a.decidesByWriting
  | .logic l r _ => l.writes || r.decidesByWriting
  | _ => false

/-- Whether the expression is one of others, as it turns out. -/
def Expr.isChoice : Expr → Bool
  | .cond .. | .logic .. => true
  | _ => false

section Flattening

variable (p : Form → Bool)

mutual

theorem Expr.anywhere_flatten : ∀ e : Expr, e.flatten.anywhere p = e.anywhere p
  | .array es => by simp only [Expr.flatten, Expr.anywhere, anywhereIn_flatten es]
  | .object fs => by simp only [Expr.flatten, Expr.anywhere, anywhereInFields_flatten fs]
  | .unary _ e => by simp only [Expr.flatten, Expr.anywhere, e.anywhere_flatten]
  | .binary l r _ => by
    simp only [Expr.flatten, Expr.anywhere, l.anywhere_flatten, r.anywhere_flatten]
  | .logic l r _ => by
    simp only [Expr.flatten, Expr.anywhere, l.anywhere_flatten, r.anywhere_flatten]
  | .cond t c a => by
    simp only [Expr.flatten, Expr.anywhere, t.anywhere_flatten, c.anywhere_flatten,
      a.anywhere_flatten]
  | .member o q => by
    simp only [Expr.flatten, Expr.anywhere, o.anywhere_flatten, q.anywhere_flatten]
  | .call f es => by
    simp only [Expr.flatten, Expr.anywhere, f.anywhere_flatten, anywhereIn_flatten es]
  | .assign t v => by
    simp only [Expr.flatten, Expr.anywhere, t.anywhere_flatten, v.anywhere_flatten]
  | .func .. => rfl
  | .num _ | .str _ | .bool _ | .null | .undefined | .var _ => rfl

theorem anywhereIn_flatten : ∀ es : List Expr, anywhereIn p (flattenExprs es) = anywhereIn p es
  | [] => rfl
  | e :: es => by
    simp only [flattenExprs, anywhereIn, e.anywhere_flatten, anywhereIn_flatten es]

theorem anywhereInFields_flatten :
    ∀ fs : List (String × Expr), anywhereInFields p (flattenFields fs) = anywhereInFields p fs
  | [] => rfl
  | (_, e) :: fs => by
    simp only [flattenFields, anywhereInFields, e.anywhere_flatten, anywhereInFields_flatten fs]

end

end Flattening

theorem Expr.decidesByWriting_flatten : ∀ e : Expr, e.flatten.decidesByWriting = e.decidesByWriting
  | .cond _ c a => by
    simp only [Expr.flatten, Expr.decidesByWriting, c.decidesByWriting_flatten,
      a.decidesByWriting_flatten]
  | .logic l r _ => by
    simp only [Expr.flatten, Expr.decidesByWriting, Expr.writes, l.anywhere_flatten,
      r.decidesByWriting_flatten]
  | .array _ | .object _ | .unary .. | .binary .. | .member .. | .call .. | .assign ..
  | .func .. | .num _ | .str _ | .bool _ | .null | .undefined | .var _ => rfl

mutual

theorem Expr.isAtomic_flatten : ∀ e : Expr, e.flatten.isAtomic = e.isAtomic
  | .array es => allAtomic_flatten es
  | .object fs => allFieldsAtomic_flatten fs
  | .unary _ e => e.isAtomic_flatten
  | .binary l r _ | .logic l r _ | .member l r | .assign l r => by
    simp only [Expr.flatten, Expr.isAtomic, l.isAtomic_flatten, r.isAtomic_flatten]
  | .cond t c a => by
    simp only [Expr.flatten, Expr.isAtomic, t.isAtomic_flatten, c.isAtomic_flatten,
      a.isAtomic_flatten]
  | .call f es => by
    simp only [Expr.flatten, Expr.isAtomic, flatten_isPrimitive, f.isAtomic_flatten,
      allAtomic_flatten es]
  | .func .. | .num _ | .str _ | .bool _ | .null | .undefined | .var _ => rfl

theorem allAtomic_flatten : ∀ es : List Expr, allAtomic (flattenExprs es) = allAtomic es
  | [] => rfl
  | e :: es => by simp only [flattenExprs, allAtomic, e.isAtomic_flatten, allAtomic_flatten es]

theorem allFieldsAtomic_flatten :
    ∀ fs : List (String × Expr), allFieldsAtomic (flattenFields fs) = allFieldsAtomic fs
  | [] => rfl
  | (_, e) :: fs => by
    simp only [flattenFields, allFieldsAtomic, e.isAtomic_flatten, allFieldsAtomic_flatten fs]

end

/-! ## Code for an atomic expression -/

/-- The expression in tail position, where each value that it may have goes to the continuation. -/
def Expr.passed (k : String) : Expr → Expr
  | .cond t c a => .cond t (c.passed k) (a.passed k)
  | .logic l r op =>
    match op with
    | .or => .cond l (resume (.var k) l) (r.passed k)
    | .and => .cond l (r.passed k) (resume (.var k) l)
  | e => resume (.var k) e

namespace Compile

open Usage

variable {e : Expr}

theorem use_of_isNamed (h : e.isNamed = true) : (usage e).use = useResult (usage e).pass := by
  cases e with
  | binary | logic | cond | call | assign => exact Usage.make_use (Bool.not_inj h)
  | _ => cases h

theorem useAll_eq : ∀ {es : List Expr}, allAtomic es = true →
    ∀ build : Build (List Expr), useAll (usageAll es) build = keepAll (usageAll es) >>= build
  | [], _, _ => rfl
  | e :: es, h, build => by
    obtain ⟨he, hes⟩ := Bool.and_eq_true_iff.1 h
    simp only [usageAll, useAll, keepAll, usage_use he, useAll_eq hes, bind_assoc, pure_bind]

/-- An expression is handed over as its parts are used, and so it is used unless it is named. -/
structure Through (e : Expr) (u : Build Expr → Gen Expr) : Prop where
  use : e.isNamed = false → (usage e).use = u
  pass : ∀ k, (usage e).pass k = u fun x => pure (resume k x)

section Through

variable (e f : Expr)

theorem use_make_named {atomic : Bool} {keep : Gen Expr} {pass : Build Expr}
    {u : Build Expr → Gen Expr} (hnamed : (!atomic) = false)
    (h : atomic = true → ∀ b, keep >>= b = u b) :
    (make atomic keep pass (useResult pass)).use = u := by
  cases Bool.not_inj (hnamed.trans Bool.not_true.symm)
  exact funext (h rfl)

theorem through_formed {e : Expr} {named : Bool} {wrap : List Expr → Expr} {es : List Expr}
    (h : usage e = formed e.isAtomic named wrap (usageAll es))
    (hatomic : e.isAtomic = true → allAtomic es = true)
    (hnamed : e.isNamed = (named && !e.isAtomic)) :
    Through e fun b => useAll (usageAll es) fun xs => b (wrap xs) := by
  refine ⟨fun hflag => funext fun b => ?_, fun k => by rw [h]; rfl⟩
  cases hkept : e.isAtomic with
  | true =>
    rw [usage_use hkept, useAll_eq (hatomic hkept), h]
    simp only [formed, make, bind_assoc, pure_bind]
  | false =>
    rw [hnamed, hkept, Bool.not_false, Bool.and_true] at hflag
    rw [h, hkept, hflag]
    rfl

theorem through_assign :
    Through (.assign e f) fun b => (usage e).use fun x => (usage f).use fun y => b (.assign x y) :=
  through_formed (usage_assign e f) allAtomic_two rfl

end Through

end Compile

section Formed

open Usage

variable {e : Expr} {es : List Expr} {wrap : List Expr → Expr} {make : List Value → Exec Value}

theorem Formed.usage_eq (h : Formed e es wrap make) : ∃ named,
    usage e = formed e.isAtomic named wrap (usageAll es) ∧ e.isNamed = (named && !e.isAtomic) ∧
      (e.isAtomic = true → allAtomic es = true) := by
  cases h with
  | array es => exact ⟨false, usage_array es, rfl, id⟩
  | object fs => exact ⟨false, usage_object fs, rfl, (allFieldsAtomic_eq fs).symm.trans⟩
  | unary op e => exact ⟨false, usage_unary e op, rfl, (Bool.and_true _).trans⟩
  | binary op l r => exact ⟨true, usage_binary l r op, rfl, allAtomic_two⟩
  | member o p => exact ⟨false, usage_member o p, rfl, allAtomic_two⟩
  | method hprimitive es =>
    refine ⟨true, usage_method hprimitive es, rfl, fun h => ?_⟩
    simpa only [Expr.isAtomic, hprimitive, Bool.true_and, allAtomic, Bool.and_assoc] using h

theorem Formed.through (h : Formed e es wrap make) :
    Through e fun b => useAll (usageAll es) fun xs => b (wrap xs) :=
  have ⟨_, husage, hnamed, hatomic⟩ := h.usage_eq
  through_formed husage hatomic hnamed

theorem Formed.keep_eq (h : Formed e es wrap make) :
    (usage e).keep = keepAll (usageAll es) >>= fun xs => pure (wrap xs) := by
  obtain ⟨_, husage, -⟩ := h.usage_eq
  rw [husage]
  rfl

theorem Formed.isSteady_eq (h : Formed e es wrap make) : e.isSteady = allSteady es := by
  cases h with
  | array => rfl
  | object fs => exact fieldsSteady_eq fs
  | unary | binary | member => simp only [Expr.isSteady, allSteady, Bool.and_true]
  | method hprimitive =>
    simp only [Expr.isSteady, allSteady, turnsPrimitive_of_isPrimitive hprimitive, Bool.not_false,
      Bool.true_and, Bool.and_assoc]

/-- The form around what is left of its operands. -/
theorem Formed.residue (h : Formed e es wrap make) {xs : List Expr} (hs : List.Forall₂ Fits es xs) :
    Formed (wrap xs) xs wrap make := by
  cases h with
  | array => exact .array xs
  | object fs =>
    have hlength : (fs.map Prod.fst).length = xs.length := by
      rw [← hs.length_eq, List.length_map, List.length_map]
    have hform := Formed.object ((fs.map Prod.fst).zip xs)
    rwa [List.map_fst_zip hlength.le, List.map_snd_zip hlength.ge] at hform
  | unary op =>
    obtain _ | ⟨_, ⟨⟩⟩ := hs
    exact .unary op _
  | binary op =>
    obtain _ | ⟨_, _ | ⟨_, ⟨⟩⟩⟩ := hs
    exact .binary op _ _
  | member =>
    obtain _ | ⟨_, _ | ⟨_, ⟨⟩⟩⟩ := hs
    exact .member _ _
  | method hprimitive =>
    obtain _ | ⟨ho, _ | ⟨hp, _⟩⟩ := hs
    exact .method ((ho.member hp).isPrimitive.trans (by rw [hprimitive, Bool.true_or])) _

end Formed

namespace Compile

open Usage

variable {e : Expr}

/-- An atomic expression is handed over as it is kept, unless it chooses. -/
theorem Through.pass_eq_keep {u : Build Expr → Gen Expr} (h : Through e u)
    (hatomic : e.isAtomic = true) (k : Expr) :
    (usage e).pass k = (usage e).keep >>= fun x => pure (resume k x) := by
  rw [h.pass, ← h.use (Expr.isNamed_of_isAtomic hatomic), usage_use hatomic]

theorem pass_eq_resume (k : Expr) : ∀ {e : Expr}, e.isAtomic = true → e.isChoice = false →
    (usage e).pass k = (usage e).keep >>= fun x => pure (resume k x)
  | .array es, h, _ => (Formed.array es).through.pass_eq_keep h k
  | .object fs, h, _ => (Formed.object fs).through.pass_eq_keep h k
  | .unary op e, h, _ => (Formed.unary op e).through.pass_eq_keep h k
  | .binary l r op, h, _ => (Formed.binary op l r).through.pass_eq_keep h k
  | .member o p, h, _ => (Formed.member o p).through.pass_eq_keep h k
  | .assign t v, h, _ => (through_assign t v).pass_eq_keep h k
  | .call f es, h, _ => by
    obtain ⟨hprimitive, _⟩ := Bool.and_eq_true_iff.1 (Bool.and_eq_true_iff.1 h).1
    cases f with
    | member => exact (Formed.method hprimitive es).through.pass_eq_keep h k
    | _ => cases hprimitive
  | .func .., _, _ | .num _, _, _ | .str _, _, _ | .bool _, _, _ | .null, _, _ | .undefined, _, _
  | .var _, _, _ => rfl

/-- The code that passes the value of an atomic expression on is the expression itself, with the
continuation moved into its arms. -/
theorem pass_eq_keep (k : String) : ∀ {e : Expr}, e.isAtomic = true →
    (usage e).pass (.var k) = (usage e).keep >>= fun x => pure (x.passed k)
  | .array _, h | .object _, h | .unary .., h | .binary .., h | .member .., h | .assign .., h
  | .call .., h | .func .., h => by
    rw [pass_eq_resume (.var k) h rfl]
    simp only [usage, Usage.array, Usage.object, Usage.unary, Usage.binary, Usage.member,
      Usage.call, Usage.func, Usage.function, make, bind_assoc, pure_bind, Expr.passed]
  | .cond t c a, h => by
    obtain ⟨h, ha⟩ := Bool.and_eq_true_iff.1 h
    obtain ⟨ht, hc⟩ := Bool.and_eq_true_iff.1 h
    simp only [usage, Usage.cond, make, nameContinuation, usage_use ht, pass_eq_keep k hc,
      pass_eq_keep k ha, bind_assoc, pure_bind, Expr.passed]
  | .logic l r op, h => by
    obtain ⟨hl, hr⟩ := Bool.and_eq_true_iff.1 h
    cases op <;>
      simp only [usage, Usage.logic, make, nameContinuation, usage_use hl, pass_eq_keep k hr,
        bind_assoc, pure_bind, Expr.passed]
  | .num _, _ | .str _, _ | .bool _, _ | .null, _ | .undefined, _ | .var _, _ => rfl

section Keeping

variable (p : Form → Bool)

mutual

theorem anywhere_keep :
    ∀ e : Expr, Gen.Yields (fun x => x.anywhere p = e.anywhere p) (usage e).keep
  | .array es => .bind (anywhereIn_keep es) fun xs hxs => .pure (by simp only [Expr.anywhere, hxs])
  | .object fs =>
    .bind (anywhereInFields_keep fs) fun xs hxs => .pure (by simp only [Expr.anywhere, hxs])
  | .unary op e => .bind (anywhere_keep e) fun x hx => .pure (by simp only [Expr.anywhere, hx])
  | .binary l r op | .logic l r op | .member l r | .assign l r =>
    .bind (anywhere_keep l) fun x hx => .bind (anywhere_keep r) fun y hy =>
      .pure (by simp only [Expr.anywhere, hx, hy])
  | .cond t c a =>
    .bind (anywhere_keep t) fun x hx => .bind (anywhere_keep c) fun y hy =>
      .bind (anywhere_keep a) fun z hz => .pure (by simp only [Expr.anywhere, hx, hy, hz])
  | .call f es =>
    .bind (anywhere_keep f) fun x hx => .bind (anywhereIn_keep es) fun xs hxs =>
      .pure (by simp only [Expr.anywhere, hx, hxs])
  | .func .. | .num _ | .str _ | .bool _ | .null | .undefined | .var _ => fun _ => rfl

theorem anywhereIn_keep : ∀ es : List Expr,
    Gen.Yields (fun xs => anywhereIn p xs = anywhereIn p es) (keepAll (usageAll es))
  | [] => fun _ => rfl
  | e :: es =>
    .bind (anywhere_keep e) fun x hx => .bind (anywhereIn_keep es) fun xs hxs =>
      .pure (by simp only [anywhereIn, hx, hxs])

theorem anywhereInFields_keep : ∀ fs : List (String × Expr),
    Gen.Yields (fun xs => anywhereInFields p xs = anywhereInFields p fs)
      (keepFields (usageFields fs))
  | [] => fun _ => rfl
  | (_, e) :: fs =>
    .bind (anywhere_keep e) fun x hx => .bind (anywhereInFields_keep fs) fun xs hxs =>
      .pure (by simp only [anywhereInFields, hx, hxs])

end

end Keeping

theorem decidesByWriting_keep :
    ∀ e : Expr, Gen.Yields (fun x => x.decidesByWriting = e.decidesByWriting) (usage e).keep
  | .cond t c a =>
    .bind (anywhere_keep (fun _ => true) t) fun x _ => .bind (decidesByWriting_keep c) fun y hy =>
      .bind (decidesByWriting_keep a) fun z hz =>
        .pure (by simp only [Expr.decidesByWriting, hy, hz])
  | .logic l r op =>
    .bind (anywhere_keep Form.isAssignment l) fun x hx =>
      .bind (decidesByWriting_keep r) fun y hy =>
      .pure (by simp only [Expr.decidesByWriting, Expr.writes, hx, hy])
  | .array _ | .object _ | .unary .. | .binary .. | .member .. | .call .. | .assign ..
  | .func .. | .num _ | .str _ | .bool _ | .null | .undefined | .var _ => fun _ => rfl

end Compile

/-! ## Evaluation that spares the store -/

theorem Exec.exists_ok_of_bind {x : Exec α} {f : α → Exec β} {b : β} (h : (x >>= f) m = .ok b n) :
    ∃ a m', x m = .ok a m' ∧ f a m' = .ok b n := by
  simp only [bind, EStateM.bind] at h
  cases hx : x m with
  | error e m' =>
    rw [hx] at h
    cases h
  | ok a m' =>
    rw [hx] at h
    exact ⟨a, m', rfl, h⟩

theorem Exec.bind_ok {x : Exec α} {m' : Machine} {a : α} (h : x m = .ok a m') (f : α → Exec β) :
    (x >>= f) m = f a m' := by
  simp only [bind, EStateM.bind, h]

/-- The second state differs from the first only in what was printed and in the identities that
were given out. -/
structure Machine.Spared (m n : Machine) : Prop where
  nextId : m.nextId ≤ n.nextId
  store : n.store = m.store
  stack : n.stack = m.stack
  tables : n.tables = m.tables
  scripts : n.scripts = m.scripts
  supply : n.supply = m.supply

theorem Machine.Spared.refl (m : Machine) : m.Spared m :=
  ⟨le_rfl, rfl, rfl, rfl, rfl, rfl⟩

theorem Machine.Spared.trans {l : Machine} (h : l.Spared m) (h' : m.Spared n) : l.Spared n where
  nextId := h.nextId.trans h'.nextId
  store := h'.store.trans h.store
  stack := h'.stack.trans h.stack
  tables := h'.tables.trans h.tables
  scripts := h'.scripts.trans h.scripts
  supply := h'.supply.trans h.supply

/-- Where the computation succeeds, it spares all but what was printed and the identities. -/
def Exec.Spares {α : Type} (x : Exec α) : Prop :=
  ∀ m a n, x m = .ok a n → m.Spared n

namespace Exec.Spares

variable {α β : Type}

theorem pure (a : α) : Exec.Spares (pure a) := by
  rintro m _ _ ⟨⟩
  exact .refl m

theorem throw (e : Error) : Exec.Spares (throw e : Exec α) := nofun

theorem bind {x : Exec α} {f : α → Exec β} (hx : x.Spares) (hf : ∀ a, (f a).Spares) :
    (x >>= f).Spares := by
  intro m b n h
  obtain ⟨a, m', ha, hb⟩ := Exec.exists_ok_of_bind h
  exact (hx _ _ _ ha).trans (hf a _ _ _ hb)

theorem lift (x : Except Error α) : Exec.Spares (liftM x : Exec α) := by
  cases x with
  | error e => exact throw e
  | ok a => exact pure a

theorem get : Exec.Spares (get : Exec Machine) := by
  rintro m _ _ ⟨⟩
  exact .refl m

theorem freshId : Exec.Spares Exec.freshId := by
  rintro m _ _ ⟨⟩
  exact ⟨Nat.le_succ _, rfl, rfl, rfl, rfl, rfl⟩

end Exec.Spares

theorem InPlace.spares {R : Value → Value → Prop} {x y : Exec Value} (h : InPlace R x y) :
    x.Spares := by
  induction h with
  | pure _ => exact .pure _
  | throw _ => exact .throw _
  | lift _ => exact .lift _
  | @bind _ _ _ x _ f _ h _ ih =>
    cases x with
    | error e => exact Exec.Spares.throw e
    | ok a =>
      obtain ⟨b, _, hab⟩ := h
      exact ih a b hab
  | newDist _ => exact .bind .freshId fun _ => .pure _
  | print _ =>
    rintro m _ _ ⟨⟩
    exact ⟨le_rfl, rfl, rfl, rfl, rfl, rfl⟩

section Sparing

variable (env : Env)

theorem anywhereIn_eq_false {p : Form → Bool} {es : List Expr} :
    anywhereIn p es = false ↔ ∀ e ∈ es, e.anywhere p = false := by
  induction es with
  | nil => simp [anywhereIn]
  | cons e es ih => simp [anywhereIn, ih]

theorem writes_parts {e : Expr} (h : e.writes = false) : e.Parts fun d => d.writes = false := by
  cases e with
  | array => exact anywhereIn_eq_false.1 h
  | object fs =>
    refine List.forall_mem_map.1 (anywhereIn_eq_false.1 ?_)
    exact (anywhereInFields_eq _ fs).symm.trans h
  | unary => exact h
  | binary | logic | member => exact Bool.or_eq_false_iff.1 h
  | cond =>
    obtain ⟨h, ha⟩ := Bool.or_eq_false_iff.1 h
    exact ⟨(Bool.or_eq_false_iff.1 h).1, (Bool.or_eq_false_iff.1 h).2, ha⟩
  | call => exact ⟨(Bool.or_eq_false_iff.1 h).1, anywhereIn_eq_false.1 (Bool.or_eq_false_iff.1 h).2⟩
  | assign => cases h
  | _ => trivial

theorem evalAll_spares {es : List Expr} (h : ∀ e ∈ es, (eval env e).Spares) :
    (evalAll env es).Spares := by
  induction es with
  | nil => exact .pure _
  | cons e es ih =>
    obtain ⟨he, hes⟩ := List.forall_mem_cons.1 h
    exact .bind he fun _ => .bind (ih hes) fun _ => .pure _

theorem eval_spares {e : Expr} (h : e.writes = false) : (eval env e).Spares := by
  induction e using Expr.form_induction with
  | num | str | bool | null | undefined => exact .pure _
  | var x =>
    simp only [eval]
    split_ifs
    · exact .bind .get fun _ => .pure _
    · split
      · exact .pure _
      · exact .throw _
  | formed hform ih =>
    rw [hform.eval]
    refine .bind (evalAll_spares env fun d hd => ih d hd ?_) fun vs => (hform.itself vs).spares
    exact hform.operands writes_parts h d hd
  | logic op ihl ihr =>
    obtain ⟨hl, hr⟩ := Bool.or_eq_false_iff.1 h
    refine .bind (ihl hl) fun v => ?_
    have hright := ihr hr
    cases op <;> cases v.truthy
    · exact .pure v
    · exact hright
    · exact hright
    · exact .pure v
  | cond iht ihc iha =>
    obtain ⟨ht, hc, ha⟩ := writes_parts h
    refine .bind (iht ht) fun v => ?_
    split_ifs
    · exact ihc hc
    · exact iha ha
  | func => exact .bind .freshId fun _ => .pure _
  | assign | assign_other => cases h
  | call_other es hprimitive =>
    rw [eval_call_other hprimitive]
    exact .throw _

end Sparing

/-! ## Both ways beside each other -/

section Passing

variable {env : Env} {k : String} {kv v : Value} {π : Pairing} {m n m' n' : Machine} {e : Expr}

/-- One state beside another, where any code may occur. -/
abbrev Setting.free : Setting := .whole anyCode False bodyWithin_any

/-- The step hands the continuation a value like `v`, in a state like `m`. -/
def Hands (kv : Value) (π : Pairing) (v : Value) (m : Machine)
    (r : EStateM.Result Error Machine Step) : Prop :=
  ∃ ρ, π ≤ ρ ∧ ∃ v' n, r = .ok (.resume kv v') n ∧ v.Alike anyCode ρ v' ∧ m.Alike .free ρ n

theorem Hands.mono {ρ : Pairing} {r : EStateM.Result Error Machine Step} (h : Hands kv ρ v m r)
    (hπ : π ≤ ρ) : Hands kv π v m r := by
  obtain ⟨τ, hτ, rest⟩ := h
  exact ⟨τ, Pairing.le_trans hπ hτ, rest⟩

theorem evalTail_resume (hk : k ≠ Expr.storeName) (hkv : env.lookup? k = some kv)
    (h : eval env e n = .ok v n') : evalTail env (resume (.var k) e) n = .ok (.resume kv v) n' := by
  have hargs : evalAll env [e] n = .ok [v] n' := by
    simp only [evalAll, bind, EStateM.bind, h]
    rfl
  have htail : evalTail env (resume (.var k) e) =
      eval env (.var k) >>= fun g => evalAll env [e] >>= fun vs => pure (.bounce (.call g vs)) :=
    rfl
  simp only [htail, bind, EStateM.bind, eval_var hk hkv, hargs]
  rfl

theorem Machine.Alike.spared (hπ : π.Bounded) (hm : m.Alike .free π n) (h : n.Spared n') :
    m.Alike .free (π.raise hπ n'.nextId (hm.right ▸ h.nextId)) n' := by
  have hle := Pairing.le_raise hπ (hm.right ▸ h.nextId)
  exact
    { store := h.store ▸ fieldsAlike_mono hle hm.store
      output := False.elim
      counters := ⟨hm.left, rfl⟩
      floor := Nat.zero_le _
      floor' := Nat.zero_le _
      stack := h.stack ▸ stackAlike_mono hle hm.stack
      tables := fun hs => h.tables ▸ (hm.tables hs).imp fun _ _ ht => TableAlike.mono hle ht
      scripts := fun hs => h.scripts ▸ hm.scripts hs
      supply := fun hs => h.supply ▸ hm.supply hs }

theorem exists_eval_alike (henv : EnvAlike .free π env env) (hm : m.Alike .free π n)
    (h : eval env e m = .ok v m') :
    ∃ ρ, π ≤ ρ ∧ ∃ w n', eval env e n = .ok w n' ∧ v.Alike anyCode ρ w ∧ m'.Alike .free ρ n' := by
  have hbeside := eval_beside (σ := .free) (within_any e) henv hm
  unfold Beside at hbeside
  rw [h] at hbeside
  exact hbeside

/-- A left operand that decides is evaluated once more, for its value; it comes out alike, because
the first evaluation spared the state. -/
theorem exists_eval_again (hπ : π.Bounded) (henv : EnvAlike .free π env env)
    (hm : m.Alike .free π n) {l : Expr} (hl : l.writes = false) {w : Value}
    (h : eval env l m = .ok v m') (h' : eval env l n = .ok w n') :
    ∃ ρ, π ≤ ρ ∧ ∃ w' n'', eval env l n' = .ok w' n'' ∧ v.Alike anyCode ρ w' ∧
      m'.Alike .free ρ n'' := by
  have hspared := eval_spares env hl _ _ _ h'
  have hle := Pairing.le_raise hπ (hm.right ▸ hspared.nextId)
  obtain ⟨ρ, hρ, hagain⟩ :=
    exists_eval_alike (framesAlike_mono hle henv) (hm.spared hπ hspared) h
  exact ⟨ρ, Pairing.le_trans hle hρ, hagain⟩

theorem hands_resume (hk : k ≠ Expr.storeName) (hkv : env.lookup? k = some kv)
    (henv : EnvAlike .free π env env) (hm : m.Alike .free π n) (h : eval env e m = .ok v m') :
    Hands kv π v m' (evalTail env (resume (.var k) e) n) := by
  obtain ⟨ρ, hρ, w, n', he, hrest⟩ := exists_eval_alike henv hm h
  exact ⟨ρ, hρ, w, n', evalTail_resume hk hkv he, hrest⟩

/-- The code of an atomic expression hands the continuation what evaluating it in place gives. -/
theorem hands_passed (hk : k ≠ Expr.storeName) (hkv : env.lookup? k = some kv) :
    ∀ {x : Expr} {π : Pairing} {m n : Machine} {v : Value} {m' : Machine},
      x.decidesByWriting = false → π.Bounded → EnvAlike .free π env env → m.Alike .free π n →
      eval env x m = .ok v m' → Hands kv π v m' (evalTail env (x.passed k) n)
  | .cond t c a, π, m, n, v, m', hx, hπ, henv, hm, h => by
    obtain ⟨hc, ha⟩ := Bool.or_eq_false_iff.1 hx
    obtain ⟨u, m₁, ht, h⟩ := Exec.exists_ok_of_bind h
    obtain ⟨ρ, hρ, u', n₁, ht', hu, hm₁⟩ := exists_eval_alike henv hm ht
    have hbounded : ρ.Bounded := hρ.bounded hπ
    have henv' := framesAlike_mono hρ henv
    simp only [Expr.passed, evalTail, bind, EStateM.bind, ht']
    rw [(alike_likeness _ ρ).truthy_eq hu] at h
    refine Hands.mono ?_ hρ
    split_ifs at h ⊢
    · exact hands_passed hk hkv hc hbounded henv' hm₁ h
    · exact hands_passed hk hkv ha hbounded henv' hm₁ h
  | .logic l r op, π, m, n, v, m', hx, hπ, henv, hm, h => by
    obtain ⟨hl, hr⟩ := Bool.or_eq_false_iff.1 hx
    obtain ⟨u, m₁, hleft, h⟩ := Exec.exists_ok_of_bind h
    obtain ⟨ρ, hρ, u', n₁, hleft', hu, hm₁⟩ := exists_eval_alike henv hm hleft
    have hlong (h : eval env r m₁ = .ok v m') : Hands kv π v m' (evalTail env (r.passed k) n₁) :=
      (hands_passed hk hkv hr (hρ.bounded hπ) (framesAlike_mono hρ henv) hm₁ h).mono hρ
    have hshort (h : (pure u : Exec Value) m₁ = .ok v m') :
        Hands kv π v m' (evalTail env (resume (.var k) l) n₁) := by
      cases h
      obtain ⟨τ, hτ, w, n₂, hagain, hrest⟩ := exists_eval_again hπ henv hm hl hleft hleft'
      exact ⟨τ, hτ, w, n₂, evalTail_resume hk hkv hagain, hrest⟩
    -- Which operand decides is the same on both sides; the one that does not is not evaluated.
    rw [(alike_likeness _ ρ).truthy_eq hu] at h
    cases op <;> simp only [Expr.passed, evalTail, bind, EStateM.bind, hleft'] <;> revert h <;>
      cases u'.truthy
    · exact hshort
    · exact hlong
    · exact hlong
    · exact hshort
  | .array _, _, _, _, _, _, _, _, henv, hm, h | .object _, _, _, _, _, _, _, _, henv, hm, h
  | .unary .., _, _, _, _, _, _, _, henv, hm, h | .binary .., _, _, _, _, _, _, _, henv, hm, h
  | .member .., _, _, _, _, _, _, _, henv, hm, h | .call .., _, _, _, _, _, _, _, henv, hm, h
  | .assign .., _, _, _, _, _, _, _, henv, hm, h | .func .., _, _, _, _, _, _, _, henv, hm, h
  | .num _, _, _, _, _, _, _, _, henv, hm, h | .str _, _, _, _, _, _, _, _, henv, hm, h
  | .bool _, _, _, _, _, _, _, _, henv, hm, h | .null, _, _, _, _, _, _, _, henv, hm, h
  | .undefined, _, _, _, _, _, _, _, henv, hm, h | .var _, _, _, _, _, _, _, _, henv, hm, h =>
    hands_resume hk hkv henv hm h

end Passing

/-- Passing the value of an atomic expression to a continuation agrees with evaluating the
expression in place, if no left operand that decides writes: where evaluation succeeds, the code
calls the continuation once, with a value and a store that are the same up to the identities of
functions and distributions. All identities that occur have been given out, as they have in every
state of a run; those stay what they are. -/
theorem passing_agrees_with_evaluating {e : Expr} (hatomic : e.isAtomic = true)
    (hwrites : e.decidesByWriting = false) {env : Env} {k : String} {kv : Value}
    (hk : k ≠ Expr.storeName) (hkv : env.lookup? k = some kv) {m : Machine}
    (henv : ∀ frame ∈ env, ∀ b ∈ frame, b.2.Over (.below m.nextId))
    (hm : m.Over (.below m.nextId)) (count : Nat) {v : Value} {m' : Machine}
    (h : eval env ((usage e.flatten).keep.run count).1 m = .ok v m') :
    ∃ (v' : Value) (m'' : Machine) (ρ : Pairing),
      evalTail env ((usage e.flatten).pass (.var k) |>.run count).1 m =
        .ok (.resume kv v') m'' ∧
      (∀ i < m.nextId, ρ.ids i i) ∧ v.Alike anyCode ρ v' ∧
      List.Forall₂ (FieldLike (Value.Alike anyCode ρ)) m'.store m''.store := by
  have hcode : ((usage e.flatten).pass (.var k) |>.run count).1 =
      Expr.passed k ((usage e.flatten).keep.run count).1 := by
    rw [pass_eq_keep k (e.isAtomic_flatten.trans hatomic)]
    rfl
  have hkept : (((usage e.flatten).keep.run count).1).decidesByWriting = false := by
    rw [decidesByWriting_keep e.flatten count, e.decidesByWriting_flatten, hwrites]
  obtain ⟨π, hbounded, hπ⟩ := exists_fits_below m.nextId
  have hself : m.Alike .free π m := hm.alike hπ.same hπ.left hπ.right
  have hframes : EnvAlike .free π env env :=
    List.forall₂_same.2 fun frame hframe =>
      List.forall₂_same.2 fun b hb => ⟨(henv frame hframe b hb).alike hπ.same⟩
  obtain ⟨ρ, hρ, v', m'', htail, hv, hstate⟩ :=
    hands_passed hk hkv hkept hbounded hframes hself h
  exact ⟨v', m'', ρ, hcode ▸ htail, fun i hi => hρ.ids (hπ.same hi), hv, hstate.store⟩

/-! ## A left operand that writes -/

/-- A scope with the continuation of a run. -/
def exitEnv : Env := [[("k", .cont 0 .exit)]]

/-- A state in which the store has the field `n`. -/
def fieldMachine (n : Bool) : Machine :=
  { Machine.initial default with store := [("n", .bool n)], nextId := 1 }

def togglingSource : String :=
  "(globalStore.n = !globalStore.n) || 'five'"

/-- The text is an atomic expression that gives `true` in place and writes it to the field; the
continuation gets `false`, which then is in the field. -/
def passesFalse (source : String) : Bool :=
  match Expr.parse source with
  | .error _ => false
  | .ok e =>
    e.isAtomic &&
      match eval exitEnv ((usage e.flatten).keep.run 0).1 (fieldMachine false),
        evalTail exitEnv (passTo e (.var "k")) (fieldMachine false) with
      | .ok (.bool b) m, .ok (.bounce (.call (.cont 0 .exit) [.bool c])) m' =>
        match m.store, m'.store with
        | [("n", .bool b')], [("n", .bool c')] => b && b' && !c && !c'
        | _, _ => false
      | _, _ => false

theorem exists_of_passesFalse (h : passesFalse source = true) :
    ∃ e m m', Expr.parse source = .ok e ∧ e.isAtomic = true ∧
      eval exitEnv ((usage e.flatten).keep.run 0).1 (fieldMachine false) = .ok (.bool true) m ∧
      m.store = [("n", .bool true)] ∧
      evalTail exitEnv (passTo e (.var "k")) (fieldMachine false) =
        .ok (.resume (.cont 0 .exit) (.bool false)) m' ∧
      m'.store = [("n", .bool false)] := by
  unfold passesFalse at h
  split at h
  · cases h
  · rename_i e hparse
    obtain ⟨hatomic, h⟩ := Bool.and_eq_true_iff.1 h
    split at h
    · rename_i b m c m' heval htail
      split at h
      · rename_i b' c' hstore hstore'
        simp only [Bool.and_eq_true, Bool.not_eq_true'] at h
        obtain ⟨⟨⟨rfl, rfl⟩, rfl⟩, rfl⟩ := h
        exact ⟨e, m, m', hparse, hatomic, heval, hstore, htail, hstore'⟩
      · cases h
    · cases h

theorem togglingSource_passes_false :
    ∃ e m m', Expr.parse togglingSource = .ok e ∧ e.isAtomic = true ∧
      eval exitEnv ((usage e.flatten).keep.run 0).1 (fieldMachine false) = .ok (.bool true) m ∧
      m.store = [("n", .bool true)] ∧
      evalTail exitEnv (passTo e (.var "k")) (fieldMachine false) =
        .ok (.resume (.cont 0 .exit) (.bool false)) m' ∧
      m'.store = [("n", .bool false)] :=
  exists_of_passesFalse (by decide +kernel)

def choosingSource : String :=
  "globalStore.n ? 'yes' : (function(x) \x7b return x; \x7d || 'no')"

theorem choosingSource_passes_alike :
    ∃ (e : Expr) (v v' : Value) (m m' : Machine) (ρ : Pairing),
      Expr.parse choosingSource = .ok e ∧
      eval exitEnv ((usage e.flatten).keep.run 0).1 (fieldMachine false) = .ok v m ∧
      evalTail exitEnv (passTo e (.var "k")) (fieldMachine false) =
        .ok (.resume (.cont 0 .exit) v') m' ∧
      v.Alike anyCode ρ v' ∧
      List.Forall₂ (FieldLike (Value.Alike anyCode ρ)) m.store m'.store := by
  have hsource : ∃ e, Expr.parse choosingSource = .ok e ∧ e.isAtomic = true ∧
      e.decidesByWriting = false ∧ ∃ v m,
        eval exitEnv ((usage e.flatten).keep.run 0).1 (fieldMachine false) = .ok v m ∧ True := by
    decide +kernel
  obtain ⟨e, hparse, hatomic, hwrites, v, m, heval, -⟩ := hsource
  have henv : ∀ frame ∈ exitEnv, ∀ b ∈ frame, b.2.Over (.below 1) := by
    simp only [exitEnv, List.forall_mem_singleton]
    exact .cont Nat.zero_lt_one .exit
  have hm : (fieldMachine false).Over (.below 1) :=
    ⟨by simpa [fieldMachine, StoreOver] using Value.Over.bool false, nofun, nofun⟩
  obtain ⟨v', m', ρ, htail, -, hv, hstore⟩ :=
    passing_agrees_with_evaluating hatomic hwrites (k := "k") (by decide) rfl henv hm 0 heval
  exact ⟨e, v, v', m, m', ρ, hparse, heval, htail, hv, hstore⟩

end Chance
