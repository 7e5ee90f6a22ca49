import Mathlib.Data.Set.Basic
import Chance.Proofs.Syntax.Names
import Chance.Proofs.Syntax.Compiled

/-!
# Renaming identifiers

A renaming replaces every identifier of a tree: variables, parameters, and the names of functions
and declarations. Property names are not identifiers. Only the generated names and the name of the
store have to stay as they are for a renaming to be one that compilation can respect.

- `Expr.rename`, `Program.rename`: the renamed tree,
- `IsRenaming`: injective renamings that leave the reserved names alone,
- `Expr.Avoids`: no name of a set is used free,
- `flatten_rename`, `Expr.Avoids.flatten`: both are respected by the linear form.
-/

namespace Chance

/-! ## Renamed trees -/

mutual

/-- The expression with its identifiers renamed. -/
def Expr.rename (σ : String → String) : Expr → Expr
  | .var x => .var (σ x)
  | .array es => .array (renameExprs σ es)
  | .object fs => .object (renameFields σ fs)
  | .unary op e => .unary op (e.rename σ)
  | .binary l r op => .binary (l.rename σ) (r.rename σ) op
  | .logic l r op => .logic (l.rename σ) (r.rename σ) op
  | .cond t c a => .cond (t.rename σ) (c.rename σ) (a.rename σ)
  | .member o p => .member (o.rename σ) (p.rename σ)
  | .call f es => .call (f.rename σ) (renameExprs σ es)
  | .func name params body => .func (name.map σ) (params.map σ) (renameStmts σ body)
  | .assign t v => .assign (t.rename σ) (v.rename σ)
  | .num x => .num x
  | .str s => .str s
  | .bool b => .bool b
  | .null => .null
  | .undefined => .undefined
termination_by structural e => e

def renameExprs (σ : String → String) : List Expr → List Expr
  | [] => []
  | e :: es => e.rename σ :: renameExprs σ es
termination_by structural es => es

/-- Fields of an object, which keep their keys. -/
def renameFields (σ : String → String) : List (String × Expr) → List (String × Expr)
  | [] => []
  | (k, e) :: fs => (k, e.rename σ) :: renameFields σ fs
termination_by structural fs => fs

/-- Declarations, whose names are identifiers. -/
def renameBindings (σ : String → String) : List (String × Expr) → List (String × Expr)
  | [] => []
  | (x, e) :: ds => (σ x, e.rename σ) :: renameBindings σ ds
termination_by structural ds => ds

def Stmt.rename (σ : String → String) : Stmt → Stmt
  | .empty => .empty
  | .expr e => .expr (e.rename σ)
  | .declare ds => .declare (renameBindings σ ds)
  | .ifElse t c a => .ifElse (t.rename σ) (renameStmts σ c) (renameStmts σ a)
  | .ret e => .ret (e.rename σ)
  | .block body => .block (renameStmts σ body)
termination_by structural s => s

def renameStmts (σ : String → String) : List Stmt → List Stmt
  | [] => []
  | s :: ss => s.rename σ :: renameStmts σ ss
termination_by structural ss => ss

end

def Program.rename (σ : String → String) (p : Program) : Program :=
  ⟨renameStmts σ p.body⟩

/-- Injective renamings that leave alone what compilation and evaluation know by name. -/
structure IsRenaming (σ : String → String) : Prop where
  injective : Function.Injective σ
  generated : ∀ {x : String}, IsGenerated x → σ x = x
  store : σ Expr.storeName = Expr.storeName

theorem isRenaming_id : IsRenaming id where
  injective := Function.injective_id
  generated := fun _ => rfl
  store := rfl

section Identity

mutual

@[simp] theorem Expr.rename_id : ∀ e : Expr, e.rename id = e
  | .var _ | .num _ | .str _ | .bool _ | .null | .undefined => rfl
  | .array es => by rw [Expr.rename, renameExprs_id es]
  | .object fs => by rw [Expr.rename, renameFields_id fs]
  | .unary _ e => by rw [Expr.rename, Expr.rename_id e]
  | .binary l r _ | .logic l r _ | .member l r | .assign l r => by
    rw [Expr.rename, Expr.rename_id l, Expr.rename_id r]
  | .cond t c a => by rw [Expr.rename, Expr.rename_id t, Expr.rename_id c, Expr.rename_id a]
  | .call f es => by rw [Expr.rename, Expr.rename_id f, renameExprs_id es]
  | .func name params body => by
    rw [Expr.rename, renameStmts_id body, Option.map_id, List.map_id, id]

theorem renameExprs_id : ∀ es : List Expr, renameExprs id es = es
  | [] => rfl
  | e :: es => by rw [renameExprs, Expr.rename_id e, renameExprs_id es]

theorem renameFields_id : ∀ fs : List (String × Expr), renameFields id fs = fs
  | [] => rfl
  | (_, e) :: fs => by rw [renameFields, Expr.rename_id e, renameFields_id fs]

theorem renameBindings_id : ∀ ds : List (String × Expr), renameBindings id ds = ds
  | [] => rfl
  | (_, e) :: ds => by rw [renameBindings, Expr.rename_id e, renameBindings_id ds, id]

theorem Stmt.rename_id : ∀ s : Stmt, s.rename id = s
  | .empty => rfl
  | .expr e | .ret e => by rw [Stmt.rename, Expr.rename_id e]
  | .declare ds => by rw [Stmt.rename, renameBindings_id ds]
  | .ifElse t c a => by rw [Stmt.rename, Expr.rename_id t, renameStmts_id c, renameStmts_id a]
  | .block body => by rw [Stmt.rename, renameStmts_id body]

theorem renameStmts_id : ∀ ss : List Stmt, renameStmts id ss = ss
  | [] => rfl
  | s :: ss => by rw [renameStmts, Stmt.rename_id s, renameStmts_id ss]

end

end Identity

section Congruence

variable {σ τ : String → String}

mutual

theorem Expr.rename_congr : ∀ e : Expr, (∀ x ∈ e.names, σ x = τ x) → e.rename σ = e.rename τ
  | .num _, _ | .str _, _ | .bool _, _ | .null, _ | .undefined, _ => rfl
  | .var x, h => congrArg Expr.var (h x (List.mem_singleton_self x))
  | .array es, h => congrArg Expr.array (renameExprs_congr es h)
  | .object fs, h => congrArg Expr.object (renameFields_congr fs h)
  | .unary op e, h => congrArg (Expr.unary op) (Expr.rename_congr e h)
  | .binary l r _, h | .logic l r _, h | .member l r, h | .assign l r, h => by
    rw [Expr.names, List.forall_mem_append] at h
    rw [Expr.rename, Expr.rename, Expr.rename_congr l h.1, Expr.rename_congr r h.2]
  | .cond t c a, h => by
    rw [Expr.names, List.forall_mem_append, List.forall_mem_append] at h
    rw [Expr.rename, Expr.rename, Expr.rename_congr t h.1, Expr.rename_congr c h.2.1,
      Expr.rename_congr a h.2.2]
  | .call f es, h => by
    rw [Expr.names, List.forall_mem_append] at h
    rw [Expr.rename, Expr.rename, Expr.rename_congr f h.1, renameExprs_congr es h.2]
  | .func name params body, h => by
    rw [Expr.names, List.forall_mem_append, List.forall_mem_append] at h
    have hname : name.map σ = name.map τ :=
      Option.map_congr fun x hx => h.1 x (Option.mem_toList.2 hx)
    rw [Expr.rename, Expr.rename, renameStmts_congr body h.2.2, hname,
      List.map_congr_left h.2.1]

theorem renameExprs_congr :
    ∀ es : List Expr, (∀ x ∈ exprsNames es, σ x = τ x) → renameExprs σ es = renameExprs τ es
  | [], _ => rfl
  | e :: es, h => by
    rw [exprsNames, List.forall_mem_append] at h
    rw [renameExprs, renameExprs, Expr.rename_congr e h.1, renameExprs_congr es h.2]

theorem renameFields_congr :
    ∀ fs : List (String × Expr), (∀ x ∈ fieldsNames fs, σ x = τ x) →
      renameFields σ fs = renameFields τ fs
  | [], _ => rfl
  | (_, e) :: fs, h => by
    rw [fieldsNames, List.forall_mem_append] at h
    rw [renameFields, renameFields, Expr.rename_congr e h.1, renameFields_congr fs h.2]

theorem renameBindings_congr :
    ∀ ds : List (String × Expr), (∀ x ∈ ds.map Prod.fst, σ x = τ x) →
      (∀ x ∈ fieldsNames ds, σ x = τ x) → renameBindings σ ds = renameBindings τ ds
  | [], _, _ => rfl
  | (_, e) :: ds, hkeys, h => by
    rw [fieldsNames, List.forall_mem_append] at h
    rw [List.map_cons, List.forall_mem_cons] at hkeys
    rw [renameBindings, renameBindings, hkeys.1, Expr.rename_congr e h.1,
      renameBindings_congr ds hkeys.2 h.2]

theorem Stmt.rename_congr : ∀ s : Stmt, (∀ x ∈ s.names, σ x = τ x) → s.rename σ = s.rename τ
  | .empty, _ => rfl
  | .expr e, h => congrArg Stmt.expr (Expr.rename_congr e h)
  | .ret e, h => congrArg Stmt.ret (Expr.rename_congr e h)
  | .declare ds, h => by
    rw [Stmt.names, List.forall_mem_append] at h
    rw [Stmt.rename, Stmt.rename, renameBindings_congr ds h.1 h.2]
  | .ifElse t c a, h => by
    rw [Stmt.names, List.forall_mem_append, List.forall_mem_append] at h
    rw [Stmt.rename, Stmt.rename, Expr.rename_congr t h.1, renameStmts_congr c h.2.1,
      renameStmts_congr a h.2.2]
  | .block body, h => congrArg Stmt.block (renameStmts_congr body h)

theorem renameStmts_congr :
    ∀ ss : List Stmt, (∀ x ∈ stmtsNames ss, σ x = τ x) → renameStmts σ ss = renameStmts τ ss
  | [], _ => rfl
  | s :: ss, h => by
    rw [stmtsNames, List.forall_mem_append] at h
    rw [renameStmts, renameStmts, Stmt.rename_congr s h.1, renameStmts_congr ss h.2]

end

end Congruence

/-! ## Names that are not used free -/

/-- The names that a call of a function binds. -/
def boundBy (name : Option String) (params : List String) : Set String :=
  {x | name = some x ∨ x ∈ params}

/-- The names that a statement declares for the rest of its list. -/
def Stmt.declared : Stmt → List String
  | .declare ds => ds.map Prod.fst
  | _ => []

mutual

/-- No name of the set is used free. -/
def Expr.Avoids : Expr → Set String → Prop
  | .var x, X => x ∉ X
  | .array es, X => ExprsAvoid es X
  | .object fs, X => FieldsAvoid fs X
  | .unary _ e, X => e.Avoids X
  | .binary l r _, X | .logic l r _, X | .member l r, X | .assign l r, X => l.Avoids X ∧ r.Avoids X
  | .cond t c a, X => t.Avoids X ∧ c.Avoids X ∧ a.Avoids X
  | .call f es, X => f.Avoids X ∧ ExprsAvoid es X
  | .func name params body, X => StmtsAvoid body (X \ boundBy name params)
  | .num _, _ | .str _, _ | .bool _, _ | .null, _ | .undefined, _ => True
termination_by structural e => e

def ExprsAvoid : List Expr → Set String → Prop
  | [], _ => True
  | e :: es, X => e.Avoids X ∧ ExprsAvoid es X
termination_by structural es => es

def FieldsAvoid : List (String × Expr) → Set String → Prop
  | [], _ => True
  | (_, e) :: fs, X => e.Avoids X ∧ FieldsAvoid fs X
termination_by structural fs => fs

/-- The same of declarations, each of which scopes over those after it. A function without a name of
its own goes by the name it is bound to. -/
def BindingsAvoid : List (String × Expr) → Set String → Prop
  | [], _ => True
  | (x, .func none params body) :: ds, X =>
    StmtsAvoid body (X \ boundBy (some x) params) ∧ BindingsAvoid ds (X \ {x})
  | (x, e) :: ds, X => e.Avoids X ∧ BindingsAvoid ds (X \ {x})
termination_by structural ds => ds

def Stmt.Avoids : Stmt → Set String → Prop
  | .empty, _ => True
  | .expr e, X | .ret e, X => e.Avoids X
  | .declare ds, X => BindingsAvoid ds X
  | .ifElse t c a, X => t.Avoids X ∧ StmtsAvoid c X ∧ StmtsAvoid a X
  | .block body, X => StmtsAvoid body X
termination_by structural s => s

def StmtsAvoid : List Stmt → Set String → Prop
  | [], _ => True
  | s :: ss, X => s.Avoids X ∧ StmtsAvoid ss (X \ {x | x ∈ s.declared})
termination_by structural ss => ss

end

theorem bindingsAvoid_cons {x : String} {e : Expr} {ds : List (String × Expr)} {X : Set String} :
    BindingsAvoid ((x, e) :: ds) X ↔ (e.called x).Avoids X ∧ BindingsAvoid ds (X \ {x}) := by
  cases e with
  | func name params body => cases name <;> rfl
  | _ => rfl

section Mono

mutual

theorem Expr.Avoids.anti :
    ∀ {e : Expr} {X Y : Set String}, e.Avoids X → Y ⊆ X → e.Avoids Y
  | .var _, _, _, h, hY => fun hx => h (hY hx)
  | .array _, _, _, h, hY => exprsAvoid_anti h hY
  | .object _, _, _, h, hY => fieldsAvoid_anti h hY
  | .unary _ e, _, _, h, hY => @Expr.Avoids.anti e _ _ h hY
  | .binary _ _ _, _, _, h, hY | .logic _ _ _, _, _, h, hY | .member _ _, _, _, h, hY
  | .assign _ _, _, _, h, hY => ⟨h.1.anti hY, h.2.anti hY⟩
  | .cond _ _ _, _, _, h, hY => ⟨h.1.anti hY, h.2.1.anti hY, h.2.2.anti hY⟩
  | .call _ _, _, _, h, hY => ⟨h.1.anti hY, exprsAvoid_anti h.2 hY⟩
  | .func _ _ body, _, _, h, hY =>
    @stmtsAvoid_anti body _ _ h (Set.sdiff_subset_sdiff_left hY)
  | .num _, _, _, _, _ | .str _, _, _, _, _ | .bool _, _, _, _, _ | .null, _, _, _, _
  | .undefined, _, _, _, _ => trivial

theorem exprsAvoid_anti :
    ∀ {es : List Expr} {X Y : Set String}, ExprsAvoid es X → Y ⊆ X → ExprsAvoid es Y
  | [], _, _, _, _ => trivial
  | _ :: _, _, _, h, hY => ⟨h.1.anti hY, exprsAvoid_anti h.2 hY⟩

theorem fieldsAvoid_anti :
    ∀ {fs : List (String × Expr)} {X Y : Set String}, FieldsAvoid fs X → Y ⊆ X → FieldsAvoid fs Y
  | [], _, _, _, _ => trivial
  | (_, _) :: _, _, _, h, hY => ⟨h.1.anti hY, fieldsAvoid_anti h.2 hY⟩

theorem bindingsAvoid_anti :
    ∀ {ds : List (String × Expr)} {X Y : Set String}, BindingsAvoid ds X → Y ⊆ X →
      BindingsAvoid ds Y
  | [], _, _, _, _ => trivial
  | (x, e) :: ds, X, Y, h, hY => by
    have hrest := bindingsAvoid_anti (bindingsAvoid_cons.1 h).2 (Set.sdiff_subset_sdiff_left hY)
    refine bindingsAvoid_cons.2 ⟨?_, hrest⟩
    have hinit := (bindingsAvoid_cons.1 h).1
    cases e with
    | func name params body =>
      cases name with
      | none => exact @stmtsAvoid_anti body _ _ hinit (Set.sdiff_subset_sdiff_left hY)
      | some f => exact @stmtsAvoid_anti body _ _ hinit (Set.sdiff_subset_sdiff_left hY)
    | _ => exact Expr.Avoids.anti hinit hY

theorem Stmt.Avoids.anti :
    ∀ {s : Stmt} {X Y : Set String}, s.Avoids X → Y ⊆ X → s.Avoids Y
  | .empty, _, _, _, _ => trivial
  | .expr e, _, _, h, hY | .ret e, _, _, h, hY => @Expr.Avoids.anti e _ _ h hY
  | .declare ds, _, _, h, hY => @bindingsAvoid_anti ds _ _ h hY
  | .ifElse _ _ _, _, _, h, hY =>
    ⟨h.1.anti hY, stmtsAvoid_anti h.2.1 hY, stmtsAvoid_anti h.2.2 hY⟩
  | .block body, _, _, h, hY => @stmtsAvoid_anti body _ _ h hY

theorem stmtsAvoid_anti :
    ∀ {ss : List Stmt} {X Y : Set String}, StmtsAvoid ss X → Y ⊆ X → StmtsAvoid ss Y
  | [], _, _, _, _ => trivial
  | _ :: _, _, _, h, hY =>
    ⟨h.1.anti hY, stmtsAvoid_anti h.2 (Set.sdiff_subset_sdiff_left hY)⟩

end

theorem singleton_sdiff {x : String} {Y : Set String} (h : x ∉ Y) :
    {x} ⊆ ({x} : Set String) \ Y := by
  rintro y rfl
  exact ⟨rfl, h⟩

mutual

theorem Expr.avoids_of_forall :
    ∀ {e : Expr} {X : Set String}, (∀ x ∈ e.names, x ∈ X → e.Avoids {x}) → e.Avoids X
  | .var x, _, h => fun hx => h x (List.mem_singleton_self x) hx rfl
  | .array es, _, h => @exprsAvoid_of_forall es _ h
  | .object fs, _, h => @fieldsAvoid_of_forall fs _ h
  | .unary _ e, _, h => @Expr.avoids_of_forall e _ h
  | .binary l r _, _, h | .logic l r _, _, h | .member l r, _, h | .assign l r, _, h =>
    have h := List.forall_mem_append.1 h
    ⟨@Expr.avoids_of_forall l _ fun x hx hX => (h.1 x hx hX).1,
      @Expr.avoids_of_forall r _ fun x hx hX => (h.2 x hx hX).2⟩
  | .cond t c a, _, h =>
    have h := List.forall_mem_append.1 h
    have h' := List.forall_mem_append.1 h.2
    ⟨@Expr.avoids_of_forall t _ fun x hx hX => (h.1 x hx hX).1,
      @Expr.avoids_of_forall c _ fun x hx hX => (h'.1 x hx hX).2.1,
      @Expr.avoids_of_forall a _ fun x hx hX => (h'.2 x hx hX).2.2⟩
  | .call f es, _, h =>
    have h := List.forall_mem_append.1 h
    ⟨@Expr.avoids_of_forall f _ fun x hx hX => (h.1 x hx hX).1,
      @exprsAvoid_of_forall es _ fun x hx hX => (h.2 x hx hX).2⟩
  | .func name params body, X, h =>
    have h := (List.forall_mem_append.1 (List.forall_mem_append.1 h).2).2
    @stmtsAvoid_of_forall body (X \ boundBy name params) fun x hx hX =>
      stmtsAvoid_anti (h x hx hX.1) (singleton_sdiff hX.2)
  | .num _, _, _ | .str _, _, _ | .bool _, _, _ | .null, _, _ | .undefined, _, _ => trivial

theorem exprsAvoid_of_forall :
    ∀ {es : List Expr} {X : Set String}, (∀ x ∈ exprsNames es, x ∈ X → ExprsAvoid es {x}) →
      ExprsAvoid es X
  | [], _, _ => trivial
  | e :: es, _, h =>
    have h := List.forall_mem_append.1 h
    ⟨@Expr.avoids_of_forall e _ fun x hx hX => (h.1 x hx hX).1,
      @exprsAvoid_of_forall es _ fun x hx hX => (h.2 x hx hX).2⟩

theorem fieldsAvoid_of_forall :
    ∀ {fs : List (String × Expr)} {X : Set String},
      (∀ x ∈ fieldsNames fs, x ∈ X → FieldsAvoid fs {x}) → FieldsAvoid fs X
  | [], _, _ => trivial
  | (_, e) :: fs, _, h =>
    have h := List.forall_mem_append.1 h
    ⟨@Expr.avoids_of_forall e _ fun x hx hX => (h.1 x hx hX).1,
      @fieldsAvoid_of_forall fs _ fun x hx hX => (h.2 x hx hX).2⟩

theorem bindingsAvoid_of_forall :
    ∀ {ds : List (String × Expr)} {X : Set String},
      (∀ x ∈ fieldsNames ds, x ∈ X → BindingsAvoid ds {x}) → BindingsAvoid ds X
  | [], _, _ => trivial
  | (y, e) :: ds, X, h => by
    obtain ⟨hinit, hrest⟩ := List.forall_mem_append.1 h
    refine bindingsAvoid_cons.2 ⟨?_, @bindingsAvoid_of_forall ds _ fun x hx hX =>
      bindingsAvoid_anti (bindingsAvoid_cons.1 (hrest x hx hX.1)).2 (singleton_sdiff hX.2)⟩
    have hinit (x : String) (hx : x ∈ e.names) (hX : x ∈ X) :=
      (bindingsAvoid_cons.1 (hinit x hx hX)).1
    cases e with
    | func name params body =>
      have hbody (x : String) (hx : x ∈ stmtsNames body) (hX : x ∈ X) :=
        hinit x (List.mem_append_right _ (List.mem_append_right _ hx)) hX
      cases name with
      | none =>
        exact @stmtsAvoid_of_forall body (X \ boundBy (some y) params) fun x hx hX =>
          stmtsAvoid_anti (hbody x hx hX.1) (singleton_sdiff hX.2)
      | some f =>
        exact @stmtsAvoid_of_forall body (X \ boundBy (some f) params) fun x hx hX =>
          stmtsAvoid_anti (hbody x hx hX.1) (singleton_sdiff hX.2)
    | _ => exact Expr.avoids_of_forall hinit

theorem Stmt.avoids_of_forall :
    ∀ {s : Stmt} {X : Set String}, (∀ x ∈ s.names, x ∈ X → s.Avoids {x}) → s.Avoids X
  | .empty, _, _ => trivial
  | .expr e, _, h | .ret e, _, h => @Expr.avoids_of_forall e _ h
  | .declare ds, _, h => @bindingsAvoid_of_forall ds _ (List.forall_mem_append.1 h).2
  | .ifElse t c a, _, h =>
    have h := List.forall_mem_append.1 h
    have h' := List.forall_mem_append.1 h.2
    ⟨@Expr.avoids_of_forall t _ fun x hx hX => (h.1 x hx hX).1,
      @stmtsAvoid_of_forall c _ fun x hx hX => (h'.1 x hx hX).2.1,
      @stmtsAvoid_of_forall a _ fun x hx hX => (h'.2 x hx hX).2.2⟩
  | .block body, _, h => @stmtsAvoid_of_forall body _ h

theorem stmtsAvoid_of_forall :
    ∀ {ss : List Stmt} {X : Set String}, (∀ x ∈ stmtsNames ss, x ∈ X → StmtsAvoid ss {x}) →
      StmtsAvoid ss X
  | [], _, _ => trivial
  | s :: ss, X, h =>
    have h := List.forall_mem_append.1 h
    ⟨@Stmt.avoids_of_forall s _ fun x hx hX => (h.1 x hx hX).1,
      @stmtsAvoid_of_forall ss (X \ {x | x ∈ s.declared}) fun x hx hX =>
        stmtsAvoid_anti (h.2 x hx hX.1).2 (singleton_sdiff hX.2)⟩

end

theorem stmtsAvoid_empty (ss : List Stmt) : StmtsAvoid ss ∅ :=
  stmtsAvoid_of_forall nofun

theorem Expr.Avoids.called {e : Expr} {X : Set String} (h : e.Avoids X) (x : String) :
    (e.called x).Avoids X := by
  cases e with
  | func name params body =>
    cases name with
    | none =>
      refine @stmtsAvoid_anti body _ _ h ?_
      rintro y ⟨hy, hbound⟩
      exact ⟨hy, fun hy' => hbound (.inr (hy'.resolve_left nofun))⟩
    | some f => exact h
  | _ => exact h

end Mono

/-! ## The linear form -/

section Linear

variable (σ : String → String)

theorem Expr.isPrimitive_rename (e : Expr) : (e.rename σ).isPrimitive = e.isPrimitive := by
  cases e with
  | member o p => cases o <;> cases p <;> rfl
  | _ => rfl

theorem renameStmts_isEmpty (ss : List Stmt) : (renameStmts σ ss).isEmpty = ss.isEmpty := by
  cases ss <;> rfl

mutual

theorem Stmt.hasReturn_rename : ∀ s : Stmt, (s.rename σ).hasReturn = s.hasReturn
  | .empty | .expr _ | .declare _ | .ret _ => rfl
  | .block body => anyReturn_rename body
  | .ifElse _ c a => by
    rw [Stmt.rename, Stmt.hasReturn, Stmt.hasReturn, anyReturn_rename c, anyReturn_rename a]

theorem anyReturn_rename : ∀ ss : List Stmt, anyReturn (renameStmts σ ss) = anyReturn ss
  | [] => rfl
  | s :: ss => by
    rw [renameStmts, anyReturn, anyReturn, Stmt.hasReturn_rename s, anyReturn_rename ss]

end

mutual

theorem Stmt.linearizeOnto_rename : ∀ (s : Stmt) (after : List Stmt),
    (s.rename σ).linearizeOnto (renameStmts σ after) = renameStmts σ (s.linearizeOnto after)
  | .empty, _ | .expr _, _ | .declare _, _ | .ret _, _ => rfl
  | .block body, after => linearizeOnto_rename body after
  | .ifElse t c a, after => by
    rw [Stmt.rename, Stmt.linearizeOnto, Stmt.linearizeOnto, anyReturn_rename, anyReturn_rename]
    split_ifs
    · rw [linearizeOnto_rename c after, linearizeOnto_rename a after]
      rfl
    · rfl

theorem linearizeOnto_rename : ∀ ss after : List Stmt,
    linearizeOnto (renameStmts σ ss) (renameStmts σ after) = renameStmts σ (linearizeOnto ss after)
  | [], _ => rfl
  | s :: ss, after => by
    rw [renameStmts, linearizeOnto, linearizeOnto, linearizeOnto_rename ss after,
      Stmt.linearizeOnto_rename s]

end

mutual

theorem Expr.flatten_rename : ∀ e : Expr, (e.rename σ).flatten = e.flatten.rename σ
  | .var _ | .num _ | .str _ | .bool _ | .null | .undefined => rfl
  | .array es => congrArg Expr.array (flattenExprs_rename es)
  | .object fs => congrArg Expr.object (flattenFields_rename fs)
  | .unary op e => congrArg (Expr.unary op) (Expr.flatten_rename e)
  | .binary l r _ | .logic l r _ | .member l r | .assign l r => by
    simp only [Expr.rename, Expr.flatten, Expr.flatten_rename l, Expr.flatten_rename r]
  | .cond t c a => by
    simp only [Expr.rename, Expr.flatten, Expr.flatten_rename t, Expr.flatten_rename c,
      Expr.flatten_rename a]
  | .call f es => by
    simp only [Expr.rename, Expr.flatten, Expr.flatten_rename f, flattenExprs_rename es]
  | .func name params body => by
    simp only [Expr.rename, Expr.flatten, flattenStmts_rename body, linearize]
    rw [← linearizeOnto_rename, renameStmts]

theorem flattenExprs_rename :
    ∀ es : List Expr, flattenExprs (renameExprs σ es) = renameExprs σ (flattenExprs es)
  | [] => rfl
  | e :: es => by
    simp only [renameExprs, flattenExprs, Expr.flatten_rename e, flattenExprs_rename es]

theorem flattenFields_rename :
    ∀ fs : List (String × Expr),
      flattenFields (renameFields σ fs) = renameFields σ (flattenFields fs)
  | [] => rfl
  | (_, e) :: fs => by
    simp only [renameFields, flattenFields, Expr.flatten_rename e, flattenFields_rename fs]

theorem flattenBindings_rename :
    ∀ ds : List (String × Expr),
      flattenFields (renameBindings σ ds) = renameBindings σ (flattenFields ds)
  | [] => rfl
  | (_, e) :: ds => by
    simp only [renameBindings, flattenFields, Expr.flatten_rename e, flattenBindings_rename ds]

theorem Stmt.flatten_rename : ∀ s : Stmt, (s.rename σ).flatten = s.flatten.rename σ
  | .empty => rfl
  | .expr e => congrArg Stmt.expr (Expr.flatten_rename e)
  | .ret e => congrArg Stmt.ret (Expr.flatten_rename e)
  | .declare ds => congrArg Stmt.declare (flattenBindings_rename ds)
  | .ifElse t c a => by
    simp only [Stmt.rename, Stmt.flatten, Expr.flatten_rename t, flattenStmts_rename c,
      flattenStmts_rename a]
  | .block body => congrArg Stmt.block (flattenStmts_rename body)

theorem flattenStmts_rename :
    ∀ ss : List Stmt, flattenStmts (renameStmts σ ss) = renameStmts σ (flattenStmts ss)
  | [] => rfl
  | s :: ss => by
    simp only [renameStmts, flattenStmts, Stmt.flatten_rename s, flattenStmts_rename ss]

end

mutual

theorem Stmt.returning_rename : ∀ s : Stmt, (s.rename σ).returning = s.returning.rename σ
  | .empty | .expr _ | .ret _ | .declare _ => rfl
  | .block body => congrArg Stmt.block (returnLast_rename body)
  | .ifElse t c a => by
    simp only [Stmt.rename, Stmt.returning, returnLast_rename c, returnLast_rename a]

theorem returnLast_rename :
    ∀ ss : List Stmt, returnLast (renameStmts σ ss) = renameStmts σ (returnLast ss)
  | [] => rfl
  | [s] => by simp only [renameStmts, returnLast, Stmt.returning_rename s]
  | s :: t :: ss => by
    have ih := returnLast_rename (t :: ss)
    simp only [renameStmts] at ih
    simp only [renameStmts, returnLast, ih]

end

end Linear

section AvoidLinear

theorem stmtsAvoid_of_declared_nil {ss : List Stmt} {X : Set String}
    (h : StmtsAvoid ss (X \ {x | x ∈ ([] : List String)})) : StmtsAvoid ss X :=
  stmtsAvoid_anti h fun _ hx => ⟨hx, List.not_mem_nil⟩

mutual

theorem stmt_linearizeOnto_avoid : ∀ {s : Stmt} {after : List Stmt} {X : Set String}, s.Avoids X →
    StmtsAvoid after (X \ {x | x ∈ s.declared}) → StmtsAvoid (s.linearizeOnto after) X
  | .empty, _, _, h, hafter | .expr _, _, _, h, hafter | .declare _, _, _, h, hafter => ⟨h, hafter⟩
  | .ret _, _, _, h, _ => ⟨h, trivial⟩
  | .block body, _, _, h, hafter =>
    @linearizeOnto_avoid body _ _ h (stmtsAvoid_of_declared_nil hafter)
  | .ifElse _ _ _, _, _, h, hafter => by
    have hcopied := stmtsAvoid_of_declared_nil hafter
    rw [Stmt.linearizeOnto]
    split_ifs
    · exact ⟨⟨h.1, linearizeOnto_avoid h.2.1 hcopied, linearizeOnto_avoid h.2.2 hcopied⟩, trivial⟩
    · exact ⟨h, hafter⟩

theorem linearizeOnto_avoid : ∀ {ss after : List Stmt} {X : Set String}, StmtsAvoid ss X →
    StmtsAvoid after X → StmtsAvoid (linearizeOnto ss after) X
  | [], _, _, _, hafter => hafter
  | _ :: _, _, _, h, hafter =>
    stmt_linearizeOnto_avoid h.1
      (linearizeOnto_avoid h.2 (stmtsAvoid_anti hafter Set.sdiff_subset))

end

theorem Stmt.declared_flatten (s : Stmt) : s.flatten.declared = s.declared := by
  cases s with
  | declare ds => exact Compile.flattenFields_keys ds
  | _ => rfl

mutual

theorem Expr.Avoids.flatten : ∀ {e : Expr} {X : Set String}, e.Avoids X → e.flatten.Avoids X
  | .var _, _, h | .num _, _, h | .str _, _, h | .bool _, _, h | .null, _, h | .undefined, _, h => h
  | .array es, _, h => @flattenExprs_avoid es _ h
  | .object fs, _, h => @flattenFields_avoid fs _ h
  | .unary _ e, _, h => @Expr.Avoids.flatten e _ h
  | .binary _ _ _, _, h | .logic _ _ _, _, h | .member _ _, _, h | .assign _ _, _, h =>
    ⟨h.1.flatten, h.2.flatten⟩
  | .cond _ _ _, _, h => ⟨h.1.flatten, h.2.1.flatten, h.2.2.flatten⟩
  | .call _ _, _, h => ⟨h.1.flatten, flattenExprs_avoid h.2⟩
  | .func _ _ body, _, h => linearizeOnto_avoid (@flattenStmts_avoid body _ h) trivial

theorem flattenExprs_avoid : ∀ {es : List Expr} {X : Set String}, ExprsAvoid es X →
    ExprsAvoid (flattenExprs es) X
  | [], _, _ => trivial
  | _ :: _, _, h => ⟨h.1.flatten, flattenExprs_avoid h.2⟩

theorem flattenFields_avoid : ∀ {fs : List (String × Expr)} {X : Set String}, FieldsAvoid fs X →
    FieldsAvoid (flattenFields fs) X
  | [], _, _ => trivial
  | (_, _) :: _, _, h => ⟨h.1.flatten, flattenFields_avoid h.2⟩

theorem flattenBindings_avoid : ∀ {ds : List (String × Expr)} {X : Set String},
    BindingsAvoid ds X → BindingsAvoid (flattenFields ds) X
  | [], _, _ => trivial
  | (x, e) :: ds, X, h => by
    obtain ⟨hinit, hrest⟩ := bindingsAvoid_cons.1 h
    refine bindingsAvoid_cons.2 ⟨?_, flattenBindings_avoid hrest⟩
    cases e with
    | func name params body =>
      cases name <;> exact linearizeOnto_avoid (@flattenStmts_avoid body _ hinit) trivial
    | _ => exact Expr.Avoids.flatten hinit

theorem Stmt.Avoids.flatten : ∀ {s : Stmt} {X : Set String}, s.Avoids X → s.flatten.Avoids X
  | .empty, _, _ => trivial
  | .expr e, _, h | .ret e, _, h => @Expr.Avoids.flatten e _ h
  | .declare ds, _, h => @flattenBindings_avoid ds _ h
  | .ifElse _ _ _, _, h => ⟨h.1.flatten, flattenStmts_avoid h.2.1, flattenStmts_avoid h.2.2⟩
  | .block body, _, h => @flattenStmts_avoid body _ h

theorem flattenStmts_avoid : ∀ {ss : List Stmt} {X : Set String}, StmtsAvoid ss X →
    StmtsAvoid (flattenStmts ss) X
  | [], _, _ => trivial
  | s :: _, _, h => ⟨h.1.flatten, s.declared_flatten ▸ flattenStmts_avoid h.2⟩

end

mutual

theorem Stmt.Avoids.returning : ∀ {s : Stmt} {X : Set String}, s.Avoids X → s.returning.Avoids X
  | .empty, _, h | .expr _, _, h | .ret _, _, h | .declare _, _, h => h
  | .block body, _, h => @returnLast_avoid body _ h
  | .ifElse _ _ _, _, h => ⟨h.1, returnLast_avoid h.2.1, returnLast_avoid h.2.2⟩

theorem returnLast_avoid : ∀ {ss : List Stmt} {X : Set String}, StmtsAvoid ss X →
    StmtsAvoid (returnLast ss) X
  | [], _, _ => trivial
  | [_], _, h => ⟨h.1.returning, trivial⟩
  | _ :: t :: ss, _, h => ⟨h.1, @returnLast_avoid (t :: ss) _ h.2⟩

end

end AvoidLinear

end Chance
