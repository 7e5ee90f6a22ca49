import Chance.Proofs.Renaming.Syntax
import Chance.Proofs.Syntax.Acceptance

/-!
# Renaming and compilation

Compilation respects renamings that leave generated names alone: the passes give out numbers by the
shape of a tree alone, so the compiled form of a renamed program is the renamed compiled form. Names
that the program does not use free are not used free by its compiled form either.

- `Renames σ X e e'`: the second expression is the first renamed, which avoids the names of `X`,
- `Compile.Gen.Mirrors`: two computations that make up the same names,
- `addressExpr_mirrors`, `usage_mirrors`: addresses, and conversion to continuation-passing form,
- `checkTail_rename`: the check of converted code.
-/

namespace Chance

/-- The second expression is the first one renamed, and the first avoids the names of the set. -/
structure Renames (σ : String → String) (X : Set String) (e e' : Expr) : Prop where
  eq : e' = e.rename σ
  avoids : e.Avoids X

structure RenamesAll (σ : String → String) (X : Set String) (es es' : List Expr) : Prop where
  eq : es' = renameExprs σ es
  avoid : ExprsAvoid es X

structure RenamesFields (σ : String → String) (X : Set String) (fs fs' : List (String × Expr)) :
    Prop where
  eq : fs' = renameFields σ fs
  avoid : FieldsAvoid fs X

/-- Names that no pass makes up. -/
def Plain (X : Set String) : Prop :=
  ∀ x ∈ X, ¬ IsGenerated x

namespace Renames

variable {σ : String → String} {X : Set String}

theorem anti {e e' : Expr} {Y : Set String} (h : Renames σ X e e') (hY : Y ⊆ X) :
    Renames σ Y e e' :=
  ⟨h.eq, h.avoids.anti hY⟩

theorem undefined : Renames σ X .undefined .undefined := ⟨rfl, trivial⟩

theorem str (s : String) : Renames σ X (.str s) (.str s) := ⟨rfl, trivial⟩

theorem unary (op : UnaryOp) {e e' : Expr} (h : Renames σ X e e') :
    Renames σ X (.unary op e) (.unary op e') :=
  ⟨by rw [h.eq, Expr.rename], h.avoids⟩

theorem binary (op : BinaryOp) {l l' r r' : Expr} (hl : Renames σ X l l') (hr : Renames σ X r r') :
    Renames σ X (.binary l r op) (.binary l' r' op) :=
  ⟨by rw [hl.eq, hr.eq, Expr.rename], hl.avoids, hr.avoids⟩

theorem logic (op : LogicOp) {l l' r r' : Expr} (hl : Renames σ X l l') (hr : Renames σ X r r') :
    Renames σ X (.logic l r op) (.logic l' r' op) :=
  ⟨by rw [hl.eq, hr.eq, Expr.rename], hl.avoids, hr.avoids⟩

theorem member {o o' p p' : Expr} (ho : Renames σ X o o') (hp : Renames σ X p p') :
    Renames σ X (.member o p) (.member o' p') :=
  ⟨by rw [ho.eq, hp.eq, Expr.rename], ho.avoids, hp.avoids⟩

theorem assign {t t' v v' : Expr} (ht : Renames σ X t t') (hv : Renames σ X v v') :
    Renames σ X (.assign t v) (.assign t' v') :=
  ⟨by rw [ht.eq, hv.eq, Expr.rename], ht.avoids, hv.avoids⟩

theorem cond {t t' c c' a a' : Expr} (ht : Renames σ X t t') (hc : Renames σ X c c')
    (ha : Renames σ X a a') : Renames σ X (.cond t c a) (.cond t' c' a') :=
  ⟨by rw [ht.eq, hc.eq, ha.eq, Expr.rename], ht.avoids, hc.avoids, ha.avoids⟩

theorem array {es es' : List Expr} (h : RenamesAll σ X es es') :
    Renames σ X (.array es) (.array es') :=
  ⟨by rw [h.eq, Expr.rename], h.avoid⟩

theorem object {fs fs' : List (String × Expr)} (h : RenamesFields σ X fs fs') :
    Renames σ X (.object fs) (.object fs') :=
  ⟨by rw [h.eq, Expr.rename], h.avoid⟩

theorem call {f f' : Expr} {es es' : List Expr} (hf : Renames σ X f f')
    (hes : RenamesAll σ X es es') : Renames σ X (.call f es) (.call f' es') :=
  ⟨by rw [hf.eq, hes.eq, Expr.rename], hf.avoids, hes.avoid⟩

theorem func {name : Option String} {params : List String} {e e' : Expr}
    (h : Renames σ (X \ boundBy name params) e e') :
    Renames σ X (.func name params [.expr e]) (.func (name.map σ) (params.map σ) [.expr e']) :=
  ⟨by rw [h.eq, Expr.rename]; rfl, h.avoids, trivial⟩

theorem lambda {x : String} {e e' : Expr} (h : Renames σ (X \ {x}) e e') :
    Renames σ X (.lambda [x] e) (.lambda [σ x] e') := by
  refine @func _ _ none [x] _ _ (h.anti ?_)
  rintro y ⟨hy, hbound⟩
  exact ⟨hy, fun heq => hbound (.inr (List.mem_singleton.2 heq))⟩

theorem lambda_generated (hσ : IsRenaming σ) {x : String} (hx : IsGenerated x) {e e' : Expr}
    (h : Renames σ (X \ {x}) e e') : Renames σ X (.lambda [x] e) (.lambda [x] e') := by
  have hlambda := lambda (x := x) h
  rwa [hσ.generated hx] at hlambda

theorem bound (hσ : IsRenaming σ) {x : String} (hx : IsGenerated x) (h : x ∉ X) :
    Renames σ X (.var x) (.var x) :=
  ⟨congrArg Expr.var (hσ.generated hx).symm, h⟩

end Renames

theorem Renames.generated {σ : String → String} {X : Set String} (hσ : IsRenaming σ) (hX : Plain X)
    {x : String} (hx : IsGenerated x) : Renames σ X (.var x) (.var x) :=
  .bound hσ hx fun h => hX x h hx

theorem RenamesAll.nil {σ : String → String} {X : Set String} : RenamesAll σ X [] [] :=
  ⟨rfl, trivial⟩

theorem RenamesAll.cons {σ : String → String} {X : Set String} {e e' : Expr} {es es' : List Expr}
    (he : Renames σ X e e') (hes : RenamesAll σ X es es') : RenamesAll σ X (e :: es) (e' :: es') :=
  ⟨by rw [he.eq, hes.eq, renameExprs], he.avoids, hes.avoid⟩

theorem RenamesFields.nil {σ : String → String} {X : Set String} : RenamesFields σ X [] [] :=
  ⟨rfl, trivial⟩

theorem RenamesFields.cons {σ : String → String} {X : Set String} {e e' : Expr}
    {fs fs' : List (String × Expr)} (k : String) (he : Renames σ X e e')
    (hfs : RenamesFields σ X fs fs') : RenamesFields σ X ((k, e) :: fs) ((k, e') :: fs') :=
  ⟨by rw [he.eq, hfs.eq, renameFields], he.avoids, hfs.avoid⟩

theorem Renames.resume {σ : String → String} {X : Set String} {k k' v v' : Expr}
    (hk : Renames σ X k k') (hv : Renames σ X v v') :
    Renames σ X (Compile.resume k v) (Compile.resume k' v') :=
  .call hk (.cons hv .nil)

namespace Compile

/-! ## The same made-up names -/

/-- Two computations that give related results, and the same numbers out. -/
def Gen.Mirrors {α β : Type} (Q : α → β → Prop) (x : Gen α) (y : Gen β) : Prop :=
  ∀ n, (y.run n).2 = (x.run n).2 ∧ Q (x.run n).1 (y.run n).1

namespace Gen.Mirrors

variable {α β γ δ : Type} {Q : α → β → Prop} {S : γ → δ → Prop}

theorem pure {a : α} {b : β} (h : Q a b) : Gen.Mirrors Q (pure a) (pure b) := fun _ => ⟨rfl, h⟩

theorem bind {x : Gen α} {y : Gen β} {f : α → Gen γ} {g : β → Gen δ} (h : Gen.Mirrors Q x y)
    (k : ∀ a b, Q a b → Gen.Mirrors S (f a) (g b)) : Gen.Mirrors S (x >>= f) (y >>= g) := by
  intro n
  obtain ⟨hn, hab⟩ := h n
  change ((g (y.run n).1).run (y.run n).2).2 = ((f (x.run n).1).run (x.run n).2).2 ∧
    S ((f (x.run n).1).run (x.run n).2).1 ((g (y.run n).1).run (y.run n).2).1
  rw [hn]
  exact k _ _ hab (x.run n).2

theorem weaken {Q' : α → β → Prop} {x : Gen α} {y : Gen β} (h : Gen.Mirrors Q x y)
    (k : ∀ a b, Q a b → Q' a b) : Gen.Mirrors Q' x y :=
  fun n => ⟨(h n).1, k _ _ (h n).2⟩

end Gen.Mirrors

theorem fresh_mirrors {hint : String} (h : hint ∈ nameHints) :
    Gen.Mirrors (fun x y => y = x ∧ IsGenerated x) (fresh hint) (fresh hint) :=
  fun n => ⟨rfl, rfl, hint, h, n, rfl⟩

theorem fragment_mirrors (σ : String → String) (X : Set String) :
    Gen.Mirrors (Renames σ X) fragment fragment :=
  fun _ => ⟨rfl, .str _⟩

/-! ## Addresses -/

section Addresses

variable {σ : String → String}

theorem extended_renames {X : Set String} {a : String} {l l' : Expr}
    (ha : Renames σ X (.var a) (.var a)) (hl : Renames σ X l l') :
    Renames σ X (extended a l) (extended a l') :=
  .call (.member ha (.str _)) (.cons hl .nil)

/-- Statement lists that are renamed. -/
abbrev RenamesStmts (σ : String → String) (X : Set String) (ss ss' : List Stmt) : Prop :=
  ss' = renameStmts σ ss ∧ StmtsAvoid ss X

theorem not_mem_below {name : Option String} {x : String} {params : List String} {X : Set String} :
    x ∉ X \ boundBy name (x :: params) :=
  fun hx => hx.2 (.inr List.mem_cons_self)

theorem sdiff_boundBy_cons_subset {name : Option String} {x : String} {params : List String}
    {X : Set String} : X \ boundBy name (x :: params) ⊆ X \ boundBy name params :=
  fun _ hy => ⟨hy.1, fun hbound => hy.2 (hbound.imp_right (List.mem_cons_of_mem x))⟩

theorem addressFunc_mirrors (hσ : IsRenaming σ) {a : String} {name name' : Option String}
    {params : List String} {body : List Stmt} {X : Set String}
    (hbody : ∀ inner, IsGenerated inner →
      Gen.Mirrors (RenamesStmts σ (X \ boundBy name' (inner :: params))) (addressStmts inner body)
        (addressStmts inner (renameStmts σ body))) :
    Gen.Mirrors
      (fun e e' => e' = e.rename σ ∧ ∃ ps ss, e = .func name ps ss ∧
        (Expr.func name' ps ss).Avoids X)
      (addressExpr a (.func name params body))
      (addressExpr a ((Expr.func name params body).rename σ)) := by
  refine (fresh_mirrors (by decide)).bind ?_
  rintro _ inner ⟨rfl, hinner⟩
  refine (hbody inner hinner).bind fun ss ss' hss => .pure ⟨?_, inner :: params, ss, rfl, hss.2⟩
  rw [Expr.rename, hss.1, List.map_cons, hσ.generated hinner]

mutual

theorem addressExpr_mirrors (hσ : IsRenaming σ) {a : String} (ha : IsGenerated a) :
    ∀ (e : Expr) {X : Set String}, a ∉ X → e.Avoids X →
      Gen.Mirrors (Renames σ X) (addressExpr a e) (addressExpr a (e.rename σ))
  | .num _, _, _, h | .str _, _, _, h | .bool _, _, _, h | .null, _, _, h | .undefined, _, _, h
  | .var _, _, _, h => .pure ⟨rfl, h⟩
  | .array es, _, hX, h => (addressExprs_mirrors hσ ha es hX h).bind fun _ _ hes =>
    .pure (.array hes)
  | .object fs, _, hX, h =>
    (addressFields_mirrors hσ ha fs hX h).bind fun _ _ hfs => .pure (.object hfs)
  | .unary op e, _, hX, h => (addressExpr_mirrors hσ ha e hX h).bind fun _ _ he =>
    .pure (.unary op he)
  | .binary l r op, _, hX, h =>
    (addressExpr_mirrors hσ ha l hX h.1).bind fun _ _ hl =>
      (addressExpr_mirrors hσ ha r hX h.2).bind fun _ _ hr => .pure (.binary op hl hr)
  | .logic l r op, _, hX, h =>
    (addressExpr_mirrors hσ ha l hX h.1).bind fun _ _ hl =>
      (addressExpr_mirrors hσ ha r hX h.2).bind fun _ _ hr => .pure (.logic op hl hr)
  | .member o p, _, hX, h =>
    (addressExpr_mirrors hσ ha o hX h.1).bind fun _ _ ho =>
      (addressExpr_mirrors hσ ha p hX h.2).bind fun _ _ hp => .pure (.member ho hp)
  | .assign t v, _, hX, h =>
    (addressExpr_mirrors hσ ha t hX h.1).bind fun _ _ ht =>
      (addressExpr_mirrors hσ ha v hX h.2).bind fun _ _ hv => .pure (.assign ht hv)
  | .cond t c e, _, hX, h =>
    (addressExpr_mirrors hσ ha t hX h.1).bind fun _ _ ht =>
      (addressExpr_mirrors hσ ha c hX h.2.1).bind fun _ _ hc =>
        (addressExpr_mirrors hσ ha e hX h.2.2).bind fun _ _ he => .pure (.cond ht hc he)
  | .call f es, X, hX, h => by
    refine (addressExpr_mirrors hσ ha f hX h.1).bind fun f₁ f₂ hf => ?_
    refine (addressExprs_mirrors hσ ha es hX h.2).bind fun es₁ es₂ hes => ?_
    rw [Expr.isPrimitive_rename]
    split_ifs
    · exact .pure (.call hf hes)
    · refine (fragment_mirrors σ X).bind fun l l' hl => ?_
      exact .pure (.call hf (.cons (extended_renames (.bound hσ ha hX) hl) hes))
  | .func _ _ body, _, _, h => by
    refine (addressFunc_mirrors hσ fun inner hinner => addressStmts_mirrors hσ hinner body
      not_mem_below (stmtsAvoid_anti h sdiff_boundBy_cons_subset)).weaken ?_
    rintro _ e' ⟨he, ps, ss, rfl, havoids⟩
    exact ⟨he, havoids⟩

theorem addressExprs_mirrors (hσ : IsRenaming σ) {a : String} (ha : IsGenerated a) :
    ∀ (es : List Expr) {X : Set String}, a ∉ X → ExprsAvoid es X →
      Gen.Mirrors (RenamesAll σ X) (addressExprs a es) (addressExprs a (renameExprs σ es))
  | [], _, _, _ => .pure .nil
  | e :: es, _, hX, h =>
    (addressExpr_mirrors hσ ha e hX h.1).bind fun _ _ he =>
      (addressExprs_mirrors hσ ha es hX h.2).bind fun _ _ hes => .pure (.cons he hes)

theorem addressFields_mirrors (hσ : IsRenaming σ) {a : String} (ha : IsGenerated a) :
    ∀ (fs : List (String × Expr)) {X : Set String}, a ∉ X → FieldsAvoid fs X →
      Gen.Mirrors (RenamesFields σ X) (addressFields a fs) (addressFields a (renameFields σ fs))
  | [], _, _, _ => .pure .nil
  | (k, e) :: fs, _, hX, h =>
    (addressExpr_mirrors hσ ha e hX h.1).bind fun _ _ he =>
      (addressFields_mirrors hσ ha fs hX h.2).bind fun _ _ hfs => .pure (.cons k he hfs)

theorem addressBindings_mirrors (hσ : IsRenaming σ) {a : String} (ha : IsGenerated a) :
    ∀ (ds : List (String × Expr)) {X : Set String}, a ∉ X → BindingsAvoid ds X →
      Gen.Mirrors (fun ds₁ ds₂ => ds₂ = renameBindings σ ds₁ ∧ BindingsAvoid ds₁ X ∧
          ds₁.map Prod.fst = ds.map Prod.fst)
        (addressFields a ds) (addressFields a (renameBindings σ ds))
  | [], _, _, _ => .pure ⟨rfl, trivial, rfl⟩
  | (x, e) :: ds, X, hX, h => by
    obtain ⟨hinit, hrest⟩ := bindingsAvoid_cons.1 h
    have hds := addressBindings_mirrors hσ ha ds (fun hmem => hX hmem.1) hrest
    have he : Gen.Mirrors (fun e e' => e' = e.rename σ ∧ (e.called x).Avoids X) (addressExpr a e)
        (addressExpr a (e.rename σ)) := by
      cases e with
      | func name params body =>
        cases name with
        | none =>
          have hbody : StmtsAvoid body (X \ boundBy (some x) params) := hinit
          refine (addressFunc_mirrors hσ fun inner hinner => addressStmts_mirrors hσ hinner body
            not_mem_below (stmtsAvoid_anti hbody sdiff_boundBy_cons_subset)).weaken ?_
          rintro _ e' ⟨he, ps, ss, rfl, havoids⟩
          exact ⟨he, havoids⟩
        | some f =>
          exact (addressExpr_mirrors hσ ha (.func (some f) params body) hX hinit).weaken
            fun _ _ he => ⟨he.eq, he.avoids.called x⟩
      | _ =>
        exact (addressExpr_mirrors hσ ha _ hX hinit).weaken
          fun _ _ he => ⟨he.eq, he.avoids.called x⟩
    refine he.bind fun e₁ e₂ he => hds.bind fun ds₁ ds₂ hds => .pure ⟨?_, ?_, ?_⟩
    · rw [renameBindings, he.1, hds.1]
    · exact bindingsAvoid_cons.2 ⟨he.2, hds.2.1⟩
    · rw [List.map_cons, hds.2.2, List.map_cons]

theorem addressStmt_mirrors (hσ : IsRenaming σ) {a : String} (ha : IsGenerated a) :
    ∀ (s : Stmt) {X : Set String}, a ∉ X → s.Avoids X →
      Gen.Mirrors (fun s₁ s₂ => s₂ = s₁.rename σ ∧ s₁.Avoids X ∧ s₁.declared = s.declared)
        (addressStmt a s) (addressStmt a (s.rename σ))
  | .empty, _, _, _ => .pure ⟨rfl, trivial, rfl⟩
  | .expr e, _, hX, h =>
    (addressExpr_mirrors hσ ha e hX h).bind fun _ _ he =>
      .pure ⟨congrArg Stmt.expr he.eq, he.avoids, rfl⟩
  | .ret e, _, hX, h =>
    (addressExpr_mirrors hσ ha e hX h).bind fun _ _ he =>
      .pure ⟨congrArg Stmt.ret he.eq, he.avoids, rfl⟩
  | .declare ds, _, hX, h =>
    (addressBindings_mirrors hσ ha ds hX h).bind fun _ _ hds =>
      .pure ⟨congrArg Stmt.declare hds.1, hds.2⟩
  | .ifElse t c e, _, hX, h =>
    (addressExpr_mirrors hσ ha t hX h.1).bind fun _ _ ht =>
      (addressStmts_mirrors hσ ha c hX h.2.1).bind fun _ _ hc =>
        (addressStmts_mirrors hσ ha e hX h.2.2).bind fun _ _ he =>
          .pure ⟨by rw [ht.eq, hc.1, he.1, Stmt.rename], ⟨ht.avoids, hc.2, he.2⟩, rfl⟩
  | .block body, _, hX, h =>
    (addressStmts_mirrors hσ ha body hX h).bind fun _ _ hb =>
      .pure ⟨congrArg Stmt.block hb.1, hb.2, rfl⟩

theorem addressStmts_mirrors (hσ : IsRenaming σ) {a : String} (ha : IsGenerated a) :
    ∀ (ss : List Stmt) {X : Set String}, a ∉ X → StmtsAvoid ss X →
      Gen.Mirrors (RenamesStmts σ X) (addressStmts a ss) (addressStmts a (renameStmts σ ss))
  | [], _, _, _ => .pure ⟨rfl, trivial⟩
  | s :: ss, _, hX, h =>
    (addressStmt_mirrors hσ ha s hX h.1).bind fun _ _ hs =>
      (addressStmts_mirrors hσ ha ss (fun hmem => hX hmem.1) h.2).bind fun _ _ hss =>
        .pure ⟨by rw [hs.1, hss.1, renameStmts], hs.2.1, hs.2.2 ▸ hss.2⟩

end

end Addresses

end Compile

section Atomic

variable (σ : String → String)

mutual

theorem Expr.isAtomic_rename : ∀ e : Expr, (e.rename σ).isAtomic = e.isAtomic
  | .num _ | .str _ | .bool _ | .null | .undefined | .var _ | .func .. => rfl
  | .array es => allAtomic_rename es
  | .object fs => allFieldsAtomic_rename fs
  | .unary _ e => Expr.isAtomic_rename e
  | .binary l r _ | .logic l r _ | .member l r | .assign l r => by
    rw [Expr.rename, Expr.isAtomic, Expr.isAtomic, Expr.isAtomic_rename l, Expr.isAtomic_rename r]
  | .cond t c a => by
    rw [Expr.rename, Expr.isAtomic, Expr.isAtomic, Expr.isAtomic_rename t, Expr.isAtomic_rename c,
      Expr.isAtomic_rename a]
  | .call f es => by
    rw [Expr.rename, Expr.isAtomic, Expr.isAtomic, Expr.isPrimitive_rename, Expr.isAtomic_rename f,
      allAtomic_rename es]

theorem allAtomic_rename : ∀ es : List Expr, allAtomic (renameExprs σ es) = allAtomic es
  | [] => rfl
  | e :: es => by
    rw [renameExprs, allAtomic, allAtomic, Expr.isAtomic_rename e, allAtomic_rename es]

theorem allFieldsAtomic_rename :
    ∀ fs : List (String × Expr), allFieldsAtomic (renameFields σ fs) = allFieldsAtomic fs
  | [] => rfl
  | (_, e) :: fs => by
    rw [renameFields, allFieldsAtomic, allFieldsAtomic, Expr.isAtomic_rename e,
      allFieldsAtomic_rename fs]

end

end Atomic

namespace Compile

/-! ## Continuation-passing form -/

/-- Builds that respect the renaming: whatever names of the set a value avoids, the code built from
it avoids too. -/
def Build.Mirrors {α : Type} (Q : Set String → α → α → Prop) (σ : String → String) (X : Set String)
    (b b' : Build α) : Prop :=
  ∀ Y ⊆ X, ∀ e e', Q Y e e' → Gen.Mirrors (Renames σ Y) (b e) (b' e')

/-- Usages that respect the renaming. Code is built from the inside outwards, so that the names to
be avoided become fewer on the way in, by those that are bound there. -/
structure Usage.Mirrors (σ : String → String) (X : Set String) (d d' : Usage) : Prop where
  keep : Gen.Mirrors (Renames σ X) d.keep d'.keep
  pass : Build.Mirrors (Renames σ) σ X d.pass d'.pass
  use : ∀ Y ⊆ X, ∀ {b b' : Build Expr}, Build.Mirrors (Renames σ) σ Y b b' →
    Gen.Mirrors (Renames σ Y) (d.use b) (d'.use b')

section Conversion

variable {σ : String → String} {X : Set String}

theorem Build.Mirrors.anti {α : Type} {Q : Set String → α → α → Prop} {b b' : Build α}
    (h : Build.Mirrors Q σ X b b') {Y : Set String} (hY : Y ⊆ X) : Build.Mirrors Q σ Y b b' :=
  fun Z hZ => h Z (hZ.trans hY)

theorem Build.Mirrors.below (hσ : IsRenaming σ) {b b' : Build Expr}
    (h : Build.Mirrors (Renames σ) σ X b b') {x : String} (hx : IsGenerated x) :
    Gen.Mirrors (fun e e' => Renames σ X (.lambda [x] e) (.lambda [x] e')) (b (.var x))
      (b' (.var x)) :=
  (h (X \ {x}) Set.sdiff_subset _ _ (.bound hσ hx fun hmem => hmem.2 rfl)).weaken
    fun _ _ he => .lambda_generated hσ hx he

theorem nameContinuation_mirrors (hσ : IsRenaming σ) {b b' : Build Expr}
    (hb : Build.Mirrors (Renames σ) σ X b b') :
    Build.Mirrors (Renames σ) σ X (nameContinuation · b) (nameContinuation · b') := by
  rintro Y hY k _ ⟨rfl, havoids⟩
  cases k with
  | var x => exact hb Y hY _ _ ⟨rfl, havoids⟩
  | _ =>
    refine (fresh_mirrors (by decide)).bind ?_
    rintro _ x ⟨rfl, hx⟩
    exact ((hb.anti hY).below hσ hx).bind fun e e' he =>
      .pure (.call he (.cons ⟨rfl, havoids⟩ .nil))

theorem useResult_mirrors (hσ : IsRenaming σ) {pass pass' b b' : Build Expr}
    (hpass : Build.Mirrors (Renames σ) σ X pass pass')
    (hb : Build.Mirrors (Renames σ) σ X b b') :
    Gen.Mirrors (Renames σ X) (useResult pass b) (useResult pass' b') := by
  refine (fresh_mirrors (by decide)).bind ?_
  rintro _ x ⟨rfl, hx⟩
  exact (hb.below hσ hx).bind fun e e' he => hpass X subset_rfl _ _ he

theorem ignoring_mirrors (hσ : IsRenaming σ) {rest rest' : Gen Expr}
    (h : Gen.Mirrors (Renames σ X) rest rest') :
    Gen.Mirrors (Renames σ X) (ignoring rest) (ignoring rest') := by
  refine (fresh_mirrors (by decide)).bind ?_
  rintro _ x ⟨rfl, hx⟩
  exact h.bind fun e e' he => .pure (.lambda_generated hσ hx (he.anti Set.sdiff_subset))

theorem following_mirrors (hσ : IsRenaming σ) {ss : List Stmt} {k k' : Expr} (hk : Renames σ X k k')
    (h : Gen.Mirrors (Renames σ X) (sequence ss k) (sequence (renameStmts σ ss) k')) :
    Gen.Mirrors (Renames σ X) (following ss k) (following (renameStmts σ ss) k') := by
  unfold following
  rw [renameStmts_isEmpty]
  split_ifs
  · exact .pure hk
  · exact ignoring_mirrors hσ h

theorem renameFields_keys (fs : List (String × Expr)) :
    (renameFields σ fs).map Prod.fst = fs.map Prod.fst := by
  induction fs with
  | nil => rfl
  | cons f fs ih => exact congrArg (f.1 :: ·) ih

theorem part_renames : ∀ {es es' : List Expr}, RenamesAll σ X es es' → ∀ i,
    Renames σ X (part es i) (part es' i)
  | [], _, ⟨rfl, _⟩, _ => .undefined
  | _ :: _, _, ⟨rfl, h⟩, 0 => ⟨rfl, h.1⟩
  | _ :: _, _, ⟨rfl, h⟩, i + 1 => part_renames ⟨rfl, h.2⟩ i

theorem zip_renames : ∀ (keys : List String) {es es' : List Expr}, RenamesAll σ X es es' →
    RenamesFields σ X (keys.zip es) (keys.zip es')
  | [], _, _, _ => .nil
  | _ :: _, [], _, ⟨rfl, _⟩ => .nil
  | key :: keys, _ :: _, _, ⟨rfl, h⟩ => .cons key ⟨rfl, h.1⟩ (zip_renames keys ⟨rfl, h.2⟩)

namespace Usage

theorem make_mirrors {atomic : Bool} {keep keep' : Gen Expr} {pass pass' : Build Expr}
    {use use' : Build Expr → Gen Expr} (hkeep : Gen.Mirrors (Renames σ X) keep keep')
    (hpass : Build.Mirrors (Renames σ) σ X pass pass')
    (huse : ∀ Y ⊆ X, ∀ {b b' : Build Expr}, Build.Mirrors (Renames σ) σ Y b b' →
      Gen.Mirrors (Renames σ Y) (use b) (use' b')) :
    (make atomic keep pass use).Mirrors σ X (make atomic keep' pass' use') where
  keep := hkeep
  pass := hpass
  use := by
    intro Y hY b b' hb
    cases atomic with
    | true => exact hkeep.bind fun e e' he => hb Y subset_rfl e e' (he.anti hY)
    | false => exact huse Y hY hb

theorem named_mirrors (hσ : IsRenaming σ) {atomic : Bool} {keep keep' : Gen Expr}
    {pass pass' : Build Expr} (hkeep : Gen.Mirrors (Renames σ X) keep keep')
    (hpass : Build.Mirrors (Renames σ) σ X pass pass') :
    (make atomic keep pass (useResult pass)).Mirrors σ X
      (make atomic keep' pass' (useResult pass')) :=
  make_mirrors hkeep hpass fun _ hY _ _ hb => useResult_mirrors hσ (hpass.anti hY) hb

theorem leaf_mirrors {e e' : Expr} (h : Renames σ X e e') : (leaf e).Mirrors σ X (leaf e') where
  keep := .pure h
  pass := fun _ hY _ _ hk => .pure (.resume hk (h.anti hY))
  use := fun Y hY _ _ hb => hb Y subset_rfl _ _ (h.anti hY)

/-- Related lists of usages. -/
abbrev MirrorsAll (σ : String → String) (X : Set String) (ds ds' : List Usage) : Prop :=
  List.Forall₂ (Usage.Mirrors σ X) ds ds'

theorem keepAll_mirrors {ds ds' : List Usage} (h : MirrorsAll σ X ds ds') :
    Gen.Mirrors (RenamesAll σ X) (keepAll ds) (keepAll ds') := by
  induction h with
  | nil => exact .pure .nil
  | cons hd _ ih => exact hd.keep.bind fun _ _ he => ih.bind fun _ _ hes => .pure (.cons he hes)

theorem useAll_mirrors {ds ds' : List Usage} (h : MirrorsAll σ X ds ds') : ∀ Y ⊆ X,
    ∀ {b b' : Build (List Expr)}, Build.Mirrors (RenamesAll σ) σ Y b b' →
      Gen.Mirrors (Renames σ Y) (useAll ds b) (useAll ds' b') := by
  induction h with
  | nil => exact fun Y _ _ _ hb => hb Y subset_rfl _ _ .nil
  | cons hd _ ih =>
    exact fun Y hY _ _ hb => hd.use Y hY fun Z hZ _ _ he => ih Z (hZ.trans hY) fun W hW _ _ hes =>
      hb W (hW.trans hZ) _ _ (.cons (he.anti hW) hes)

theorem formed_mirrors (hσ : IsRenaming σ) {atomic named : Bool} {wrap wrap' : List Expr → Expr}
    {ds ds' : List Usage} (h : MirrorsAll σ X ds ds')
    (hwrap : ∀ {Y : Set String} {es es' : List Expr}, RenamesAll σ Y es es' →
      Renames σ Y (wrap es) (wrap' es')) :
    (formed atomic named wrap ds).Mirrors σ X (formed atomic named wrap' ds') := by
  have hkeep : Gen.Mirrors (Renames σ X) (keepAll ds >>= fun es => pure (wrap es))
      (keepAll ds' >>= fun es => pure (wrap' es)) :=
    (keepAll_mirrors h).bind fun _ _ hes => .pure (hwrap hes)
  have hpass : Build.Mirrors (Renames σ) σ X
      (fun k => useAll ds fun es => pure (resume k (wrap es)))
      (fun k => useAll ds' fun es => pure (resume k (wrap' es))) :=
    fun Y hY _ _ hk => useAll_mirrors h Y hY fun _ hZ _ _ hes =>
      .pure (.resume (hk.anti hZ) (hwrap hes))
  cases named with
  | true => exact named_mirrors hσ hkeep hpass
  | false =>
    exact make_mirrors hkeep hpass fun Y hY _ _ hb =>
      useAll_mirrors h Y hY fun Z hZ _ _ hes => hb Z hZ _ _ (hwrap hes)

theorem cond_mirrors (hσ : IsRenaming σ) {atomic : Bool} {t t' c c' a a' : Usage}
    (ht : t.Mirrors σ X t') (hc : c.Mirrors σ X c') (ha : a.Mirrors σ X a') :
    (cond atomic t c a).Mirrors σ X (cond atomic t' c' a') :=
  named_mirrors hσ
    (ht.keep.bind fun _ _ het => hc.keep.bind fun _ _ hec => ha.keep.bind fun _ _ hea =>
      .pure (.cond het hec hea))
    (nameContinuation_mirrors hσ fun Y hY _ _ hk => ht.use Y hY fun Z hZ _ _ het =>
      (hc.pass Z (hZ.trans hY) _ _ (hk.anti hZ)).bind fun _ _ hec =>
        (ha.pass Z (hZ.trans hY) _ _ (hk.anti hZ)).bind fun _ _ hea => .pure (.cond het hec hea))

theorem logic_mirrors (hσ : IsRenaming σ) {atomic : Bool} (op : LogicOp) {l l' r r' : Usage}
    (hl : l.Mirrors σ X l') (hr : r.Mirrors σ X r') :
    (logic atomic op l r).Mirrors σ X (logic atomic op l' r') := by
  refine named_mirrors hσ
    (hl.keep.bind fun _ _ hel => hr.keep.bind fun _ _ her => .pure (.logic op hel her))
    (nameContinuation_mirrors hσ fun Y hY _ _ hk => hl.use Y hY fun Z hZ _ _ hel => ?_)
  refine (hr.pass Z (hZ.trans hY) _ _ (hk.anti hZ)).bind fun _ _ hlong => ?_
  have hshort := Renames.resume (hk.anti hZ) hel
  cases op with
  | or => exact .pure (.cond hel hshort hlong)
  | and => exact .pure (.cond hel hlong hshort)

theorem call_mirrors (hσ : IsRenaming σ) {atomic primitive : Bool} {f f' : Usage}
    {ds ds' : List Usage} (hf : f.Mirrors σ X f') (hds : MirrorsAll σ X ds ds') :
    (call atomic primitive f ds).Mirrors σ X (call atomic primitive f' ds') := by
  refine named_mirrors hσ
    (hf.keep.bind fun _ _ hef => (keepAll_mirrors hds).bind fun _ _ hes => .pure (.call hef hes)) ?_
  refine fun Y hY k k' hk => hf.use Y hY fun Z hZ _ _ hef =>
    useAll_mirrors hds Z (hZ.trans hY) fun W hW _ _ hes => .pure ?_
  have hk := hk.anti (hW.trans hZ)
  cases primitive with
  | true => exact .resume hk (.call (hef.anti hW) hes)
  | false => exact .call (hef.anti hW) (.cons hk hes)

/-- The body of a function stands below its parameters and the one for its continuation. -/
theorem func_mirrors (hσ : IsRenaming σ) {name : Option String} {params : List String}
    {body body' : Build Expr}
    (hbody : Build.Mirrors (Renames σ) σ (X \ boundBy name params) body body') :
    (func name params body).Mirrors σ X (func (name.map σ) (params.map σ) body') := by
  have hkeep : Gen.Mirrors (Renames σ X) (function name params body)
      (function (name.map σ) (params.map σ) body') := by
    refine (fresh_mirrors (by decide)).bind ?_
    rintro _ k ⟨rfl, hk⟩
    refine (hbody _ sdiff_boundBy_cons_subset _ _ (.bound hσ hk not_mem_below)).bind
      fun e e' he => .pure ?_
    have hfunc := Renames.func (X := X) he
    rwa [List.map_cons, hσ.generated hk] at hfunc
  exact
    { keep := hkeep
      pass := fun _ hY _ _ hk => hkeep.bind fun _ _ he => .pure (.resume hk (he.anti hY))
      use := fun Y hY _ _ hb => hkeep.bind fun e e' he => hb Y subset_rfl e e' (he.anti hY) }

end Usage

end Conversion

section Programs

variable {σ : String → String}

mutual

theorem usage_mirrors (hσ : IsRenaming σ) :
    ∀ (e : Expr) {X : Set String}, e.Avoids X → (usage e).Mirrors σ X (usage (e.rename σ))
  | .num _, _, h | .str _, _, h | .bool _, _, h | .null, _, h | .undefined, _, h
  | .var _, _, h => Usage.leaf_mirrors ⟨rfl, h⟩
  | .array es, _, h => by
    rw [Expr.rename, usage_array, usage_array, ← Expr.rename, Expr.isAtomic_rename]
    exact Usage.formed_mirrors hσ (usageAll_mirrors hσ es h) .array
  | .object fs, _, h => by
    rw [Expr.rename, usage_object, usage_object, ← Expr.rename, Expr.isAtomic_rename,
      renameFields_keys]
    exact Usage.formed_mirrors hσ (usageFields_mirrors hσ fs h) fun hes =>
      .object (zip_renames _ hes)
  | .unary op e, _, h => by
    rw [Expr.rename, usage_unary, usage_unary, ← Expr.rename, Expr.isAtomic_rename]
    exact Usage.formed_mirrors hσ (.cons (usage_mirrors hσ e h) .nil) fun hes =>
      .unary op (part_renames hes 0)
  | .binary l r op, _, h => by
    rw [Expr.rename, usage_binary, usage_binary, ← Expr.rename, Expr.isAtomic_rename]
    exact Usage.formed_mirrors hσ
      (.cons (usage_mirrors hσ l h.1) (.cons (usage_mirrors hσ r h.2) .nil))
      fun hes => .binary op (part_renames hes 0) (part_renames hes 1)
  | .member o p, _, h => by
    rw [Expr.rename, usage_member, usage_member, ← Expr.rename, Expr.isAtomic_rename]
    exact Usage.formed_mirrors hσ
      (.cons (usage_mirrors hσ o h.1) (.cons (usage_mirrors hσ p h.2) .nil))
      fun hes => .member (part_renames hes 0) (part_renames hes 1)
  | .assign t v, _, h => by
    rw [Expr.rename, usage_assign, usage_assign, ← Expr.rename, Expr.isAtomic_rename]
    exact Usage.formed_mirrors hσ
      (.cons (usage_mirrors hσ t h.1) (.cons (usage_mirrors hσ v h.2) .nil))
      fun hes => .assign (part_renames hes 0) (part_renames hes 1)
  | .logic l r op, _, h => by
    rw [Expr.rename, usage, usage, ← Expr.rename, Expr.isAtomic_rename]
    exact Usage.logic_mirrors hσ op (usage_mirrors hσ l h.1) (usage_mirrors hσ r h.2)
  | .cond t c a, _, h => by
    rw [Expr.rename, usage, usage, ← Expr.rename, Expr.isAtomic_rename]
    exact Usage.cond_mirrors hσ (usage_mirrors hσ t h.1) (usage_mirrors hσ c h.2.1)
      (usage_mirrors hσ a h.2.2)
  | .call f es, _, h => by
    rw [Expr.rename, usage, usage, ← Expr.rename, Expr.isAtomic_rename, Expr.isPrimitive_rename]
    exact Usage.call_mirrors hσ (usage_mirrors hσ f h.1) (usageAll_mirrors hσ es h.2)
  | .func _ _ body, _, h =>
    Usage.func_mirrors hσ fun _ hY _ _ hk => sequence_mirrors hσ body (stmtsAvoid_anti h hY) hk

theorem usageAll_mirrors (hσ : IsRenaming σ) :
    ∀ (es : List Expr) {X : Set String}, ExprsAvoid es X →
      Usage.MirrorsAll σ X (usageAll es) (usageAll (renameExprs σ es))
  | [], _, _ => .nil
  | e :: es, _, h => .cons (usage_mirrors hσ e h.1) (usageAll_mirrors hσ es h.2)

theorem usageFields_mirrors (hσ : IsRenaming σ) :
    ∀ (fs : List (String × Expr)) {X : Set String}, FieldsAvoid fs X →
      Usage.MirrorsAll σ X (usageAll (fs.map Prod.snd))
        (usageAll ((renameFields σ fs).map Prod.snd))
  | [], _, _ => .nil
  | (_, e) :: fs, _, h => .cons (usage_mirrors hσ e h.1) (usageFields_mirrors hσ fs h.2)

theorem bindAll_mirrors (hσ : IsRenaming σ) :
    ∀ (ds : List (String × Expr)) {X : Set String} {tail tail' : Gen Expr}, BindingsAvoid ds X →
      Gen.Mirrors (Renames σ (X \ {x | x ∈ ds.map Prod.fst})) tail tail' →
      Gen.Mirrors (Renames σ X) (bindAll ds tail) (bindAll (renameBindings σ ds) tail')
  | [], _, _, _, _, htail => htail.weaken fun _ _ h => h.anti fun _ hx => ⟨hx, List.not_mem_nil⟩
  | (x, e) :: ds, X, tail, tail', h, htail => by
    obtain ⟨hinit, hrest⟩ := bindingsAvoid_cons.1 h
    have hcalled : (usage (e.called x)).Mirrors σ X (usage ((e.rename σ).called (σ x))) := by
      cases e with
      | func name params body =>
        cases name <;> exact Usage.func_mirrors hσ fun _ hY _ _ hk =>
          sequence_mirrors hσ body (stmtsAvoid_anti hinit hY) hk
      | _ => exact usage_mirrors hσ _ hinit
    have htail' : Gen.Mirrors (Renames σ ((X \ {x}) \ {y | y ∈ ds.map Prod.fst})) tail tail' := by
      refine htail.weaken fun _ _ h => h.anti ?_
      rintro y ⟨⟨hy, hyx⟩, hyds⟩
      exact ⟨hy, fun hmem => (List.mem_cons.1 hmem).elim hyx hyds⟩
    rw [renameBindings, bindAll_cons, bindAll_cons]
    refine (bindAll_mirrors hσ ds hrest htail').bind fun _ _ he => ?_
    exact hcalled.pass X subset_rfl _ _ (.lambda he)

theorem sequence_mirrors (hσ : IsRenaming σ) :
    ∀ (ss : List Stmt) {X : Set String} {k k' : Expr}, StmtsAvoid ss X → Renames σ X k k' →
      Gen.Mirrors (Renames σ X) (sequence ss k) (sequence (renameStmts σ ss) k')
  | [], _, _, _, _, hk => .pure (.resume hk .undefined)
  | .empty :: ss, _, _, _, h, hk => sequence_mirrors hσ ss (stmtsAvoid_of_declared_nil h.2) hk
  | .ret e :: _, X, _, _, h, hk => (usage_mirrors hσ e h.1).pass X subset_rfl _ _ hk
  | .declare ds :: ss, _, _, _, h, hk =>
    bindAll_mirrors hσ ds h.1 (sequence_mirrors hσ ss h.2 (hk.anti Set.sdiff_subset))
  | .expr e :: ss, X, k, k', h, hk => by
    rw [renameStmts, Stmt.rename, sequence_expr, sequence_expr]
    exact (following_mirrors hσ hk
      (sequence_mirrors hσ ss (stmtsAvoid_of_declared_nil h.2) hk)).bind
      ((usage_mirrors hσ e h.1).pass X subset_rfl)
  | .block body :: ss, X, k, k', h, hk => by
    rw [renameStmts, Stmt.rename, sequence_block, sequence_block]
    exact (following_mirrors hσ hk
      (sequence_mirrors hσ ss (stmtsAvoid_of_declared_nil h.2) hk)).bind
      fun _ _ hafter => sequence_mirrors hσ body h.1 hafter
  | .ifElse t c a :: ss, X, k, k', h, hk => by
    rw [renameStmts, Stmt.rename, sequence_choice, sequence_choice]
    refine (following_mirrors hσ hk
      (sequence_mirrors hσ ss (stmtsAvoid_of_declared_nil h.2) hk)).bind
      (nameContinuation_mirrors hσ (fun Y hY k₁ k₂ hk => ?_) X subset_rfl)
    exact (usage_mirrors hσ t h.1.1).use Y hY fun Z hZ t₁ t₂ ht =>
      (sequence_mirrors hσ c (stmtsAvoid_anti h.1.2.1 (hZ.trans hY)) (hk.anti hZ)).bind
        fun c₁ c₂ hc =>
          (sequence_mirrors hσ a (stmtsAvoid_anti h.1.2.2 (hZ.trans hY)) (hk.anti hZ)).bind
            fun a₁ a₂ ha => .pure (.cond ht hc ha)

end

end Programs

/-! ## The check -/

section Check

variable (σ : String → String)

mutual

theorem checkTail_rename :
    ∀ e : Expr, Agree Error.SameKind Eq (checkTail e) (checkTail (e.rename σ))
  | .cond t c a =>
    (checkPlain_rename t).bind fun _ _ _ =>
      (checkTail_rename c).bind fun _ _ _ => checkTail_rename a
  | .call f es => by
    rw [Expr.rename, checkTail, checkTail, Expr.isPrimitive_rename]
    split_ifs
    · exact .error rfl
    · exact (checkPlain_rename f).bind fun _ _ _ => checkPlains_rename es
  | .num _ | .str _ | .bool _ | .null | .undefined | .var _ | .array _ | .object _ | .unary _ _
  | .binary _ _ _ | .logic _ _ _ | .member _ _ | .func _ _ _ | .assign _ _ => .error rfl

theorem checkPlain_rename :
    ∀ e : Expr, Agree Error.SameKind Eq (checkPlain e) (checkPlain (e.rename σ))
  | .num _ | .str _ | .bool _ | .null | .undefined | .var _ => .ok rfl
  | .array es => checkPlains_rename es
  | .object fs => checkFields_rename fs
  | .unary _ e => checkPlain_rename e
  | .binary l r _ | .logic l r _ | .member l r | .assign l r =>
    (checkPlain_rename l).bind fun _ _ _ => checkPlain_rename r
  | .cond t c a =>
    (checkPlain_rename t).bind fun _ _ _ =>
      (checkPlain_rename c).bind fun _ _ _ => checkPlain_rename a
  | .call f es => by
    rw [Expr.rename, checkPlain, checkPlain, Expr.isPrimitive_rename]
    split_ifs
    · exact (checkPlain_rename f).bind fun _ _ _ => checkPlains_rename es
    · exact .error rfl
  | .func _ _ [.expr e] => checkTail_rename e
  | .func _ _ [] => .error rfl
  | .func _ _ (s :: _ :: _) => by cases s <;> exact .error rfl
  | .func _ _ [.empty] | .func _ _ [.declare _] | .func _ _ [.ifElse _ _ _] | .func _ _ [.ret _]
  | .func _ _ [.block _] => .error rfl

theorem checkPlains_rename :
    ∀ es : List Expr, Agree Error.SameKind Eq (checkPlains es) (checkPlains (renameExprs σ es))
  | [] => .ok rfl
  | e :: es => (checkPlain_rename e).bind fun _ _ _ => checkPlains_rename es

theorem checkFields_rename :
    ∀ fs : List (String × Expr),
      Agree Error.SameKind Eq (checkFields fs) (checkFields (renameFields σ fs))
  | [] => .ok rfl
  | (_, e) :: fs => (checkPlain_rename e).bind fun _ _ _ => checkFields_rename fs

end

end Check

end Compile

end Chance
