import Chance.Proofs.Akin.Programs
import Chance.Proofs.Editing.Edited

/-!
# Edited programs have twin bodies

The linear form of an edited program is code that can be exchanged for that of the program. Lists
are made linear in one of three ways: both stay as they are, or both are made linear, or the first
stays as it is while the second is continued by what follows, since its conditional has got a
return.

- `Expr.Exchangeable`: expressions that are twins wherever they may be,
- `StmtsEdited.plain_twin`, `StmtsEdited.linear_twin`, `StmtsEdited.continued_twin`: the three ways,
- `Expr.Edited.exchangeable`: edited expressions,
- `StmtsEdited.core_twin`: edited programs.
-/

namespace Chance

open Compile

/-! ## Names that are avoided -/

theorem stmtsAvoid_union {ss : List Stmt} {X Z : Set String} (h : StmtsAvoid ss X)
    (h' : StmtsAvoid ss Z) : StmtsAvoid ss (X ∪ Z) :=
  stmtsAvoid_of_forall fun _ _ hx => hx.elim
    (fun hx => stmtsAvoid_anti h (Set.singleton_subset_iff.2 hx))
    fun hx => stmtsAvoid_anti h' (Set.singleton_subset_iff.2 hx)

section Flattening

mutual

theorem Stmt.hasReturn_flatten : ∀ s : Stmt, s.flatten.hasReturn = s.hasReturn
  | .empty | .expr _ | .ret _ | .declare _ => rfl
  | .block body => anyReturn_flatten body
  | .ifElse _ c a => congrArg₂ (· || ·) (anyReturn_flatten c) (anyReturn_flatten a)

theorem anyReturn_flatten : ∀ ss : List Stmt, anyReturn (flattenStmts ss) = anyReturn ss
  | [] => rfl
  | s :: ss => congrArg₂ (· || ·) (Stmt.hasReturn_flatten s) (anyReturn_flatten ss)

end

theorem linearizeOnto_flatten_ifElse (t : Expr) (c a onto : List Stmt) :
    (Stmt.ifElse t c a).flatten.linearizeOnto onto =
      if anyReturn c || anyReturn a then
        [.ifElse t.flatten (linearizeOnto (flattenStmts c) onto)
          (linearizeOnto (flattenStmts a) onto)]
      else .ifElse t.flatten (flattenStmts c) (flattenStmts a) :: onto := by
  rw [Stmt.flatten, Stmt.linearizeOnto, anyReturn_flatten, anyReturn_flatten]

end Flattening

/-! ## Lists of statements -/

/-- Expressions whose linear forms are twins wherever they may be, also as the value of a declared
name. -/
structure Expr.Exchangeable (e e' : Expr) : Prop where
  twin : ∀ {X : Set String}, e.Avoids X → e.flatten.Twin X e'.flatten
  called : ∀ (x : String) {X : Set String}, (e.called x).Avoids X →
    (e.flatten.called x).Twin X (e'.flatten.called x)

section Lists

variable {b : Prop} {D X A Z : Set String} {ds ds' : List (String × Expr)}
  {ss : List Stmt} {s : Stmt}

theorem FieldsEdited.bindingsTwin (h : FieldsEdited Expr.Exchangeable ds ds')
    (hfresh : ∀ x ∈ ds.map Prod.fst, ¬ IsFresh 0 x) (hD : ∀ x ∈ ds.map Prod.fst, x ∈ D)
    (havoid : BindingsAvoid ds X) : BindingsTwin D X (flattenFields ds) (flattenFields ds') := by
  induction h generalizing X with
  | nil => exact .nil
  | @cons e e' fs fs' key he _ ih =>
    obtain ⟨he', hds⟩ := bindingsAvoid_cons.1 havoid
    obtain ⟨hkey, hfresh⟩ := List.forall_mem_cons.1 hfresh
    obtain ⟨hkey', hD⟩ := List.forall_mem_cons.1 hD
    exact .cons hkey hkey' (he.called key he') (ih hfresh hD hds)

namespace RestTwin

variable {X' : Set String} {ss onto R : List Stmt}

theorem of_cons {s r : Stmt} (h : StmtsTwin b D X A (s :: ss) onto (r :: R)) :
    RestTwin b D X A (s :: ss) onto (r :: R) :=
  ⟨h, nofun, fun _ => List.cons_ne_nil r R⟩

theorem nil_of_subset (h : X ⊆ A) (onto : List Stmt) : RestTwin b D X A [] onto onto :=
  ⟨.nil h, fun _ => ⟨rfl, h⟩, fun hne => absurd rfl hne⟩

theorem anti (h : RestTwin b D X A ss onto R) (hX : X' ⊆ X) : RestTwin b D X' A ss onto R where
  steady := h.steady
  code hss honto P k k' hP := h.code hss honto P k k' (hP.anti hX)
  nil hnil := ⟨(h.nil hnil).1, hX.trans (h.nil hnil).2⟩
  ne := h.ne

theorem of_declared_nil (h : RestTwin b D (X \ {x | x ∈ ([] : List String)}) A ss onto R) :
    RestTwin b D X A ss onto R :=
  h.anti fun _ hx => ⟨hx, List.not_mem_nil⟩

end RestTwin

theorem subset_declared_nil : X ⊆ X \ {x | x ∈ ([] : List String)} :=
  fun _ hx => ⟨hx, List.not_mem_nil⟩

theorem union_subset_of_rest {Y H : Set String} (hZ : Z ⊆ Y) (hA : X ∪ Y ⊆ A) :
    ((X \ H) ∪ Z) ∪ Y ⊆ A :=
  Set.union_subset ((Set.union_subset_union Set.sdiff_subset hZ).trans hA)
    (Set.subset_union_right.trans hA)

theorem declare_twin {onto R : List Stmt}
    (hds : BindingsTwin D X (flattenFields ds) (flattenFields ds'))
    (h : RestTwin b D (X \ {x | x ∈ ds.map Prod.fst}) A ss onto R) :
    StmtsTwin b D X A (.declare (flattenFields ds) :: ss) onto
      (.declare (flattenFields ds') :: R) := by
  refine .declare hds ?_
  rw [flattenFields_keys]
  exact h.toStmtsTwin

mutual

/-- Lists that stay as they are, since there is no return in them. -/
theorem StmtsEdited.plain_twin {Y : Set String} :
    ∀ {ss ss' : List Stmt} {b : Prop} {X A : Set String},
      StmtsEdited Expr.Exchangeable Y ss ss' → anyReturn ss' = false → StmtsAvoid ss X →
      X ∪ Y ⊆ A → RestTwin b Set.univ X A (flattenStmts ss) [] (flattenStmts ss')
  | _, _, _, _, _, .nil, _, _, hA => .nil_of_subset (Set.subset_union_left.trans hA) []
  | _, _, _, _, _, .cons hZ _ hlater hs hss, hnone, havoid, hA => by
    obtain ⟨hnone, hnone'⟩ := Bool.or_eq_false_iff.1 hnone
    exact .of_cons (StmtEdited.plain_twin hs hnone havoid.1
      (StmtsEdited.plain_twin hss hnone' (stmtsAvoid_union havoid.2 hlater)
        (union_subset_of_rest hZ hA)))

theorem StmtEdited.plain_twin {Z : Set String} :
    ∀ {s s' : Stmt} {ss ss' : List Stmt} {b : Prop} {X A : Set String},
      StmtEdited Expr.Exchangeable Z s s' → s'.hasReturn = false → s.Avoids X →
      RestTwin b Set.univ ((X \ {x | x ∈ s.declared}) ∪ Z) A ss [] ss' →
      StmtsTwin b Set.univ X A (s.flatten :: ss) [] (s'.flatten :: ss')
  | _, _, _, _, _, _, _, .empty, _, _, hrest =>
    .empty (hrest.anti Set.subset_union_left).of_declared_nil.toStmtsTwin
  | _, _, _, _, _, _, _, .expr he, _, havoid, hrest =>
    .expr (he.twin havoid) (hrest.anti Set.subset_union_left).of_declared_nil
  | _, _, _, _, _, _, _, .declare hnames hds, _, havoid, hrest =>
    declare_twin (hds.bindingsTwin hnames (fun _ _ => Set.mem_univ _) havoid)
      (hrest.anti Set.subset_union_left)
  | _, _, _, _, _, _, _, .block hb, hnone, havoid, hrest =>
    .block (StmtsEdited.plain_twin hb hnone havoid subset_rfl).toStmtsTwin
      (hrest.anti (Set.union_subset_union_left Z subset_declared_nil))
  | _, _, _, _, _, _, _, .ifElse ht hc ha _, hnone, havoid, hrest =>
    .choice (ht.twin havoid.1)
      (ArmEdited.plain_twin hc (Bool.or_eq_false_iff.1 hnone).1 havoid.2.1)
      (ArmEdited.plain_twin ha (Bool.or_eq_false_iff.1 hnone).2 havoid.2.2)
      (hrest.anti Set.subset_union_left).of_declared_nil

theorem ArmEdited.plain_twin {Z : Set String} :
    ∀ {c c' : List Stmt} {X : Set String},
      ArmEdited Expr.Exchangeable Z c c' → anyReturn c' = false → StmtsAvoid c X →
      StmtsTwin True Set.univ X Set.univ (flattenStmts c) [] (flattenStmts c')
  | _, _, _, .same hc, hnone, havoid =>
    (StmtsEdited.plain_twin hc hnone havoid (Set.subset_univ _)).toStmtsTwin
  | _, _, _, .dead _, hnone, _ => nomatch hnone

end

/-! ### The second list is continued -/

theorem Continuable.head (h : Continuable Z (s :: ss)) :
    (∀ x ∈ s.leaves, x ∈ Z) ∧ s.isFilled = true :=
  ⟨fun x hx => h.leaves x (List.mem_append_left _ hx), (Bool.and_eq_true_iff.1 h.filled).1⟩

theorem Continuable.tail (h : Continuable Z (s :: ss)) : Continuable Z ss :=
  ⟨fun x hx => h.leaves x (List.mem_append_right _ hx), (Bool.and_eq_true_iff.1 h.filled).2⟩

mutual

theorem StmtEdited.linearizeOnto_ne {E : Expr → Expr → Prop}
    {Z : Set String} : ∀ {s s' : Stmt} {onto : List Stmt}, StmtEdited E Z s s' →
      s.isFilled = true → s'.flatten.linearizeOnto onto ≠ []
  | _, _, _, .empty, _ | _, _, _, .expr _, _ | _, _, _, .ret _, _ | _, _, _, .declare _ _, _ =>
    List.cons_ne_nil _ _
  | _, _, _, .block hb, h => by
    obtain ⟨hne, hfilled⟩ := Bool.and_eq_true_iff.1 h
    exact StmtsEdited.linearizeOnto_ne hb hfilled (by simpa using hne)
  | _, _, _, .ifElse _ _ _ _, _ => by
    rw [linearizeOnto_flatten_ifElse]
    split_ifs <;> exact List.cons_ne_nil _ _

theorem StmtsEdited.linearizeOnto_ne {E : Expr → Expr → Prop}
    {Y : Set String} : ∀ {ss ss' onto : List Stmt}, StmtsEdited E Y ss ss' →
      allFilled ss = true → ss ≠ [] → linearizeOnto (flattenStmts ss') onto ≠ []
  | _, _, _, .nil, _, hne => absurd rfl hne
  | _, _, _, .cons _ _ _ hs _, h, _ =>
    StmtEdited.linearizeOnto_ne hs (Bool.and_eq_true_iff.1 h).1

end

mutual

/-- Lists of which the second is continued by what follows, while the first stays as it is. -/
theorem StmtsEdited.continued_twin {Y : Set String} :
    ∀ {ss ss' onto : List Stmt} {D X A : Set String},
      StmtsEdited Expr.Exchangeable Y ss ss' → anyReturn ss = false → StmtsAvoid ss X →
      Continuable D ss → Y ⊆ D → X ∪ Y ⊆ A →
      RestTwin True D X A (flattenStmts ss) onto (linearizeOnto (flattenStmts ss') onto)
  | _, _, onto, _, _, _, .nil, _, _, _, _, hA =>
    .nil_of_subset (Set.subset_union_left.trans hA) onto
  | _, _, onto, _, _, _, h@(.cons hZ _ hlater hs hss), hnone, havoid, harm, hY, hA => by
    obtain ⟨hnone, hnone'⟩ := Bool.or_eq_false_iff.1 hnone
    have hrest : RestTwin True _ _ _ _ onto _ := StmtsEdited.continued_twin hss hnone'
      (stmtsAvoid_union havoid.2 hlater) harm.tail hY (union_subset_of_rest hZ hA)
    refine ⟨StmtEdited.continued_twin hs hnone havoid.1 harm.head.1 harm.head.2
      (hZ.trans hY) hrest, nofun, fun _ => ?_⟩
    exact StmtsEdited.linearizeOnto_ne h harm.filled (List.cons_ne_nil _ _)

theorem StmtEdited.continued_twin {Z : Set String} :
    ∀ {s s' : Stmt} {ss onto R : List Stmt} {D X A : Set String},
      StmtEdited Expr.Exchangeable Z s s' → s.hasReturn = false → s.Avoids X →
      (∀ x ∈ s.leaves, x ∈ D) → s.isFilled = true → Z ⊆ D →
      RestTwin True D ((X \ {x | x ∈ s.declared}) ∪ Z) A ss onto R →
      StmtsTwin True D X A (s.flatten :: ss) onto (s'.flatten.linearizeOnto R)
  | _, _, _, _, _, _, _, _, .empty, _, _, _, _, _, hrest =>
    .empty (hrest.anti Set.subset_union_left).of_declared_nil.toStmtsTwin
  | _, _, _, _, _, _, _, _, .expr he, _, havoid, _, _, _, hrest =>
    .expr (he.twin havoid) (hrest.anti Set.subset_union_left).of_declared_nil
  | _, _, _, _, _, _, _, _, .declare hnames hds, _, havoid, hleaves, _, _, hrest =>
    declare_twin (hds.bindingsTwin hnames hleaves havoid) (hrest.anti Set.subset_union_left)
  | _, _, _, _, _, _, _, _, .block hb, hnone, havoid, hleaves, hfilled, hZ, hrest =>
    .splice (StmtsEdited.continued_twin hb hnone havoid
        ⟨hleaves, (Bool.and_eq_true_iff.1 hfilled).2⟩ hZ subset_rfl).toStmtsTwin
      (hrest.anti (Set.union_subset_union_left Z subset_declared_nil))
  | _, _, _, _, _, _, _, _, .ifElse ht hc ha hkind, hnone, havoid, _, _, hZ, hrest => by
    obtain ⟨hnonec, hnonea⟩ := Bool.or_eq_false_iff.1 hnone
    rw [linearizeOnto_flatten_ifElse]
    split_ifs with hkinds
    · -- The arms of the second are continued, those of the first are not.
      obtain ⟨hcontc, hconta⟩ := hkind hnone hkinds
      exact .inlined (ht.twin havoid.1) hZ Set.subset_union_right Set.subset_union_left
        (ArmEdited.continued_twin hc hnonec havoid.2.1 hcontc subset_rfl subset_rfl)
        (ArmEdited.continued_twin ha hnonea havoid.2.2 hconta subset_rfl subset_rfl)
        (hrest.anti (Set.union_subset_union_left Z subset_declared_nil))
    · obtain ⟨hc', ha'⟩ := Bool.or_eq_false_iff.1 (Bool.eq_false_iff.2 hkinds)
      exact .choice (ht.twin havoid.1) (ArmEdited.plain_twin hc hc' havoid.2.1)
        (ArmEdited.plain_twin ha ha' havoid.2.2)
        (hrest.anti Set.subset_union_left).of_declared_nil

theorem ArmEdited.continued_twin {Z : Set String} :
    ∀ {c c' onto : List Stmt} {D X A : Set String},
      ArmEdited Expr.Exchangeable Z c c' → anyReturn c = false → StmtsAvoid c X →
      Continuable D c → Z ⊆ D → X ∪ Z ⊆ A →
      StmtsTwin True D X A (flattenStmts c) onto (linearizeOnto (flattenStmts c') onto)
  | _, _, _, _, _, _, .same hc, hnone, havoid, harm, hD, hA =>
    (StmtsEdited.continued_twin hc hnone havoid harm hD hA).toStmtsTwin
  | _, _, _, _, _, _, .dead hc, hnone, havoid, harm, hD, hA =>
    .dead rfl (ArmEdited.continued_twin hc hnone havoid harm hD hA)

end

/-! ### Both lists are made linear -/

mutual

/-- Lists that are both made linear. -/
theorem StmtsEdited.linear_twin {Y : Set String} :
    ∀ {ss ss' L R : List Stmt} {X W : Set String},
      StmtsEdited Expr.Exchangeable Y ss ss' → StmtsAvoid ss X → X ∪ Y ⊆ W →
      RestTwin True Set.univ W Set.univ L [] R →
      RestTwin True Set.univ X Set.univ (linearizeOnto (flattenStmts ss) L) []
        (linearizeOnto (flattenStmts ss') R)
  | _, _, _, _, _, _, .nil, _, hW, hrest => hrest.anti (Set.subset_union_left.trans hW)
  | _, _, _, _, X, _, .cons hZ _ hlater hs hss, havoid, hW, hrest => by
    refine StmtEdited.linear_twin hs havoid.1 ?_
    exact StmtsEdited.linear_twin hss (stmtsAvoid_union havoid.2 hlater)
      (union_subset_of_rest hZ hW) hrest

theorem StmtEdited.linear_twin {Z : Set String} :
    ∀ {s s' : Stmt} {L R : List Stmt} {X : Set String},
      StmtEdited Expr.Exchangeable Z s s' → s.Avoids X →
      RestTwin True Set.univ ((X \ {x | x ∈ s.declared}) ∪ Z) Set.univ L [] R →
      RestTwin True Set.univ X Set.univ (s.flatten.linearizeOnto L) [] (s'.flatten.linearizeOnto R)
  | _, _, _, _, _, .empty, _, hrest =>
    .of_cons (.empty (hrest.anti Set.subset_union_left).of_declared_nil.toStmtsTwin)
  | _, _, _, _, _, .expr he, havoid, hrest =>
    .of_cons (.expr (he.twin havoid) (hrest.anti Set.subset_union_left).of_declared_nil)
  | _, _, _, _, _, .ret he, havoid, _ =>
    .of_cons (.expr (he.twin havoid) (.nil_of_subset (Set.subset_univ _) []))
  | _, _, _, _, _, .declare hnames hds, havoid, hrest =>
    .of_cons (declare_twin (hds.bindingsTwin hnames (fun _ _ => Set.mem_univ _) havoid)
      (hrest.anti Set.subset_union_left))
  | _, _, _, _, _, .block hb, havoid, hrest =>
    StmtsEdited.linear_twin hb havoid (Set.union_subset_union_left Z subset_declared_nil) hrest
  | .ifElse _ c a, .ifElse _ c' a', _, _, X, .ifElse ht hc ha hkind, havoid, hrest => by
    have hrest : RestTwin True Set.univ (X ∪ Z) Set.univ _ [] _ :=
      hrest.anti (Set.union_subset_union_left Z subset_declared_nil)
    rw [linearizeOnto_flatten_ifElse, linearizeOnto_flatten_ifElse]
    cases hleft : anyReturn c || anyReturn a with
    | true =>
      -- A return of the first is a return of the second, so the arms of both are continued.
      have hright : (anyReturn c' || anyReturn a') = true :=
        Bool.or_eq_true_iff.2 ((Bool.or_eq_true_iff.1 hleft).imp
          (ArmEdited.anyReturn hc) (ArmEdited.anyReturn ha))
      rw [hright]
      exact .of_cons (.choice (ht.twin havoid.1) (ArmEdited.linear_twin hc havoid.2.1 hrest)
        (ArmEdited.linear_twin ha havoid.2.2 hrest) (.nil_of_subset (Set.subset_univ _) []))
    | false =>
      obtain ⟨hnonec, hnonea⟩ := Bool.or_eq_false_iff.1 hleft
      cases hright : anyReturn c' || anyReturn a' with
      | false =>
        obtain ⟨hnonec', hnonea'⟩ := Bool.or_eq_false_iff.1 hright
        exact .of_cons (.choice (ht.twin havoid.1) (ArmEdited.plain_twin hc hnonec' havoid.2.1)
          (ArmEdited.plain_twin ha hnonea' havoid.2.2) (hrest.anti Set.subset_union_left))
      | true =>
        -- The dead return makes the second continue its arms with the rest; the first does not.
        obtain ⟨hcontc, hconta⟩ := hkind hleft hright
        exact .of_cons (.inlined (ht.twin havoid.1) (Set.subset_univ Z) Set.subset_union_right
          Set.subset_union_left
          (ArmEdited.continued_twin hc hnonec havoid.2.1 hcontc subset_rfl subset_rfl)
          (ArmEdited.continued_twin ha hnonea havoid.2.2 hconta subset_rfl subset_rfl)
          hrest)

theorem ArmEdited.linear_twin {Z : Set String} :
    ∀ {c c' L R : List Stmt} {X : Set String},
      ArmEdited Expr.Exchangeable Z c c' → StmtsAvoid c X →
      RestTwin True Set.univ (X ∪ Z) Set.univ L [] R →
      StmtsTwin True Set.univ X Set.univ (linearizeOnto (flattenStmts c) L) []
        (linearizeOnto (flattenStmts c') R)
  | _, _, _, _, _, .same hc, havoid, hrest =>
    (StmtsEdited.linear_twin hc havoid subset_rfl hrest).toStmtsTwin
  | _, _, _, _, _, .dead hc, havoid, hrest => by
    have harm := ArmEdited.linear_twin hc havoid hrest
    exact .dead rfl harm

end

end Lists

/-! ## Expressions -/

section Expressions

variable {X : Set String}

theorem ExprsTwin.of_exchangeable {es es' : List Expr}
    (h : List.Forall₂ Expr.Exchangeable es es') (havoid : ExprsAvoid es X) :
    ExprsTwin X (flattenExprs es) (flattenExprs es') := by
  induction h with
  | nil => exact .nil
  | cons he _ ih => exact .cons (he.twin havoid.1) (ih havoid.2)

theorem FieldsTwin.of_exchangeable {fs fs' : List (String × Expr)}
    (h : FieldsEdited Expr.Exchangeable fs fs') (havoid : FieldsAvoid fs X) :
    FieldsTwin X (flattenFields fs) (flattenFields fs') := by
  induction h with
  | nil => exact .nil
  | cons key he _ ih => exact .cons key (he.twin havoid.1) (ih havoid.2)

theorem Expr.Exchangeable.of_twin {e e' : Expr} (hcalled : ∀ x, e.called x = e)
    (hcalled' : ∀ x, e.flatten.called x = e.flatten ∧ e'.flatten.called x = e'.flatten)
    (h : ∀ {X : Set String}, e.Avoids X → e.flatten.Twin X e'.flatten) : e.Exchangeable e' where
  twin := h
  called x X havoid := by
    rw [hcalled] at havoid
    rw [(hcalled' x).1, (hcalled' x).2]
    exact h havoid

theorem Expr.Exchangeable.func {name : Option String} {params : List String}
    {body body' : List Stmt} (hparams : ∀ x ∈ params, ¬ IsFresh 0 x)
    (h : StmtsEdited Expr.Exchangeable Set.univ body body') :
    (Expr.func name params body).Exchangeable (.func name params body') := by
  have htwin (name : Option String) {X : Set String}
      (havoid : StmtsAvoid body (X \ boundBy name params)) :
      (Expr.func name params body).flatten.Twin X (Expr.func name params body').flatten :=
    .func hparams (h.linear_twin havoid (Set.subset_univ _)
      (.nil_of_subset (Set.subset_univ Set.univ) [])).toStmtsTwin
  refine ⟨htwin name, fun x X havoid => ?_⟩
  cases name with
  | none => exact htwin (some x) havoid
  | some f => exact htwin (some f) havoid

mutual

theorem Expr.Edited.exchangeable :
    ∀ {e e' : Expr}, e.Edited e' → e.Exchangeable e'
  | _, _, .num x => .of_twin (fun _ => rfl) (fun _ => ⟨rfl, rfl⟩) fun _ =>
    .literal rfl rfl (fun _ => rfl) fun _ _ => .num x
  | _, _, .str s => .of_twin (fun _ => rfl) (fun _ => ⟨rfl, rfl⟩) fun _ =>
    .literal rfl rfl (fun _ => rfl) fun _ _ => .str s
  | _, _, .bool b => .of_twin (fun _ => rfl) (fun _ => ⟨rfl, rfl⟩) fun _ =>
    .literal rfl rfl (fun _ => rfl) fun _ _ => .bool b
  | _, _, .null => .of_twin (fun _ => rfl) (fun _ => ⟨rfl, rfl⟩) fun _ =>
    .literal rfl rfl (fun _ => rfl) fun _ _ => .null
  | _, _, .undefined => .of_twin (fun _ => rfl) (fun _ => ⟨rfl, rfl⟩) fun _ =>
    .literal rfl rfl (fun _ => rfl) fun _ _ => .undefined
  | _, _, .var hx => .of_twin (fun _ => rfl) (fun _ => ⟨rfl, rfl⟩) fun havoid => .var hx havoid
  | _, _, .array hes => .of_twin (fun _ => rfl) (fun _ => ⟨rfl, rfl⟩) fun havoid =>
    .array (.of_exchangeable (exprsEdited_exchangeable hes) havoid)
  | _, _, .object hfs => .of_twin (fun _ => rfl) (fun _ => ⟨rfl, rfl⟩) fun havoid =>
    .object (.of_exchangeable (FieldsEdited.exchangeable hfs) havoid)
  | _, _, .unary op he => .of_twin (fun _ => rfl) (fun _ => ⟨rfl, rfl⟩) fun havoid =>
    .unary op ((Expr.Edited.exchangeable he).twin havoid)
  | _, _, .binary op hl hr => .of_twin (fun _ => rfl) (fun _ => ⟨rfl, rfl⟩) fun havoid =>
    .binary op ((Expr.Edited.exchangeable hl).twin havoid.1)
      ((Expr.Edited.exchangeable hr).twin havoid.2)
  | _, _, .logic op hl hr => .of_twin (fun _ => rfl) (fun _ => ⟨rfl, rfl⟩) fun havoid =>
    .logic op ((Expr.Edited.exchangeable hl).twin havoid.1)
      ((Expr.Edited.exchangeable hr).twin havoid.2)
  | _, _, .cond ht hc ha => .of_twin (fun _ => rfl) (fun _ => ⟨rfl, rfl⟩) fun havoid =>
    .cond ((Expr.Edited.exchangeable ht).twin havoid.1)
      ((Expr.Edited.exchangeable hc).twin havoid.2.1)
      ((Expr.Edited.exchangeable ha).twin havoid.2.2)
  | _, _, .member ho hp => .of_twin (fun _ => rfl) (fun _ => ⟨rfl, rfl⟩) fun havoid =>
    .member ((Expr.Edited.exchangeable ho).twin havoid.1)
      ((Expr.Edited.exchangeable hp).twin havoid.2)
  | _, _, .call (f := f) hf hes => .of_twin (fun _ => rfl) (fun _ => ⟨rfl, rfl⟩) fun havoid => by
    have hargs := ExprsTwin.of_exchangeable (exprsEdited_exchangeable hes) havoid.2
    cases hprimitive : f.flatten.isPrimitive with
    | false => exact .call hprimitive ((Expr.Edited.exchangeable hf).twin havoid.1) hargs
    | true =>
      cases hf with
      | member ho hp =>
        exact .method hprimitive ((Expr.Edited.exchangeable ho).twin havoid.1.1)
          ((Expr.Edited.exchangeable hp).twin havoid.1.2) hargs
      | _ => cases hprimitive
  | _, _, .func hparams hb => .func hparams (StmtsEdited.exchangeable hb)
  | _, _, .assign (t := t) ht hv => .of_twin (fun _ => rfl) (fun _ => ⟨rfl, rfl⟩) fun havoid => by
    have hvalue := (Expr.Edited.exchangeable hv).twin havoid.2
    cases hplace : t.flatten.isPlace with
    | false => exact .assign_other hplace ((Expr.Edited.exchangeable ht).twin havoid.1) hvalue
    | true =>
      -- What is assigned to is a property of the store.
      cases ht with
      | member ho hp =>
        cases ho with
        | var hx =>
          obtain rfl := beq_iff_eq.1 hplace
          exact .assign ((Expr.Edited.exchangeable hp).twin havoid.1.2) hvalue
        | _ => cases hplace
      | _ => cases hplace

theorem exprsEdited_exchangeable :
    ∀ {es es' : List Expr}, List.Forall₂ Expr.Edited es es' →
      List.Forall₂ Expr.Exchangeable es es'
  | _, _, .nil => .nil
  | _, _, .cons he hes =>
    .cons (Expr.Edited.exchangeable he) (exprsEdited_exchangeable hes)

theorem FieldsEdited.exchangeable :
    ∀ {fs fs' : List (String × Expr)}, FieldsEdited Expr.Edited fs fs' →
      FieldsEdited Expr.Exchangeable fs fs'
  | _, _, .nil => .nil
  | _, _, .cons key he hfs =>
    .cons key (Expr.Edited.exchangeable he) (FieldsEdited.exchangeable hfs)

theorem StmtEdited.exchangeable {Z : Set String} :
    ∀ {s s' : Stmt}, StmtEdited Expr.Edited Z s s' →
      StmtEdited Expr.Exchangeable Z s s'
  | _, _, .empty => .empty
  | _, _, .expr he => .expr (Expr.Edited.exchangeable he)
  | _, _, .ret he => .ret (Expr.Edited.exchangeable he)
  | _, _, .declare hnames hds => .declare hnames (FieldsEdited.exchangeable hds)
  | _, _, .block hb => .block (StmtsEdited.exchangeable hb)
  | _, _, .ifElse ht hc ha hkind =>
    .ifElse (Expr.Edited.exchangeable ht) (ArmEdited.exchangeable hc)
      (ArmEdited.exchangeable ha) hkind

theorem StmtsEdited.exchangeable {Y : Set String} :
    ∀ {ss ss' : List Stmt}, StmtsEdited Expr.Edited Y ss ss' →
      StmtsEdited Expr.Exchangeable Y ss ss'
  | _, _, .nil => .nil
  | _, _, .cons hZ hplain havoid hs hss =>
    .cons hZ hplain havoid (StmtEdited.exchangeable hs) (StmtsEdited.exchangeable hss)

theorem ArmEdited.exchangeable {Z : Set String} :
    ∀ {c c' : List Stmt}, ArmEdited Expr.Edited Z c c' →
      ArmEdited Expr.Exchangeable Z c c'
  | _, _, .same hc => .same (StmtsEdited.exchangeable hc)
  | _, _, .dead hc => .dead (ArmEdited.exchangeable hc)

end

end Expressions

/-! ## Programs -/

/-- What is compiled of an edited program can be exchanged for what is compiled of the program. -/
theorem StmtsEdited.core_twin {p p' : Program}
    (h : StmtsEdited Expr.Edited Set.univ p.body p'.body) :
    StmtsTwin True Set.univ ∅ Set.univ p.core [] p'.core := by
  have haddressed := addressStmts_edited ⟨0, rfl⟩ h.returnLast 1
  have hedited := haddressed.2.exchangeable
  exact (hedited.linear_twin (stmtsAvoid_empty _) (Set.subset_univ _)
    (.nil_of_subset (Set.subset_univ Set.univ) [])).toStmtsTwin

end Chance
