import Chance.Proofs.Meaning.Counting
import Chance.Proofs.Renaming.Passes

/-!
# Edited programs

An edited program is the same program, except that some arms of conditionals begin with a
conditional that is never taken. That can turn a conditional without a return into one with a
return; what follows it is then moved into its arms, and must not read what the arms declare.
Nothing else of a program changes, and no identifier has the shape of a name that conversion makes
up.

- `neverReturns`: what an arm may begin with,
- `Expr.Edited`, `StmtsEdited`: edited expressions and lists,
- `StmtsEdited.returnLast`, `addressStmts_edited`: the passes before conversion respect edits.
-/

namespace Chance

open Compile

/-! ## What arms leave behind -/

variable {ss : List Stmt}

/-- A conditional with a return that is never taken. -/
def neverReturns : Stmt :=
  .ifElse (.bool false) [.ret (.num 0)] []

mutual

/-- The names that a statement leaves declared in the list that it is spliced into. -/
def Stmt.leaves : Stmt → List String
  | .declare ds => ds.map Prod.fst
  | .block body => leavesOf body
  | _ => []
termination_by structural s => s

def leavesOf : List Stmt → List String
  | [] => []
  | s :: ss => s.leaves ++ leavesOf ss
termination_by structural ss => ss

end

mutual

/-- Blocks are not empty, nor are the blocks in them. -/
def Stmt.isFilled : Stmt → Bool
  | .block body => !body.isEmpty && allFilled body
  | _ => true
termination_by structural s => s

def allFilled : List Stmt → Bool
  | [] => true
  | s :: ss => s.isFilled && allFilled ss
termination_by structural ss => ss

end

/-- An arm that can be continued by what follows its conditional, which reads no name of the set. -/
structure Continuable (Z : Set String) (arm : List Stmt) : Prop where
  leaves : ∀ x ∈ leavesOf arm, x ∈ Z
  filled : allFilled arm = true

/-! ## Edits -/

inductive FieldsEdited (E : Expr → Expr → Prop) :
    List (String × Expr) → List (String × Expr) → Prop
  | nil : FieldsEdited E [] []
  | cons {e e' : Expr} {fs fs' : List (String × Expr)} (key : String) :
      E e e' → FieldsEdited E fs fs' → FieldsEdited E ((key, e) :: fs) ((key, e') :: fs')

mutual

/-- An edited statement with edited expressions. What follows the statement reads no name of the
set. -/
inductive StmtEdited (E : Expr → Expr → Prop) : Set String → Stmt → Stmt → Prop
  | empty {Z : Set String} : StmtEdited E Z .empty .empty
  | expr {Z : Set String} {e e' : Expr} : E e e' → StmtEdited E Z (.expr e) (.expr e')
  | ret {Z : Set String} {e e' : Expr} : E e e' → StmtEdited E Z (.ret e) (.ret e')
  | declare {Z : Set String} {ds ds' : List (String × Expr)} :
      (∀ x ∈ ds.map Prod.fst, ¬ IsFresh 0 x) → FieldsEdited E ds ds' →
      StmtEdited E Z (.declare ds) (.declare ds')
  | block {Z : Set String} {b b' : List Stmt} :
      StmtsEdited E Z b b' → StmtEdited E Z (.block b) (.block b')
  | ifElse {Z : Set String} {t t' : Expr} {c c' a a' : List Stmt} :
      E t t' → ArmEdited E Z c c' → ArmEdited E Z a a' →
      ((anyReturn c || anyReturn a) = false → (anyReturn c' || anyReturn a') = true →
        Continuable Z c ∧ Continuable Z a) →
      StmtEdited E Z (.ifElse t c a) (.ifElse t' c' a')

/-- An edited list. What follows the list reads no name of the set. -/
inductive StmtsEdited (E : Expr → Expr → Prop) : Set String → List Stmt → List Stmt → Prop
  | nil {Y : Set String} : StmtsEdited E Y [] []
  | cons {Y Z : Set String} {s s' : Stmt} {ss ss' : List Stmt} :
      Z ⊆ Y → Plain Z → StmtsAvoid ss Z → StmtEdited E Z s s' → StmtsEdited E Y ss ss' →
      StmtsEdited E Y (s :: ss) (s' :: ss')

/-- An edited arm. -/
inductive ArmEdited (E : Expr → Expr → Prop) : Set String → List Stmt → List Stmt → Prop
  | same {Z : Set String} {c c' : List Stmt} : StmtsEdited E Z c c' → ArmEdited E Z c c'
  | dead {Z : Set String} {c c' : List Stmt} :
      ArmEdited E Z c c' → ArmEdited E Z c (neverReturns :: c')

end

/-- An edited expression. -/
inductive Expr.Edited : Expr → Expr → Prop
  | num (x : Float) : Expr.Edited (.num x) (.num x)
  | str (s : String) : Expr.Edited (.str s) (.str s)
  | bool (b : Bool) : Expr.Edited (.bool b) (.bool b)
  | null : Expr.Edited .null .null
  | undefined : Expr.Edited .undefined .undefined
  | var {x : String} : ¬ IsFresh 0 x → Expr.Edited (.var x) (.var x)
  | array {es es' : List Expr} :
      List.Forall₂ Expr.Edited es es' → Expr.Edited (.array es) (.array es')
  | object {fs fs' : List (String × Expr)} :
      FieldsEdited Expr.Edited fs fs' → Expr.Edited (.object fs) (.object fs')
  | unary {e e' : Expr} (op : UnaryOp) : e.Edited e' → Expr.Edited (.unary op e) (.unary op e')
  | binary {l l' r r' : Expr} (op : BinaryOp) :
      l.Edited l' → r.Edited r' → Expr.Edited (.binary l r op) (.binary l' r' op)
  | logic {l l' r r' : Expr} (op : LogicOp) :
      l.Edited l' → r.Edited r' → Expr.Edited (.logic l r op) (.logic l' r' op)
  | cond {t t' c c' a a' : Expr} :
      t.Edited t' → c.Edited c' → a.Edited a' → Expr.Edited (.cond t c a) (.cond t' c' a')
  | member {o o' p p' : Expr} :
      o.Edited o' → p.Edited p' → Expr.Edited (.member o p) (.member o' p')
  | call {f f' : Expr} {es es' : List Expr} :
      f.Edited f' → List.Forall₂ Expr.Edited es es' → Expr.Edited (.call f es) (.call f' es')
  | func {name : Option String} {params : List String} {b b' : List Stmt} :
      (∀ x ∈ params, ¬ IsFresh 0 x) → StmtsEdited Expr.Edited Set.univ b b' →
      Expr.Edited (.func name params b) (.func name params b')
  | assign {t t' v v' : Expr} :
      t.Edited t' → v.Edited v' → Expr.Edited (.assign t v) (.assign t' v')

/-! ## What is not edited -/

/-- No identifier has the shape of a name that conversion makes up. -/
def Demands.unmade : Demands where
  name x := ¬ IsFresh 0 x
  full _ := True
  left _ := True

mutual

/-- Nothing has to be edited. -/
theorem Expr.Edited.refl : ∀ {e : Expr}, e.Meets .unmade → e.Edited e
  | .num x, _ => .num x
  | .str s, _ => .str s
  | .bool b, _ => .bool b
  | .null, _ => .null
  | .undefined, _ => .undefined
  | .var _, h => .var h
  | .array es, h => .array (@exprsEdited_refl es h)
  | .object fs, h => .object (@FieldsEdited.refl fs h)
  | .unary op e, h => .unary op (@Expr.Edited.refl e h)
  | .binary _ _ op, h => .binary op (Expr.Edited.refl h.1) (Expr.Edited.refl h.2)
  | .logic _ _ op, h => .logic op (Expr.Edited.refl h.2.1) (Expr.Edited.refl h.2.2)
  | .cond _ _ _, h => .cond (Expr.Edited.refl h.1) (Expr.Edited.refl h.2.1) (Expr.Edited.refl h.2.2)
  | .member _ _, h => .member (Expr.Edited.refl h.1) (Expr.Edited.refl h.2)
  | .call _ _, h => .call (Expr.Edited.refl h.1) (exprsEdited_refl h.2)
  | .func _ _ _, h => .func h.2.1 (StmtsEdited.refl h.2.2)
  | .assign _ _, h => .assign (Expr.Edited.refl h.1) (Expr.Edited.refl h.2)

theorem exprsEdited_refl : ∀ {es : List Expr}, exprsMeet .unmade es →
    List.Forall₂ Expr.Edited es es
  | [], _ => .nil
  | _ :: _, h => .cons (Expr.Edited.refl h.1) (exprsEdited_refl h.2)

theorem FieldsEdited.refl : ∀ {fs : List (String × Expr)}, fieldsMeet .unmade fs →
    FieldsEdited Expr.Edited fs fs
  | [], _ => .nil
  | (key, _) :: _, h => .cons key (Expr.Edited.refl h.1) (FieldsEdited.refl h.2)

theorem StmtEdited.refl : ∀ {s : Stmt} {Z : Set String}, s.Meets .unmade →
    StmtEdited Expr.Edited Z s s
  | .empty, _, _ => .empty
  | .expr _, _, h => .expr (Expr.Edited.refl h.2)
  | .ret _, _, h => .ret (Expr.Edited.refl h.2)
  | .declare _, _, h =>
    .declare (List.forall_mem_map.2 fun d hd => (h.1 d hd).1) (FieldsEdited.refl h.2)
  | .ifElse _ _ _, _, h =>
    .ifElse (Expr.Edited.refl h.2.1) (.same (StmtsEdited.refl h.2.2.1))
      (.same (StmtsEdited.refl h.2.2.2)) fun hnone hreturn =>
        absurd (hnone.symm.trans hreturn) nofun
  | .block body, _, h => .block (@StmtsEdited.refl body _ h)

theorem StmtsEdited.refl : ∀ {ss : List Stmt} {Y : Set String}, stmtsMeet .unmade ss →
    StmtsEdited Expr.Edited Y ss ss
  | [], _, _ => .nil
  | _ :: _, _, h =>
    .cons (Set.empty_subset _) nofun (stmtsAvoid_empty _) (StmtEdited.refl h.1)
      (StmtsEdited.refl h.2)

end

/-! ## Returns -/

theorem returnLast_cons {s : Stmt} (h : ss ≠ []) : returnLast (s :: ss) = s :: returnLast ss := by
  cases ss with
  | nil => exact absurd rfl h
  | cons t ss => rfl

theorem returnLast_ne (h : ss ≠ []) : returnLast ss ≠ [] := by
  match ss with
  | [] => exact absurd rfl h
  | [_] | _ :: _ :: _ => exact List.cons_ne_nil _ _

mutual

theorem Stmt.hasReturn_returning : ∀ {s : Stmt}, s.hasReturn = true → s.returning.hasReturn = true
  | .ret _, _ => rfl
  | .block body, h => @anyReturn_returnLast body h
  | .ifElse _ c a, h => by
    rcases Bool.or_eq_true_iff.1 h with hc | ha
    · exact Bool.or_eq_true_iff.2 (.inl (anyReturn_returnLast hc))
    · exact Bool.or_eq_true_iff.2 (.inr (anyReturn_returnLast ha))

theorem anyReturn_returnLast : ∀ {ss : List Stmt}, anyReturn ss = true →
    anyReturn (returnLast ss) = true
  | [s], h => by
    rw [anyReturn, anyReturn, Bool.or_false] at h
    rw [returnLast, anyReturn, Stmt.hasReturn_returning h, Bool.true_or]
  | s :: t :: ss, h => by
    rw [anyReturn, Bool.or_eq_true_iff] at h
    rw [returnLast, anyReturn, Bool.or_eq_true_iff]
    exact h.imp_right anyReturn_returnLast

end

mutual

theorem Stmt.leaves_returning : ∀ s : Stmt, s.returning.leaves = s.leaves
  | .empty | .expr _ | .ret _ | .declare _ | .ifElse .. => rfl
  | .block body => leavesOf_returnLast body

theorem leavesOf_returnLast : ∀ ss : List Stmt, leavesOf (returnLast ss) = leavesOf ss
  | [] => rfl
  | [s] => by
    rw [returnLast, leavesOf, Stmt.leaves_returning s]
    rfl
  | s :: t :: ss => by rw [returnLast, leavesOf, leavesOf_returnLast (t :: ss), ← leavesOf]

end

mutual

theorem Stmt.isFilled_returning : ∀ {s : Stmt}, s.isFilled = true → s.returning.isFilled = true
  | .empty, _ | .expr _, _ | .ret _, _ | .declare _, _ | .ifElse .., _ => rfl
  | .block body, h => by
    obtain ⟨hne, hbody⟩ := Bool.and_eq_true_iff.1 h
    rw [Stmt.returning, Stmt.isFilled, allFilled_returnLast hbody, Bool.and_true]
    have hbody : body ≠ [] := by simpa using hne
    simpa using returnLast_ne hbody

theorem allFilled_returnLast : ∀ {ss : List Stmt}, allFilled ss = true →
    allFilled (returnLast ss) = true
  | [], _ => rfl
  | [s], h => by
    rw [allFilled, Bool.and_eq_true_iff] at h
    rw [returnLast, allFilled, Stmt.isFilled_returning h.1]
    rfl
  | s :: t :: ss, h => by
    obtain ⟨hs, hss⟩ := Bool.and_eq_true_iff.1 h
    rw [returnLast, allFilled, hs, allFilled_returnLast hss]
    rfl

end

theorem Continuable.returnLast {Z : Set String} {c : List Stmt} (h : Continuable Z c) :
    Continuable Z (returnLast c) :=
  ⟨leavesOf_returnLast c ▸ h.leaves, allFilled_returnLast h.filled⟩

section Returns

variable {E : Expr → Expr → Prop}

theorem StmtsEdited.eq_nil_iff {Y : Set String} {ss ss' : List Stmt}
    (h : StmtsEdited E Y ss ss') : ss' = [] ↔ ss = [] := by
  cases h with
  | nil => exact Iff.rfl
  | cons => exact ⟨nofun, nofun⟩

mutual

theorem StmtEdited.hasReturn {Z : Set String} :
    ∀ {s s' : Stmt}, StmtEdited E Z s s' → s.hasReturn = true → s'.hasReturn = true
  | _, _, .ret _, _ => rfl
  | _, _, .block hb, h => StmtsEdited.anyReturn hb h
  | _, _, .ifElse _ hc ha _, h =>
    Bool.or_eq_true_iff.2 ((Bool.or_eq_true_iff.1 h).imp (ArmEdited.anyReturn hc)
      (ArmEdited.anyReturn ha))

theorem StmtsEdited.anyReturn {Y : Set String} :
    ∀ {ss ss' : List Stmt}, StmtsEdited E Y ss ss' → anyReturn ss = true → anyReturn ss' = true
  | _, _, .cons _ _ _ hs hss, h =>
    Bool.or_eq_true_iff.2 ((Bool.or_eq_true_iff.1 h).imp (StmtEdited.hasReturn hs)
      (StmtsEdited.anyReturn hss))

theorem ArmEdited.anyReturn {Z : Set String} :
    ∀ {c c' : List Stmt}, ArmEdited E Z c c' → anyReturn c = true → anyReturn c' = true
  | _, _, .same hc, h => StmtsEdited.anyReturn hc h
  | _, _, .dead _, _ => rfl

end

mutual

/-- Where there is no return after edits, whether the last expression gives one is not edited. -/
theorem StmtEdited.hasReturn_returning {Z : Set String} :
    ∀ {s s' : Stmt}, StmtEdited E Z s s' → s'.hasReturn = false →
      s'.returning.hasReturn = s.returning.hasReturn
  | _, _, .empty, _ | _, _, .expr _, _ | _, _, .ret _, _ | _, _, .declare _ _, _ => rfl
  | _, _, .block hb, h => StmtsEdited.anyReturn_returnLast hb h
  | _, _, .ifElse _ hc ha _, h => by
    obtain ⟨hc', ha'⟩ := Bool.or_eq_false_iff.1 h
    rw [Stmt.returning, Stmt.returning, Stmt.hasReturn, Stmt.hasReturn,
      ArmEdited.anyReturn_returnLast hc hc', ArmEdited.anyReturn_returnLast ha ha']

theorem StmtsEdited.anyReturn_returnLast {Y : Set String} :
    ∀ {ss ss' : List Stmt}, StmtsEdited E Y ss ss' → Chance.anyReturn ss' = false →
      Chance.anyReturn (returnLast ss') = Chance.anyReturn (returnLast ss)
  | _, _, .nil, _ => rfl
  | s :: ss, s' :: ss', .cons _ _ _ hs hss, h => by
    obtain ⟨hs', hss'⟩ := Bool.or_eq_false_iff.1 h
    have hkeep : s'.hasReturn = s.hasReturn := by
      cases hleft : s.hasReturn with
      | false => exact hs'
      | true => exact absurd (StmtEdited.hasReturn hs hleft) (by rw [hs']; exact Bool.noConfusion)
    by_cases hnil : ss = []
    · obtain rfl := (StmtsEdited.eq_nil_iff hss).2 hnil
      subst hnil
      rw [returnLast, returnLast, Chance.anyReturn, StmtEdited.hasReturn_returning hs hs']
      rfl
    · have hnil' : ss' ≠ [] := fun heq => hnil ((StmtsEdited.eq_nil_iff hss).1 heq)
      rw [returnLast_cons hnil, returnLast_cons hnil', Chance.anyReturn, Chance.anyReturn, hkeep,
        StmtsEdited.anyReturn_returnLast hss hss']

theorem ArmEdited.anyReturn_returnLast {Z : Set String} :
    ∀ {c c' : List Stmt}, ArmEdited E Z c c' → Chance.anyReturn c' = false →
      Chance.anyReturn (returnLast c') = Chance.anyReturn (returnLast c)
  | _, _, .same hc, h => StmtsEdited.anyReturn_returnLast hc h
  | _, _, .dead _, h => nomatch h

end

mutual

theorem StmtEdited.returning {Z : Set String} :
    ∀ {s s' : Stmt}, StmtEdited E Z s s' → StmtEdited E Z s.returning s'.returning
  | _, _, .empty => .empty
  | _, _, .expr he | _, _, .ret he => .ret he
  | _, _, .declare hnames hds => .declare hnames hds
  | _, _, .block hb => .block (StmtsEdited.returnLast hb)
  | .ifElse _ c a, .ifElse _ c' a', .ifElse ht hc ha hkind => by
    refine .ifElse ht (ArmEdited.returnLast hc) (ArmEdited.returnLast ha) fun hleft hright => ?_
    obtain ⟨hc₁, ha₁⟩ := Bool.or_eq_false_iff.1 hleft
    have hbefore {b : List Stmt} (hb : anyReturn (Chance.returnLast b) = false) :
        anyReturn b = false :=
      Bool.eq_false_iff.2 fun hreturn =>
        Bool.eq_false_iff.1 hb (Chance.anyReturn_returnLast hreturn)
    -- Without a return before, both would have got the same returns.
    have hright' : (anyReturn c' || anyReturn a') = true := by
      by_contra hnone
      obtain ⟨hc₂, ha₂⟩ := Bool.or_eq_false_iff.1 (Bool.not_eq_true _ ▸ hnone)
      rw [ArmEdited.anyReturn_returnLast hc hc₂, ArmEdited.anyReturn_returnLast ha ha₂,
        hleft] at hright
      cases hright
    obtain ⟨hspread, hspread'⟩ :=
      hkind (Bool.or_eq_false_iff.2 ⟨hbefore hc₁, hbefore ha₁⟩) hright'
    exact ⟨hspread.returnLast, hspread'.returnLast⟩

theorem StmtsEdited.returnLast {Y : Set String} :
    ∀ {ss ss' : List Stmt}, StmtsEdited E Y ss ss' →
      StmtsEdited E Y (returnLast ss) (returnLast ss')
  | _, _, .nil => .nil
  | _ :: ss, _ :: ss', .cons hZ hplain havoid hs hss => by
    by_cases hnil : ss = []
    · obtain rfl := (StmtsEdited.eq_nil_iff hss).2 hnil
      subst hnil
      exact .cons hZ hplain trivial (StmtEdited.returning hs) .nil
    · have hnil' : ss' ≠ [] := fun heq => hnil ((StmtsEdited.eq_nil_iff hss).1 heq)
      rw [returnLast_cons hnil, returnLast_cons hnil']
      exact .cons hZ hplain (returnLast_avoid havoid) hs (StmtsEdited.returnLast hss)

theorem ArmEdited.returnLast {Z : Set String} :
    ∀ {c c' : List Stmt}, ArmEdited E Z c c' →
      ArmEdited E Z (returnLast c) (returnLast c')
  | _, _, .same hc => .same (StmtsEdited.returnLast hc)
  | _, _ :: c', .dead hc => by
    have hlast : Chance.returnLast (neverReturns :: c') = neverReturns :: Chance.returnLast c' := by
      cases c' with
      | nil => rfl
      | cons => rfl
    rw [hlast]
    exact .dead (ArmEdited.returnLast hc)

end

end Returns

/-! ## Addresses -/

section Addressed

variable {a : String}

mutual

theorem StmtAddressed.leaves_eq : ∀ {s s' : Stmt}, StmtAddressed a s s' → s'.leaves = s.leaves
  | _, _, .declare hds => hds.keys_eq
  | _, _, .block hbody => StmtsAddressed.leavesOf_eq hbody
  | _, _, .empty _ | _, _, .expr _ | _, _, .ret _ | _, _, .ifElse .. => rfl

theorem StmtsAddressed.leavesOf_eq : ∀ {ss ss' : List Stmt}, StmtsAddressed a ss ss' →
    leavesOf ss' = leavesOf ss
  | _, _, .nil _ => rfl
  | _, _, .cons hs hss =>
    congrArg₂ (· ++ ·) (StmtAddressed.leaves_eq hs) (StmtsAddressed.leavesOf_eq hss)

end

mutual

theorem StmtAddressed.isFilled_eq : ∀ {s s' : Stmt}, StmtAddressed a s s' → s'.isFilled = s.isFilled
  | _, _, .block hbody => by
    have hempty {ss ss' : List Stmt} (h : StmtsAddressed a ss ss') : ss'.isEmpty = ss.isEmpty := by
      cases h <;> rfl
    rw [Stmt.isFilled, Stmt.isFilled, hempty hbody, StmtsAddressed.allFilled_eq hbody]
  | _, _, .empty _ | _, _, .expr _ | _, _, .ret _ | _, _, .declare _ | _, _, .ifElse .. => rfl

theorem StmtsAddressed.allFilled_eq : ∀ {ss ss' : List Stmt}, StmtsAddressed a ss ss' →
    allFilled ss' = allFilled ss
  | _, _, .nil _ => rfl
  | _, _, .cons hs hss =>
    congrArg₂ (· && ·) (StmtAddressed.isFilled_eq hs) (StmtsAddressed.allFilled_eq hss)

end

theorem Continuable.addressed {Z : Set String} {c c' : List Stmt} (h : Continuable Z c)
    (hc : StmtsAddressed a c c') : Continuable Z c' :=
  ⟨hc.leavesOf_eq ▸ h.leaves, hc.allFilled_eq.trans h.filled⟩

end Addressed

namespace Compile

theorem Gen.Mirrors.and_yields {α β : Type} {Q : α → β → Prop} {P : α → Prop} {P' : β → Prop}
    {x : Gen α} {y : Gen β} (h : Gen.Mirrors Q x y) (hx : Gen.Yields P x) (hy : Gen.Yields P' y) :
    Gen.Mirrors (fun a b => Q a b ∧ P a ∧ P' b) x y :=
  fun n => ⟨(h n).1, (h n).2, hx n, hy n⟩

theorem addressStmts_avoid {a : String} (ha : IsAddressName a) {ss : List Stmt} {Z : Set String}
    (hZ : Plain Z) (h : StmtsAvoid ss Z) :
    Gen.Yields (fun ts => StmtsAvoid ts Z) (addressStmts a ss) :=
  fun n => (addressStmts_mirrors isRenaming_id ha.isGenerated ss
    (fun haZ => hZ a haZ ha.isGenerated) h n).2.2

end Compile

theorem Expr.Edited.isPrimitive_eq {e e' : Expr} (h : e.Edited e') :
    e'.isPrimitive = e.isPrimitive := by
  cases h with
  | member ho hp =>
    rw [Expr.isPrimitive_member, Expr.isPrimitive_member]
    cases ho <;> cases hp <;> rfl
  | _ => rfl

mutual

theorem addressExpr_edited {a : String} (ha : IsAddressName a) :
    ∀ {e e' : Expr}, e.Edited e' → Gen.Mirrors Expr.Edited (addressExpr a e) (addressExpr a e')
  | _, _, .num x => .pure (.num x)
  | _, _, .str s => .pure (.str s)
  | _, _, .bool b => .pure (.bool b)
  | _, _, .null => .pure .null
  | _, _, .undefined => .pure .undefined
  | _, _, .var hx => .pure (.var hx)
  | _, _, .array hes => (addressExprs_edited ha hes).bind fun _ _ h => .pure (.array h)
  | _, _, .object hfs => (addressFields_edited ha hfs).bind fun _ _ h => .pure (.object h)
  | _, _, .unary op he => (addressExpr_edited ha he).bind fun _ _ h => .pure (.unary op h)
  | _, _, .binary op hl hr =>
    (addressExpr_edited ha hl).bind fun _ _ hl => (addressExpr_edited ha hr).bind fun _ _ hr =>
      .pure (.binary op hl hr)
  | _, _, .logic op hl hr =>
    (addressExpr_edited ha hl).bind fun _ _ hl => (addressExpr_edited ha hr).bind fun _ _ hr =>
      .pure (.logic op hl hr)
  | _, _, .cond ht hc he =>
    (addressExpr_edited ha ht).bind fun _ _ ht => (addressExpr_edited ha hc).bind fun _ _ hc =>
      (addressExpr_edited ha he).bind fun _ _ he => .pure (.cond ht hc he)
  | _, _, .member ho hp =>
    (addressExpr_edited ha ho).bind fun _ _ ho => (addressExpr_edited ha hp).bind fun _ _ hp =>
      .pure (.member ho hp)
  | _, _, .assign ht hv =>
    (addressExpr_edited ha ht).bind fun _ _ ht => (addressExpr_edited ha hv).bind fun _ _ hv =>
      .pure (.assign ht hv)
  | _, _, .call hf hes => by
    refine (addressExpr_edited ha hf).bind fun g g' hg => ?_
    refine (addressExprs_edited ha hes).bind fun ds ds' hds => ?_
    rw [hf.isPrimitive_eq]
    split_ifs
    · exact .pure (.call hg hds)
    · -- The fragment is the next number on both sides.
      refine Gen.Mirrors.bind (Q := fun l l' => l' = l ∧ ∃ s, l = .str s)
        (fun n => ⟨rfl, rfl, _, rfl⟩) ?_
      rintro _ _ ⟨rfl, s, rfl⟩
      have hextended : (extended a (.str s)).Edited (extended a (.str s)) :=
        .call (.member (.var ha.not_isFresh) (.str _)) (.cons (.str s) .nil)
      exact .pure (.call hg (.cons hextended hds))
  | _, _, .func hparams hb => by
    refine Gen.Mirrors.bind (Q := fun x y => y = x ∧ IsAddressName x)
      (fun n => ⟨rfl, rfl, n, rfl⟩) ?_
    rintro inner _ ⟨rfl, hinner⟩
    refine (addressStmts_edited hinner hb).bind fun _ _ h => .pure (.func ?_ h)
    exact List.forall_mem_cons.2 ⟨hinner.not_isFresh, hparams⟩

theorem addressExprs_edited {a : String} (ha : IsAddressName a) :
    ∀ {es es' : List Expr}, List.Forall₂ Expr.Edited es es' →
      Gen.Mirrors (List.Forall₂ Expr.Edited) (addressExprs a es) (addressExprs a es')
  | _, _, .nil => .pure .nil
  | _, _, .cons he hes =>
    (addressExpr_edited ha he).bind fun _ _ he =>
      (addressExprs_edited ha hes).bind fun _ _ hes => .pure (.cons he hes)

theorem addressFields_edited {a : String} (ha : IsAddressName a) :
    ∀ {fs fs' : List (String × Expr)}, FieldsEdited Expr.Edited fs fs' →
      Gen.Mirrors (FieldsEdited Expr.Edited) (addressFields a fs) (addressFields a fs')
  | _, _, .nil => .pure .nil
  | _, _, .cons key he hfs =>
    (addressExpr_edited ha he).bind fun _ _ he =>
      (addressFields_edited ha hfs).bind fun _ _ hfs => .pure (.cons key he hfs)

theorem addressStmt_edited {a : String} (ha : IsAddressName a) {Z : Set String} :
    ∀ {s s' : Stmt}, StmtEdited Expr.Edited Z s s' →
      Gen.Mirrors (StmtEdited Expr.Edited Z) (addressStmt a s) (addressStmt a s')
  | _, _, .empty => .pure .empty
  | _, _, .expr he => (addressExpr_edited ha he).bind fun _ _ he => .pure (.expr he)
  | _, _, .ret he => (addressExpr_edited ha he).bind fun _ _ he => .pure (.ret he)
  | .declare ds, .declare ds', .declare hnames hds => by
    refine ((addressFields_edited ha hds).and_yields (addressFields_addressed a ds)
      (addressFields_addressed a ds')).bind ?_
    rintro es es' ⟨hes, hleft, -⟩
    exact .pure (.declare (hleft.keys_eq ▸ hnames) hes)
  | _, _, .block hb => (addressStmts_edited ha hb).bind fun _ _ h => .pure (.block h)
  | .ifElse _ c e, .ifElse _ c' e', .ifElse ht hc he hkind => by
    refine (addressExpr_edited ha ht).bind fun _ _ ht => ?_
    refine ((addressArm_edited ha hc).and_yields (addressStmts_addressed a c)
      (addressStmts_addressed a c')).bind ?_
    rintro c₁ c₁' ⟨hc₁, hcleft, hcright⟩
    refine ((addressArm_edited ha he).and_yields (addressStmts_addressed a e)
      (addressStmts_addressed a e')).bind ?_
    rintro e₁ e₁' ⟨he₁, heleft, heright⟩
    refine .pure (.ifElse ht hc₁ he₁ ?_)
    rw [hcleft.anyReturn_eq, hcright.anyReturn_eq, heleft.anyReturn_eq, heright.anyReturn_eq]
    intro hbefore hafter
    obtain ⟨hspread, hspread'⟩ := hkind hbefore hafter
    exact ⟨hspread.addressed hcleft, hspread'.addressed heleft⟩

theorem addressStmts_edited {a : String} (ha : IsAddressName a) {Y : Set String} :
    ∀ {ss ss' : List Stmt}, StmtsEdited Expr.Edited Y ss ss' →
      Gen.Mirrors (StmtsEdited Expr.Edited Y) (addressStmts a ss) (addressStmts a ss')
  | _, _, .nil => .pure .nil
  | _, _ :: ss', .cons hZ hplain havoid hs hss => by
    refine (addressStmt_edited ha hs).bind fun _ _ hs => ?_
    refine ((addressStmts_edited ha hss).and_yields (addressStmts_avoid ha hplain havoid)
      (addressStmts_addressed a ss')).bind ?_
    rintro ts ts' ⟨hts, havoid, -⟩
    exact .pure (.cons hZ hplain havoid hs hts)

theorem addressArm_edited {a : String} (ha : IsAddressName a) {Z : Set String} :
    ∀ {c c' : List Stmt}, ArmEdited Expr.Edited Z c c' →
      Gen.Mirrors (ArmEdited Expr.Edited Z) (addressStmts a c) (addressStmts a c')
  | _, _, .same hc => (addressStmts_edited ha hc).weaken fun _ _ h => .same h
  | _, _, .dead hc => fun n =>
    ⟨(addressArm_edited ha hc n).1, .dead (addressArm_edited ha hc n).2⟩

end

end Chance
