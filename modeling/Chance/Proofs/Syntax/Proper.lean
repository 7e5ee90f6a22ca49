import Mathlib.Data.List.Basic
import Chance.Number.Basic
import Chance.Compile.Entry

/-!
# Proper syntax

The syntax trees that texts can denote: variables, parameters and declared names are identifiers,
numbers are magnitudes, a declaration declares something, and only properties of the store are
assigned to. Reading texts gives proper trees, and compilation keeps them proper.
-/

namespace Chance

/-- Doubles that a numeral can denote: neither negative nor undefined. -/
structure Number.IsMagnitude (x : Float) : Prop where
  notNaN : x.isNaN = false
  positive : isNegative x = false

/-- Properties of the store, which are all that can be assigned to. -/
def Expr.IsStoreProperty : Expr → Prop
  | .member (.var x) _ => x = storeName
  | _ => False

mutual

def Expr.Proper : Expr → Prop
  | .num x => Number.IsMagnitude x
  | .var x => isName x
  | .array es => ExprsProper es
  | .object fs => FieldsProper fs
  | .unary _ e => e.Proper
  | .binary l r _ => l.Proper ∧ r.Proper
  | .logic l r _ => l.Proper ∧ r.Proper
  | .cond t c a => t.Proper ∧ c.Proper ∧ a.Proper
  | .member o p => o.Proper ∧ p.Proper
  | .call f es => f.Proper ∧ ExprsProper es
  | .func name params body =>
    (∀ x ∈ name, isName x) ∧ (∀ x ∈ params, isName x) ∧ StmtsProper body
  | .assign t v => t.IsStoreProperty ∧ t.Proper ∧ v.Proper
  | .str _ | .bool _ | .null | .undefined => True
termination_by structural e => e

def ExprsProper : List Expr → Prop
  | [] => True
  | e :: es => e.Proper ∧ ExprsProper es
termination_by structural es => es

def FieldsProper : List (String × Expr) → Prop
  | [] => True
  | (_, e) :: fs => e.Proper ∧ FieldsProper fs
termination_by structural fs => fs

def Stmt.Proper : Stmt → Prop
  | .empty => True
  | .expr e => e.Proper
  | .declare ds => ds ≠ [] ∧ (∀ d ∈ ds, isName d.1) ∧ FieldsProper ds
  | .ifElse t c a => t.Proper ∧ StmtsProper c ∧ StmtsProper a
  | .ret e => e.Proper
  | .block body => StmtsProper body
termination_by structural s => s

def StmtsProper : List Stmt → Prop
  | [] => True
  | s :: ss => s.Proper ∧ StmtsProper ss
termination_by structural ss => ss

end

/-! ## Lists -/

theorem exprsProper_iff {es : List Expr} : ExprsProper es ↔ ∀ e ∈ es, e.Proper := by
  induction es with
  | nil => simp [ExprsProper]
  | cons e es ih => simp [ExprsProper, ih]

theorem fieldsProper_iff {fs : List (String × Expr)} : FieldsProper fs ↔ ∀ f ∈ fs, f.2.Proper := by
  induction fs with
  | nil => simp [FieldsProper]
  | cons f fs ih => simp [FieldsProper, ih]

theorem stmtsProper_iff {ss : List Stmt} : StmtsProper ss ↔ ∀ s ∈ ss, s.Proper := by
  induction ss with
  | nil => simp [StmtsProper]
  | cons s ss ih => simp [StmtsProper, ih]

theorem stmtsProper_append {ss ts : List Stmt} :
    StmtsProper (ss ++ ts) ↔ StmtsProper ss ∧ StmtsProper ts := by
  simp only [stmtsProper_iff, List.mem_append, or_imp, forall_and]

end Chance
