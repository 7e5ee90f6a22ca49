import Mathlib.Data.List.Basic
import Mathlib.Tactic.NormNum
import Chance.Compile.Fresh

/-!
# Identifiers

The identifiers of a syntax tree, and the shape of the names that the passes make up. A program
whose identifiers do not have that shape cannot name a continuation or an address.

- `Expr.names`, `stmtsNames`: the identifiers of a tree,
- `IsGenerated`: names with the shape of a generated one,
- `IsOrdinary`: names that stand for neither a continuation nor an address.
-/

namespace Chance

variable {a hint x κ : String}

mutual

/-- The identifiers in an expression: variables, parameters, and names of functions and
declarations. -/
def Expr.names : Expr → List String
  | .var x => [x]
  | .array es => exprsNames es
  | .object fs => fieldsNames fs
  | .unary _ e => e.names
  | .binary l r _ | .logic l r _ => l.names ++ r.names
  | .cond t c a => t.names ++ (c.names ++ a.names)
  | .member o p => o.names ++ p.names
  | .call f es => f.names ++ exprsNames es
  | .func name params body => name.toList ++ (params ++ stmtsNames body)
  | .assign t v => t.names ++ v.names
  | .num _ | .str _ | .bool _ | .null | .undefined => []
termination_by structural e => e

def exprsNames : List Expr → List String
  | [] => []
  | e :: es => e.names ++ exprsNames es
termination_by structural es => es

def fieldsNames : List (String × Expr) → List String
  | [] => []
  | (_, e) :: fs => e.names ++ fieldsNames fs
termination_by structural fs => fs

def Stmt.names : Stmt → List String
  | .empty => []
  | .expr e | .ret e => e.names
  | .declare ds => ds.map Prod.fst ++ fieldsNames ds
  | .ifElse t c a => t.names ++ (stmtsNames c ++ stmtsNames a)
  | .block body => stmtsNames body
termination_by structural s => s

def stmtsNames : List Stmt → List String
  | [] => []
  | s :: ss => s.names ++ stmtsNames ss
termination_by structural ss => ss

end

/-! ## Generated names -/

/-- What the names that passes make up are for. -/
def nameHints : List String :=
  ["k", "result", "dummy", "address"]

/-- Names that the passes may make up. -/
def IsGenerated (x : String) : Prop :=
  ∃ hint ∈ nameHints, ∃ n, x = Compile.generated hint n

/-- Names of continuations. -/
def IsContinuationName (x : String) : Prop :=
  ∃ n, x = Compile.generated "k" n

/-- Names of addresses. -/
def IsAddressName (x : String) : Prop :=
  ∃ n, x = Compile.generated "address" n

/-- Names that stand for values of the program. -/
structure IsOrdinary (x : String) : Prop where
  notContinuation : ¬ IsContinuationName x
  notAddress : ¬ IsAddressName x

theorem generated_toList (hint : String) (n : Nat) :
    (Compile.generated hint n).toList = '_' :: (hint.toList ++ (toString n).toList) := by
  simp [Compile.generated]

theorem generated_inj {m n : Nat} (h : Compile.generated hint m = Compile.generated hint n) :
    m = n := by
  have hlist := congrArg String.toList h
  rw [generated_toList, generated_toList, List.cons.injEq, List.append_cancel_left_eq] at hlist
  have hdigits := congrArg (Nat.ofDigitChars 10 · 0) hlist.2
  simpa using hdigits

/-- The number at the end of a generated name can be read back, so it need not be searched for. -/
theorem isGenerated_iff : IsGenerated x ↔ ∃ hint ∈ nameHints,
      x = Compile.generated hint
        (Nat.ofDigitChars 10 (x.toList.drop (hint.toList.length + 1)) 0) := by
  refine exists_congr fun hint => and_congr_right fun _ => ⟨?_, fun h => ⟨_, h⟩⟩
  rintro ⟨n, rfl⟩
  rw [generated_toList, List.drop_succ_cons, List.drop_left]
  simp

instance : DecidablePred IsGenerated := fun _ =>
  decidable_of_iff _ isGenerated_iff.symm

theorem head_of_isGenerated (h : IsGenerated x) : x.toList.head? = some '_' := by
  obtain ⟨hint, _, n, rfl⟩ := h
  rw [generated_toList]
  rfl

theorem generated_ne {hint' : String} (m n : Nat) {c c' : Char} {cs cs' : List Char}
    (h : hint.toList = c :: cs) (h' : hint'.toList = c' :: cs') (hne : c ≠ c') :
    Compile.generated hint m ≠ Compile.generated hint' n := by
  intro heq
  have hlist := congrArg String.toList heq
  rw [generated_toList, generated_toList, h, h'] at hlist
  simp only [List.cons_append, List.cons.injEq, true_and] at hlist
  exact hne hlist.1

theorem ordinary_of_not_isGenerated (h : ¬ IsGenerated x) : IsOrdinary x where
  notContinuation := fun ⟨n, hn⟩ => h ⟨"k", by decide, n, hn⟩
  notAddress := fun ⟨n, hn⟩ => h ⟨"address", by decide, n, hn⟩

theorem ordinary_result (n : Nat) : IsOrdinary (Compile.generated "result" n) where
  notContinuation := fun ⟨m, hm⟩ => generated_ne n m rfl rfl (by decide) hm
  notAddress := fun ⟨m, hm⟩ => generated_ne n m rfl rfl (by decide) hm

theorem ordinary_dummy (n : Nat) : IsOrdinary (Compile.generated "dummy" n) where
  notContinuation := fun ⟨m, hm⟩ => generated_ne n m rfl rfl (by decide) hm
  notAddress := fun ⟨m, hm⟩ => generated_ne n m rfl rfl (by decide) hm

theorem IsOrdinary.ne_continuation (h : IsOrdinary x) (hκ : IsContinuationName κ) : x ≠ κ := by
  rintro rfl
  exact h.notContinuation hκ

theorem IsOrdinary.ne_address (h : IsOrdinary x) (ha : IsAddressName a) : x ≠ a := by
  rintro rfl
  exact h.notAddress ha

theorem IsAddressName.ne_continuation (ha : IsAddressName a) (hκ : IsContinuationName κ) :
    a ≠ κ := by
  obtain ⟨m, rfl⟩ := ha
  obtain ⟨n, rfl⟩ := hκ
  exact generated_ne m n rfl rfl (by decide)

end Chance
