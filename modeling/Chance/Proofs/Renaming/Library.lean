import Chance.Proofs.Renaming.Passes

/-!
# Declarations in front of a program

A program may be compiled with declarations of functions in front of it, which keep their names
when the program is renamed. The compiled form then begins with the same bindings, and only what
follows them is renamed.

- `Stmt.isLibrary`: declarations of functions,
- `FrontStmts`, `Front`: the same declarations or bindings in front of related parts,
- `Program.compile_front`: compiling a program and the renamed one.
-/

namespace Chance

variable {Q : List Stmt → List Stmt → Prop} {before body ss ss' : List Stmt} {σ : String → String}
  {X : Set String}

/-- A function without a name of its own. -/
def Expr.isFunction : Expr → Bool
  | .func none _ _ => true
  | _ => false

/-- Declarations that bind functions only. -/
def Stmt.isLibrary : Stmt → Bool
  | .declare ds => ds.all fun d => d.2.isFunction
  | _ => false

/-- The same declarations of functions in front of related lists; with the names they declare. -/
inductive FrontStmts (Q : List Stmt → List Stmt → Prop) : List String → List Stmt → List Stmt → Prop
  | here {ss ss' : List Stmt} : Q ss ss' → FrontStmts Q [] ss ss'
  | declare {s : Stmt} {xs : List String} {ss ss' : List Stmt} :
      s.isLibrary = true → FrontStmts Q xs ss ss' →
      FrontStmts Q (s.declared ++ xs) (s :: ss) (s :: ss')

/-- The same bindings in front of related code; with the names they bind. -/
inductive Front (Q : Expr → Expr → Prop) : List String → Expr → Expr → Prop
  | here {e e' : Expr} : Q e e' → Front Q [] e e'
  | bind {x : String} {xs : List String} {name : Option String} {params : List String}
      {body : List Stmt} {e e' : Expr} : Front Q xs e e' →
      Front Q (x :: xs) (.call (.lambda [x] e) [.func name params body])
        (.call (.lambda [x] e') [.func name params body])

theorem frontStmts_append (hbefore : ∀ s ∈ before, s.isLibrary = true) (h : Q ss ss') :
    FrontStmts Q (before.flatMap Stmt.declared) (before ++ ss) (before ++ ss') := by
  induction before with
  | nil => exact .here h
  | cons s before ih =>
    rw [List.forall_mem_cons] at hbefore
    exact .declare hbefore.1 (ih hbefore.2)

/-! ## The passes -/

theorem returnLast_append (hbefore : ∀ s ∈ before, s.isLibrary = true) (ss : List Stmt) :
    returnLast (before ++ ss) = before ++ returnLast ss := by
  induction before with
  | nil => rfl
  | cons s before ih =>
    rw [List.forall_mem_cons] at hbefore
    have hrest := ih hbefore.2
    cases hlist : before ++ ss with
    | nil =>
      obtain ⟨rfl, rfl⟩ := List.append_eq_nil_iff.1 hlist
      cases s with
      | declare ds => rfl
      | _ => cases hbefore.1
    | cons t ts =>
      rw [List.cons_append, hlist, returnLast, ← hlist, hrest, List.cons_append]

namespace Compile

theorem addressFields_library (a : String) {ds : List (String × Expr)}
    (h : (Stmt.declare ds).isLibrary = true) :
    Gen.Mirrors (fun ds₁ ds₂ => ds₂ = ds₁ ∧ (Stmt.declare ds₁).isLibrary = true ∧
      ds₁.map Prod.fst = ds.map Prod.fst) (addressFields a ds) (addressFields a ds) := by
  induction ds with
  | nil => exact .pure ⟨rfl, rfl, rfl⟩
  | cons d ds ih =>
    obtain ⟨x, e⟩ := d
    simp only [Stmt.isLibrary, List.all_cons, Bool.and_eq_true] at h
    have he : Gen.Mirrors (fun e₁ e₂ => e₂ = e₁ ∧ e₁.isFunction = true) (addressExpr a e)
        (addressExpr a e) := by
      cases e with
      | func name params body =>
        cases name with
        | none => exact fun _ => ⟨rfl, rfl, rfl⟩
        | some f => cases h.1
      | _ => cases h.1
    refine he.bind fun e₁ e₂ he => (ih h.2).bind fun ds₁ ds₂ hds => .pure ⟨?_, ?_, ?_⟩
    · rw [he.1, hds.1]
    · simp only [Stmt.isLibrary, List.all_cons, Bool.and_eq_true]
      exact ⟨he.2, hds.2.1⟩
    · rw [List.map_cons, hds.2.2, List.map_cons]

theorem addressStmt_library (a : String) {s : Stmt} (h : s.isLibrary = true) :
    Gen.Mirrors (fun s₁ s₂ => s₂ = s₁ ∧ s₁.isLibrary = true ∧ s₁.declared = s.declared)
      (addressStmt a s) (addressStmt a s) := by
  cases s with
  | declare ds =>
    exact (addressFields_library a h).bind fun _ _ hds => .pure ⟨by rw [hds.1], hds.2⟩
  | _ => cases h

theorem addressStmts_front {a : String} {Q S : List Stmt → List Stmt → Prop} {xs : List String}
    {ss ss' : List Stmt} (h : FrontStmts Q xs ss ss')
    (hQ : ∀ {ss ss'}, Q ss ss' → Gen.Mirrors S (addressStmts a ss) (addressStmts a ss')) :
    Gen.Mirrors (FrontStmts S xs) (addressStmts a ss) (addressStmts a ss') := by
  induction h with
  | here h => exact (hQ h).weaken fun _ _ h => .here h
  | declare hs _ ih =>
    refine (addressStmt_library a hs).bind ?_
    rintro _ s ⟨rfl, hs, hdeclared⟩
    exact ih.bind fun _ _ hss => .pure (hdeclared ▸ .declare hs hss)

end Compile

theorem Stmt.isLibrary_flatten {s : Stmt} (h : s.isLibrary = true) :
    s.flatten.isLibrary = true := by
  cases s with
  | declare ds =>
    induction ds with
    | nil => rfl
    | cons d ds ih =>
      obtain ⟨x, e⟩ := d
      simp only [Stmt.isLibrary, List.all_cons, Bool.and_eq_true] at h
      simp only [Stmt.flatten, flattenFields, Stmt.isLibrary, List.all_cons, Bool.and_eq_true]
      refine ⟨?_, ih h.2⟩
      cases e with
      | func name params body =>
        cases name with
        | none => rfl
        | some f => cases h.1
      | _ => cases h.1
  | _ => cases h

theorem linearize_front {S : List Stmt → List Stmt → Prop} {xs : List String}
    (h : FrontStmts Q xs ss ss')
    (hQ : ∀ {ss ss'}, Q ss ss' → S (linearize (flattenStmts ss)) (linearize (flattenStmts ss'))) :
    FrontStmts S xs (linearize (flattenStmts ss)) (linearize (flattenStmts ss')) := by
  induction h with
  | here h => exact .here (hQ h)
  | @declare s xs ss ss' hs _ ih =>
    have hflat := Stmt.isLibrary_flatten hs
    cases s with
    | declare ds => exact (Stmt.declare ds).declared_flatten ▸ .declare hflat ih
    | _ => cases hs

namespace Compile

variable {xs : List String}

theorem bindAll_front {Q : Expr → Expr → Prop} {tail tail' : Gen Expr}
    (htail : Gen.Mirrors (Front Q xs) tail tail') {ds : List (String × Expr)}
    (h : (Stmt.declare ds).isLibrary = true) :
    Gen.Mirrors (Front Q (ds.map Prod.fst ++ xs)) (bindAll ds tail) (bindAll ds tail') := by
  induction ds with
  | nil => exact htail
  | cons d ds ih =>
    obtain ⟨x, e⟩ := d
    simp only [Stmt.isLibrary, List.all_cons, Bool.and_eq_true] at h
    rw [bindAll_cons, bindAll_cons]
    cases e with
    | func name params body =>
      cases name with
      | none => exact (ih h.2).bind fun e e' he _ => ⟨rfl, .bind he⟩
      | some f => cases h.1
    | _ => cases h.1

theorem sequence_front {Q : List Stmt → List Stmt → Prop} {S : Expr → Expr → Prop}
    {ss ss' : List Stmt} {k : Expr} (h : FrontStmts Q xs ss ss')
    (hQ : ∀ {ss ss'}, Q ss ss' → Gen.Mirrors S (sequence ss k) (sequence ss' k)) :
    Gen.Mirrors (Front S xs) (sequence ss k) (sequence ss' k) := by
  induction h with
  | here h => exact (hQ h).weaken fun _ _ h => .here h
  | @declare s xs ss ss' hs _ ih =>
    cases s with
    | declare ds => exact bindAll_front ih hs
    | _ => cases hs

theorem checkTail_front {Q : Expr → Expr → Prop} {e e' : Expr} (h : Front Q xs e e')
    (hQ : ∀ {e e'}, Q e e' → Agree Error.SameKind Eq (checkTail e) (checkTail e')) :
    Agree Error.SameKind Eq (checkTail e) (checkTail e') := by
  induction h with
  | here h => exact hQ h
  | bind _ ih => exact ih.bind fun _ _ _ => .self _

end Compile

/-! ## Whole programs -/

/-- The codes of a program and of the renamed one, both after the same declarations of functions. -/
theorem Program.code_front (hσ : IsRenaming σ) (hX : Plain X)
    (hbefore : ∀ s ∈ before, s.isLibrary = true) (hbody : StmtsAvoid body X) :
    Front (Renames σ X) (before.flatMap Stmt.declared) (Program.code ⟨before ++ body⟩)
      (Program.code ⟨before ++ renameStmts σ body⟩) := by
  have hreturn : FrontStmts (fun ss ss' => ss' = renameStmts σ ss ∧ StmtsAvoid ss X)
      (before.flatMap Stmt.declared) (returnLast (before ++ body))
      (returnLast (before ++ renameStmts σ body)) := by
    rw [returnLast_append hbefore, returnLast_append hbefore, returnLast_rename]
    exact frontStmts_append hbefore ⟨rfl, returnLast_avoid hbody⟩
  have haddress : IsGenerated (Compile.generated "address" 0) := ⟨"address", by decide, 0, rfl⟩
  have haddressed := Compile.addressStmts_front (S := Compile.RenamesStmts σ X) hreturn (by
    rintro ss _ ⟨rfl, hss⟩
    exact Compile.addressStmts_mirrors hσ haddress ss (fun h => hX _ h haddress) hss)
  have hlinear := linearize_front (S := Compile.RenamesStmts σ X) (haddressed 1).2 (by
    rintro ss _ ⟨rfl, hss⟩
    rw [flattenStmts_rename]
    exact ⟨linearizeOnto_rename σ _ [], linearizeOnto_avoid (flattenStmts_avoid hss) trivial⟩)
  have hk : Renames σ X (.var (Compile.generated "k" 0)) (.var (Compile.generated "k" 0)) :=
    .generated hσ hX ⟨"k", by decide, 0, rfl⟩
  have hcode := Compile.sequence_front (S := Renames σ X) hlinear (by
    rintro ss _ ⟨rfl, hss⟩
    exact Compile.sequence_mirrors hσ ss hss hk)
  exact (hcode 1).2

/-- Compiling a program and the renamed one, both after the same declarations of functions. -/
theorem Program.compile_front (hσ : IsRenaming σ) (hX : Plain X)
    (hbefore : ∀ s ∈ before, s.isLibrary = true) (hbody : StmtsAvoid body X) :
    Agree Error.SameKind (fun p q => ∃ e e', p = Program.ofCode e ∧ q = Program.ofCode e' ∧
        Front (Renames σ X) (before.flatMap Stmt.declared) e e')
      (Program.compile ⟨before ++ body⟩) (Program.compile ⟨before ++ renameStmts σ body⟩) := by
  have hcode := Program.code_front hσ hX hbefore hbody
  rw [Program.compile_eq, Program.compile_eq]
  refine (Compile.checkTail_front hcode ?_).bind fun _ _ _ => .ok ⟨_, _, rfl, rfl, hcode⟩
  intro e e' he
  exact he.eq ▸ Compile.checkTail_rename σ e

end Chance
