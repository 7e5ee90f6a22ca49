import Chance.Proofs.Meaning.Direct

/-!
# What the addresses add

The pass that adds addresses puts a parameter in front of those of every function and an argument in
front of those of every call that is not primitive. Taking the first parameters and arguments away
again gives back the program, and they can be listed and compared.

- `Expr.withoutFirsts`: a tree without the first parameters and arguments,
- `Expr.firsts`: what is taken away,
- `addressExpr_spends`: what the pass puts first is counted by its counter,
- `addressing_adds_firsts`: the pass on a whole program.
-/

namespace Chance

open Compile

/-! ## Taking firsts away -/

mutual

/-- The expression without the first parameter of every function and the first argument of every
call that is not primitive. -/
def Expr.withoutFirsts : Expr → Expr
  | .array es => .array (exprsWithoutFirsts es)
  | .object fs => .object (fieldsWithoutFirsts fs)
  | .unary op e => .unary op e.withoutFirsts
  | .binary l r op => .binary l.withoutFirsts r.withoutFirsts op
  | .logic l r op => .logic l.withoutFirsts r.withoutFirsts op
  | .cond t c e => .cond t.withoutFirsts c.withoutFirsts e.withoutFirsts
  | .member o p => .member o.withoutFirsts p.withoutFirsts
  | .call f es =>
    let args := exprsWithoutFirsts es
    .call f.withoutFirsts (if f.isPrimitive then args else args.tail)
  | .func name params body => .func name params.tail (stmtsWithoutFirsts body)
  | .assign t v => .assign t.withoutFirsts v.withoutFirsts
  | .num x => .num x
  | .str s => .str s
  | .bool b => .bool b
  | .null => .null
  | .undefined => .undefined
  | .var x => .var x

def exprsWithoutFirsts : List Expr → List Expr
  | [] => []
  | e :: es => e.withoutFirsts :: exprsWithoutFirsts es

def fieldsWithoutFirsts : List (String × Expr) → List (String × Expr)
  | [] => []
  | (k, e) :: fs => (k, e.withoutFirsts) :: fieldsWithoutFirsts fs

def Stmt.withoutFirsts : Stmt → Stmt
  | .empty => .empty
  | .expr e => .expr e.withoutFirsts
  | .declare ds => .declare (fieldsWithoutFirsts ds)
  | .ifElse t c e => .ifElse t.withoutFirsts (stmtsWithoutFirsts c) (stmtsWithoutFirsts e)
  | .ret e => .ret e.withoutFirsts
  | .block body => .block (stmtsWithoutFirsts body)

def stmtsWithoutFirsts : List Stmt → List Stmt
  | [] => []
  | s :: ss => s.withoutFirsts :: stmtsWithoutFirsts ss

end

def Program.withoutFirsts (p : Program) : Program :=
  ⟨stmtsWithoutFirsts p.body⟩

/-! ## Listing firsts -/

/-- What is taken away: the first parameter of a function, if it has one, or the first argument of a
call, if it has one, with the first parameter of the innermost function around the call. -/
inductive First where
  | param (x : Option String)
  | arg (around : Option String) (e : Option Expr)

namespace First

def param? : First → Option (Option String)
  | .param x => some x
  | .arg .. => none

def arg? : First → Option (Option String × Option Expr)
  | .param _ => none
  | .arg a e => some (a, e)

end First

mutual

/-- The first parameters and arguments in an expression; `a` is the first parameter of the function
around it. -/
def Expr.firsts (a : Option String) : Expr → List First
  | .array es => exprsFirsts a es
  | .object fs => fieldsFirsts a fs
  | .unary _ e => e.firsts a
  | .binary l r _ | .logic l r _ | .member l r | .assign l r => l.firsts a ++ r.firsts a
  | .cond t c e => t.firsts a ++ (c.firsts a ++ e.firsts a)
  | .call f es =>
    f.firsts a ++ (exprsFirsts a es ++ if f.isPrimitive then [] else [.arg a es.head?])
  | .func _ params body => .param params.head? :: stmtsFirsts params.head? body
  | .num _ | .str _ | .bool _ | .null | .undefined | .var _ => []

def exprsFirsts (a : Option String) : List Expr → List First
  | [] => []
  | e :: es => e.firsts a ++ exprsFirsts a es

def fieldsFirsts (a : Option String) : List (String × Expr) → List First
  | [] => []
  | (_, e) :: fs => e.firsts a ++ fieldsFirsts a fs

def Stmt.firsts (a : Option String) : Stmt → List First
  | .empty => []
  | .expr e | .ret e => e.firsts a
  | .declare ds => fieldsFirsts a ds
  | .ifElse t c e => t.firsts a ++ (stmtsFirsts a c ++ stmtsFirsts a e)
  | .block body => stmtsFirsts a body

def stmtsFirsts (a : Option String) : List Stmt → List First
  | [] => []
  | s :: ss => s.firsts a ++ stmtsFirsts a ss

end

/-- The first parameters of the functions of a program. -/
def Program.firstParams (p : Program) : List (Option String) :=
  (stmtsFirsts none p.body).filterMap First.param?

/-- The first arguments of the calls of a program that are not primitive. No function is around the
program itself. -/
def Program.firstArgs (p : Program) : List (Option String × Option Expr) :=
  (stmtsFirsts none p.body).filterMap First.arg?

/-! ## A tree with addresses without its firsts -/

mutual

theorem Addressed.withoutFirsts_eq : ∀ {a : String} {e e' : Expr}, Addressed a e e' →
    e'.withoutFirsts = e
  | _, _, _, .num .. | _, _, _, .str .. | _, _, _, .bool .. | _, _, _, .null _
  | _, _, _, .undefined _ | _, _, _, .var .. => rfl
  | _, _, _, .array h => congrArg Expr.array (ExprsAddressed.withoutFirsts_eq h)
  | _, _, _, .object h => congrArg Expr.object (FieldsAddressed.withoutFirsts_eq h)
  | _, _, _, .unary op h => congrArg (Expr.unary op) (Addressed.withoutFirsts_eq h)
  | _, _, _, .binary op hl hr =>
    congrArg₂ (Expr.binary · · op) (Addressed.withoutFirsts_eq hl) (Addressed.withoutFirsts_eq hr)
  | _, _, _, .logic op hl hr =>
    congrArg₂ (Expr.logic · · op) (Addressed.withoutFirsts_eq hl) (Addressed.withoutFirsts_eq hr)
  | _, _, _, .cond ht hc he => by
    rw [Expr.withoutFirsts, Addressed.withoutFirsts_eq ht, Addressed.withoutFirsts_eq hc,
      Addressed.withoutFirsts_eq he]
  | _, _, _, .member ho hp =>
    congrArg₂ Expr.member (Addressed.withoutFirsts_eq ho) (Addressed.withoutFirsts_eq hp)
  -- Addresses do not change which calls are primitive, so the same calls lose an argument.
  | _, _, _, .method hprimitive hf hes => by
    rw [Expr.withoutFirsts, if_pos (hf.isPrimitive_eq.trans hprimitive),
      Addressed.withoutFirsts_eq hf, ExprsAddressed.withoutFirsts_eq hes]
  | _, _, _, .call s hprimitive hf hes => by
    have hcallee := hf.isPrimitive_eq.trans hprimitive
    rw [Expr.withoutFirsts, if_neg (Bool.eq_false_iff.1 hcallee), exprsWithoutFirsts,
      List.tail_cons, Addressed.withoutFirsts_eq hf, ExprsAddressed.withoutFirsts_eq hes]
  | _, _, _, .func name params _ h =>
    congrArg (Expr.func name params) (StmtsAddressed.withoutFirsts_eq h)
  | _, _, _, .assign ht hv =>
    congrArg₂ Expr.assign (Addressed.withoutFirsts_eq ht) (Addressed.withoutFirsts_eq hv)

theorem ExprsAddressed.withoutFirsts_eq : ∀ {a : String} {es es' : List Expr},
    ExprsAddressed a es es' → exprsWithoutFirsts es' = es
  | _, _, _, .nil _ => rfl
  | _, _, _, .cons he hes =>
    congrArg₂ List.cons (Addressed.withoutFirsts_eq he) (ExprsAddressed.withoutFirsts_eq hes)

theorem FieldsAddressed.withoutFirsts_eq : ∀ {a : String} {fs fs' : List (String × Expr)},
    FieldsAddressed a fs fs' → fieldsWithoutFirsts fs' = fs
  | _, _, _, .nil _ => rfl
  | _, _, _, .cons key he hfs =>
    congrArg₂ (fun e fs => (key, e) :: fs) (Addressed.withoutFirsts_eq he)
      (FieldsAddressed.withoutFirsts_eq hfs)

theorem StmtAddressed.withoutFirsts_eq : ∀ {a : String} {s s' : Stmt}, StmtAddressed a s s' →
    s'.withoutFirsts = s
  | _, _, _, .empty _ => rfl
  | _, _, _, .expr h => congrArg Stmt.expr (Addressed.withoutFirsts_eq h)
  | _, _, _, .ret h => congrArg Stmt.ret (Addressed.withoutFirsts_eq h)
  | _, _, _, .declare h => congrArg Stmt.declare (FieldsAddressed.withoutFirsts_eq h)
  | _, _, _, .ifElse ht hc he => by
    rw [Stmt.withoutFirsts, Addressed.withoutFirsts_eq ht, StmtsAddressed.withoutFirsts_eq hc,
      StmtsAddressed.withoutFirsts_eq he]
  | _, _, _, .block h => congrArg Stmt.block (StmtsAddressed.withoutFirsts_eq h)

theorem StmtsAddressed.withoutFirsts_eq : ∀ {a : String} {ss ss' : List Stmt},
    StmtsAddressed a ss ss' → stmtsWithoutFirsts ss' = ss
  | _, _, _, .nil _ => rfl
  | _, _, _, .cons hs hss =>
    congrArg₂ List.cons (StmtAddressed.withoutFirsts_eq hs) (StmtsAddressed.withoutFirsts_eq hss)

end

/-! ## Numbers given out -/

/-- The first made from a number: the address of a function, or for a call in the function with
address `a` that address with the number added. -/
def First.made : Nat × Option String → First
  | (n, none) => .param (some (generated "address" n))
  | (n, some a) => .arg (some a) (some (extended a (.str (generated "" n))))

/-- From `lo` up to `hi` the counter gave out one number for each of the firsts `fs`. -/
def Spends (lo hi : Nat) (fs : List First) : Prop :=
  ∃ marks : List (Nat × Option String), fs = marks.map First.made ∧ lo ≤ hi ∧
    marks.Pairwise (·.1 ≠ ·.1) ∧ ∀ mark ∈ marks, lo ≤ mark.1 ∧ mark.1 < hi

namespace Spends

variable {lo mid hi : Nat} {fs gs : List First}

theorem nil (n : Nat) : Spends n n [] :=
  ⟨[], rfl, le_rfl, .nil, by simp⟩

theorem single (mark : Nat × Option String) : Spends mark.1 (mark.1 + 1) [First.made mark] :=
  ⟨[mark], rfl, Nat.le_succ _, List.pairwise_singleton _ _, by simp⟩

theorem append (h : Spends lo mid fs) (h' : Spends mid hi gs) : Spends lo hi (fs ++ gs) := by
  obtain ⟨ms, rfl, hlo, hms, hmem⟩ := h
  obtain ⟨ns, rfl, hhi, hns, hmem'⟩ := h'
  refine ⟨ms ++ ns, List.map_append.symm, hlo.trans hhi, ?_, ?_⟩
  · refine List.pairwise_append.2 ⟨hms, hns, ?_⟩
    intro m hm n hn
    exact ((hmem m hm).2.trans_le (hmem' n hn).1).ne
  · intro mark hmark
    rcases List.mem_append.1 hmark with hmark | hmark
    · exact ⟨(hmem mark hmark).1, (hmem mark hmark).2.trans_le hhi⟩
    · exact ⟨hlo.trans (hmem' mark hmark).1, (hmem' mark hmark).2⟩

end Spends

/-! ## The pass -/

namespace Compile

mutual

theorem addressExpr_spends (a : String) : ∀ (e : Expr) (n : Nat),
    Spends n ((addressExpr a e).run n).2 (((addressExpr a e).run n).1.firsts (some a))
  | .array es, n => addressExprs_spends a es n
  | .object fs, n => addressFields_spends a fs n
  | .unary _ e, n => addressExpr_spends a e n
  | .binary l r _, n | .logic l r _, n | .member l r, n | .assign l r, n =>
    (addressExpr_spends a l n).append (addressExpr_spends a r _)
  | .cond t c e, n =>
    (addressExpr_spends a t n).append
      ((addressExpr_spends a c _).append (addressExpr_spends a e _))
  | .call f es, n => by
    have hf := addressExpr_spends a f n
    have hes := addressExprs_spends a es ((addressExpr a f).run n).2
    have hprimitive := addressExpr_isPrimitive a f n
    cases hcase : f.isPrimitive with
    | true =>
      rw [hcase] at hprimitive
      rw [addressExpr_run_method a es n hcase, Expr.firsts, if_pos hprimitive, List.append_nil]
      exact hf.append hes
    | false =>
      -- The address of the call is built by a primitive call, which adds nothing.
      have hsite := Spends.single (((addressExprs a es).run ((addressExpr a f).run n).2).2, some a)
      rw [hcase] at hprimitive
      rw [addressExpr_run_call a es n hcase, Expr.firsts,
        if_neg (Bool.eq_false_iff.1 hprimitive)]
      exact hf.append (hes.append hsite)
  | .func name params body, n =>
    (Spends.single (n, none)).append (addressStmts_spends (generated "address" n) body (n + 1))
  | .num _, n | .str _, n | .bool _, n | .null, n | .undefined, n | .var _, n => .nil n

theorem addressExprs_spends (a : String) : ∀ (es : List Expr) (n : Nat),
    Spends n ((addressExprs a es).run n).2 (exprsFirsts (some a) ((addressExprs a es).run n).1)
  | [], n => .nil n
  | e :: es, n => (addressExpr_spends a e n).append (addressExprs_spends a es _)

theorem addressFields_spends (a : String) : ∀ (fs : List (String × Expr)) (n : Nat),
    Spends n ((addressFields a fs).run n).2 (fieldsFirsts (some a) ((addressFields a fs).run n).1)
  | [], n => .nil n
  | (_, e) :: fs, n => (addressExpr_spends a e n).append (addressFields_spends a fs _)

theorem addressStmt_spends (a : String) : ∀ (s : Stmt) (n : Nat),
    Spends n ((addressStmt a s).run n).2 (((addressStmt a s).run n).1.firsts (some a))
  | .empty, n => .nil n
  | .expr e, n | .ret e, n => addressExpr_spends a e n
  | .declare ds, n => addressFields_spends a ds n
  | .ifElse t c e, n =>
    (addressExpr_spends a t n).append
      ((addressStmts_spends a c _).append (addressStmts_spends a e _))
  | .block body, n => addressStmts_spends a body n

theorem addressStmts_spends (a : String) : ∀ (ss : List Stmt) (n : Nat),
    Spends n ((addressStmts a ss).run n).2 (stmtsFirsts (some a) ((addressStmts a ss).run n).1)
  | [], n => .nil n
  | s :: ss, n => (addressStmt_spends a s n).append (addressStmts_spends a ss _)

end

end Compile

/-- Adding addresses succeeds on every program that is one function, and only adds them: without the
first parameters and arguments the program is the one before. The first parameters are different
variables; each first argument extends the first parameter of the innermost function around its call
by a literal, and these literals are different over the whole program. -/
theorem addressing_adds_firsts (p : Program) :
    ∃ q, p.thunk.addressed = .ok q ∧ q.withoutFirsts = p.thunk ∧
      (∃ addresses : List String, q.firstParams = addresses.map some ∧ addresses.Nodup) ∧
      ∃ sites : List (String × String),
        q.firstArgs = sites.map (fun (a, l) => (some a, some (extended a (.str l)))) ∧
        (sites.map Prod.snd).Nodup := by
  let body := returnLast p.body
  let a := generated "address" 0
  have hbody := (addressStmts_addressed a body 1).withoutFirsts_eq
  have hspends := (Spends.single (0, none)).append (addressStmts_spends a body 1)
  -- Every first is marked with the number that it was made from, and no number is used twice.
  obtain ⟨marks, hmarks, -, hne, -⟩ := hspends
  have hfirsts := (List.append_nil _).trans hmarks
  refine ⟨⟨[.expr (.func none [a] ((addressStmts a body).run 1).1)]⟩, rfl, ?_, ?_, ?_⟩
  · exact congrArg (fun ss => Program.mk [.expr (.func none [] ss)]) hbody
  · refine ⟨marks.filterMap fun (n, around) =>
      if around.isNone then some (generated "address" n) else none, ?_, ?_⟩
    · refine (congrArg (List.filterMap First.param?) hfirsts).trans ?_
      rw [List.filterMap_map, List.map_filterMap]
      refine List.filterMap_congr fun mark _ => ?_
      obtain ⟨n, _ | a⟩ := mark <;> rfl
    · refine List.pairwise_filterMap.2 (hne.imp ?_)
      rintro ⟨m, _ | a⟩ ⟨n, _ | b⟩ hmn x hx y hy <;> cases hx <;> cases hy
      exact fun h => hmn (generated_inj h)
  · refine ⟨marks.filterMap fun (n, around) => around.map (·, generated "" n), ?_, ?_⟩
    · refine (congrArg (List.filterMap First.arg?) hfirsts).trans ?_
      rw [List.filterMap_map, List.map_filterMap]
      refine List.filterMap_congr fun mark _ => ?_
      obtain ⟨n, _ | a⟩ := mark <;> rfl
    · rw [List.map_filterMap]
      refine List.pairwise_filterMap.2 (hne.imp ?_)
      rintro ⟨m, _ | a⟩ ⟨n, _ | b⟩ hmn x hx y hy <;> cases hx <;> cases hy
      exact fun h => hmn (generated_inj h)

end Chance
