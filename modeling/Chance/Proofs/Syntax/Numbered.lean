import Chance.Proofs.Syntax.Acceptance

/-!
# Numbered calls

Once addresses are added, every call that is not primitive passes the address of the function it
stands in, extended by a number of its own. The numbers come in the order in which they are given
out, so a range of numbers tells which calls a part of a function can make. Linear lists copy calls,
but never into the same path.

- `Expr.Numbered`, `StmtsNumbered`: trees whose calls have numbers in a range,
- `addressExpr_numbered`: what the pass that adds addresses gives,
- `flatten_numbered`: linear form keeps the ranges.
-/

namespace Chance

mutual

/-- In the function with address `a`, the calls outside inner functions have numbers from `lo` up to
`hi`, no two on one path the same, and all names are ordinary; likewise in every inner function. -/
def Expr.Numbered (a : String) : Expr → Nat → Nat → Prop
  | .var x, lo, hi => IsOrdinary x ∧ lo ≤ hi
  | .array es, lo, hi => ExprsNumbered a es lo hi
  | .object fs, lo, hi => FieldsNumbered a fs lo hi
  | .unary _ e, lo, hi => e.Numbered a lo hi
  | .binary l r _, lo, hi => ∃ mid, l.Numbered a lo mid ∧ r.Numbered a mid hi
  | .logic l r _, lo, hi => ∃ mid, l.Numbered a lo mid ∧ r.Numbered a mid hi
  | .cond t c e, lo, hi =>
    ∃ mid mid', t.Numbered a lo mid ∧ c.Numbered a mid mid' ∧ e.Numbered a mid' hi
  | .member o p, lo, hi => ∃ mid, o.Numbered a lo mid ∧ p.Numbered a mid hi
  | .call f es, lo, hi =>
    ∃ mid, f.Numbered a lo mid ∧
      if f.isPrimitive then ExprsNumbered a es mid hi else ArgsNumbered a es mid hi
  | .func name params body, lo, hi =>
    lo ≤ hi ∧ (∀ x ∈ name, IsOrdinary x) ∧ ∃ n ps, params = Compile.generated "address" n :: ps ∧
      (∀ x ∈ ps, IsOrdinary x) ∧
      ∃ lo' hi', StmtsNumbered (Compile.generated "address" n) body lo' hi'
  | .assign t v, lo, hi => ∃ mid, t.Numbered a lo mid ∧ v.Numbered a mid hi
  | .num _, lo, hi | .str _, lo, hi | .bool _, lo, hi | .null, lo, hi | .undefined, lo, hi =>
    lo ≤ hi
termination_by structural e => e

def ExprsNumbered (a : String) : List Expr → Nat → Nat → Prop
  | [], lo, hi => lo ≤ hi
  | e :: es, lo, hi => ∃ mid, e.Numbered a lo mid ∧ ExprsNumbered a es mid hi
termination_by structural es => es

/-- Arguments after the address of the call. -/
def ArgsNumbered (a : String) : List Expr → Nat → Nat → Prop
  | [], _, _ => False
  | e :: es, lo, hi =>
    ∃ n, e = Compile.extended a (.str (Compile.generated "" n)) ∧ ExprsNumbered a es lo n ∧ n < hi
termination_by structural es => es

def FieldsNumbered (a : String) : List (String × Expr) → Nat → Nat → Prop
  | [], lo, hi => lo ≤ hi
  | (_, e) :: fs, lo, hi => ∃ mid, e.Numbered a lo mid ∧ FieldsNumbered a fs mid hi
termination_by structural fs => fs

def Stmt.Numbered (a : String) : Stmt → Nat → Nat → Prop
  | .empty, lo, hi => lo ≤ hi
  | .expr e, lo, hi => e.Numbered a lo hi
  | .declare ds, lo, hi => (∀ d ∈ ds, IsOrdinary d.1) ∧ FieldsNumbered a ds lo hi
  | .ifElse t c e, lo, hi =>
    ∃ mid, t.Numbered a lo mid ∧ StmtsNumbered a c mid hi ∧ StmtsNumbered a e mid hi
  | .ret e, lo, hi => e.Numbered a lo hi
  | .block body, lo, hi => StmtsNumbered a body lo hi
termination_by structural s => s

def StmtsNumbered (a : String) : List Stmt → Nat → Nat → Prop
  | [], lo, hi => lo ≤ hi
  | s :: ss, lo, hi => ∃ mid, s.Numbered a lo mid ∧ StmtsNumbered a ss mid hi
termination_by structural ss => ss

end

/-! ## Ranges -/

section Ranges

variable {a : String}

mutual

theorem Expr.Numbered.le : ∀ {e : Expr} {lo hi : Nat}, e.Numbered a lo hi → lo ≤ hi
  | .var _, _, _, h => h.2
  | .array _, _, _, h => exprsNumbered_le h
  | .object _, _, _, h => fieldsNumbered_le h
  | .unary _ e, _, _, h => Expr.Numbered.le (e := e) h
  | .binary _ _ _, _, _, ⟨_, hl, hr⟩ | .logic _ _ _, _, _, ⟨_, hl, hr⟩
  | .member _ _, _, _, ⟨_, hl, hr⟩ | .assign _ _, _, _, ⟨_, hl, hr⟩ => hl.le.trans hr.le
  | .cond _ _ _, _, _, ⟨_, _, ht, hc, he⟩ => ht.le.trans (hc.le.trans he.le)
  | .call f es, _, _, ⟨_, hf, hes⟩ => by
    refine hf.le.trans ?_
    split_ifs at hes
    · exact exprsNumbered_le hes
    · cases es with
      | nil => exact hes.elim
      | cons _ es =>
        obtain ⟨n, _, hes, hn⟩ := hes
        exact (exprsNumbered_le hes).trans hn.le
  | .func _ _ _, _, _, h => h.1
  | .num _, _, _, h | .str _, _, _, h | .bool _, _, _, h | .null, _, _, h | .undefined, _, _, h => h

theorem exprsNumbered_le : ∀ {es : List Expr} {lo hi : Nat}, ExprsNumbered a es lo hi → lo ≤ hi
  | [], _, _, h => h
  | _ :: _, _, _, ⟨_, he, hes⟩ => he.le.trans (exprsNumbered_le hes)

theorem fieldsNumbered_le :
    ∀ {fs : List (String × Expr)} {lo hi : Nat}, FieldsNumbered a fs lo hi → lo ≤ hi
  | [], _, _, h => h
  | (_, _) :: _, _, _, ⟨_, he, hfs⟩ => he.le.trans (fieldsNumbered_le hfs)

end

mutual

theorem Expr.Numbered.widen : ∀ {e : Expr} {lo hi lo' hi' : Nat}, e.Numbered a lo hi → lo' ≤ lo →
    hi ≤ hi' → e.Numbered a lo' hi'
  | .var _, _, _, _, _, h, hlo, hhi => ⟨h.1, hlo.trans (h.2.trans hhi)⟩
  | .array _, _, _, _, _, h, hlo, hhi => exprsNumbered_widen h hlo hhi
  | .object _, _, _, _, _, h, hlo, hhi => fieldsNumbered_widen h hlo hhi
  | .unary _ e, _, _, _, _, h, hlo, hhi => Expr.Numbered.widen (e := e) h hlo hhi
  | .binary _ _ _, _, _, _, _, ⟨_, hl, hr⟩, hlo, hhi
  | .logic _ _ _, _, _, _, _, ⟨_, hl, hr⟩, hlo, hhi
  | .member _ _, _, _, _, _, ⟨_, hl, hr⟩, hlo, hhi
  | .assign _ _, _, _, _, _, ⟨_, hl, hr⟩, hlo, hhi =>
    ⟨_, hl.widen hlo le_rfl, hr.widen le_rfl hhi⟩
  | .cond _ _ _, _, _, _, _, ⟨_, _, ht, hc, he⟩, hlo, hhi =>
    ⟨_, _, ht.widen hlo le_rfl, hc, he.widen le_rfl hhi⟩
  | .call f es, _, _, _, _, ⟨mid, hf, hes⟩, hlo, hhi => by
    refine ⟨mid, hf.widen hlo le_rfl, ?_⟩
    split_ifs at hes ⊢
    · exact exprsNumbered_widen hes le_rfl hhi
    · cases es with
      | nil => exact hes
      | cons _ es =>
        obtain ⟨n, hn, hes, hlt⟩ := hes
        exact ⟨n, hn, hes, hlt.trans_le hhi⟩
  | .func _ _ _, _, _, _, _, h, hlo, hhi => ⟨hlo.trans (h.1.trans hhi), h.2⟩
  | .num _, _, _, _, _, h, hlo, hhi | .str _, _, _, _, _, h, hlo, hhi
  | .bool _, _, _, _, _, h, hlo, hhi | .null, _, _, _, _, h, hlo, hhi
  | .undefined, _, _, _, _, h, hlo, hhi => hlo.trans (h.trans hhi)

theorem exprsNumbered_widen : ∀ {es : List Expr} {lo hi lo' hi' : Nat}, ExprsNumbered a es lo hi →
    lo' ≤ lo → hi ≤ hi' → ExprsNumbered a es lo' hi'
  | [], _, _, _, _, h, hlo, hhi => hlo.trans (h.trans hhi)
  | _ :: _, _, _, _, _, ⟨_, he, hes⟩, hlo, hhi =>
    ⟨_, he.widen hlo le_rfl, exprsNumbered_widen hes le_rfl hhi⟩

theorem fieldsNumbered_widen : ∀ {fs : List (String × Expr)} {lo hi lo' hi' : Nat},
    FieldsNumbered a fs lo hi → lo' ≤ lo → hi ≤ hi' → FieldsNumbered a fs lo' hi'
  | [], _, _, _, _, h, hlo, hhi => hlo.trans (h.trans hhi)
  | (_, _) :: _, _, _, _, _, ⟨_, he, hfs⟩, hlo, hhi =>
    ⟨_, he.widen hlo le_rfl, fieldsNumbered_widen hfs le_rfl hhi⟩

end

mutual

theorem Stmt.Numbered.widen : ∀ {s : Stmt} {lo hi lo' hi' : Nat}, s.Numbered a lo hi → lo' ≤ lo →
    hi ≤ hi' → s.Numbered a lo' hi'
  | .empty, _, _, _, _, h, hlo, hhi => hlo.trans (h.trans hhi)
  | .expr e, _, _, _, _, h, hlo, hhi => Expr.Numbered.widen (e := e) h hlo hhi
  | .declare _, _, _, _, _, h, hlo, hhi => ⟨h.1, fieldsNumbered_widen h.2 hlo hhi⟩
  | .ifElse _ _ _, _, _, _, _, ⟨_, ht, hc, he⟩, hlo, hhi =>
    ⟨_, ht.widen hlo le_rfl, stmtsNumbered_widen hc le_rfl hhi, stmtsNumbered_widen he le_rfl hhi⟩
  | .ret e, _, _, _, _, h, hlo, hhi => Expr.Numbered.widen (e := e) h hlo hhi
  | .block _, _, _, _, _, h, hlo, hhi => stmtsNumbered_widen h hlo hhi

theorem stmtsNumbered_widen : ∀ {ss : List Stmt} {lo hi lo' hi' : Nat}, StmtsNumbered a ss lo hi →
    lo' ≤ lo → hi ≤ hi' → StmtsNumbered a ss lo' hi'
  | [], _, _, _, _, h, hlo, hhi => hlo.trans (h.trans hhi)
  | _ :: _, _, _, _, _, ⟨_, hs, hss⟩, hlo, hhi =>
    ⟨_, hs.widen hlo le_rfl, stmtsNumbered_widen hss le_rfl hhi⟩

end

mutual

theorem Stmt.Numbered.le : ∀ {s : Stmt} {lo hi : Nat}, s.Numbered a lo hi → lo ≤ hi
  | .empty, _, _, h => h
  | .expr e, _, _, h | .ret e, _, _, h => Expr.Numbered.le (e := e) h
  | .declare _, _, _, h => fieldsNumbered_le h.2
  | .ifElse _ _ _, _, _, ⟨_, ht, hc, _⟩ => ht.le.trans (stmtsNumbered_le hc)
  | .block _, _, _, h => stmtsNumbered_le h

theorem stmtsNumbered_le : ∀ {ss : List Stmt} {lo hi : Nat}, StmtsNumbered a ss lo hi → lo ≤ hi
  | [], _, _, h => h
  | _ :: _, _, _, ⟨_, hs, hss⟩ => hs.le.trans (stmtsNumbered_le hss)

end

end Ranges

/-! ## Adding addresses -/

namespace Compile

variable {f : Expr}

theorem addressExpr_isPrimitive (a : String) (e : Expr) (n : Nat) :
    ((addressExpr a e).run n).1.isPrimitive = e.isPrimitive :=
  (addressExpr_addressed a e n).isPrimitive_eq

theorem addressFields_keys (a : String) (fs : List (String × Expr)) (n : Nat) :
    ((addressFields a fs).run n).1.map Prod.fst = fs.map Prod.fst :=
  (addressFields_addressed a fs n).keys_eq

theorem addressExpr_run_method (a : String) (es : List Expr) (n : Nat) (h : f.isPrimitive = true) :
    (addressExpr a (.call f es)).run n =
      (.call ((addressExpr a f).run n).1 ((addressExprs a es).run ((addressExpr a f).run n).2).1,
        ((addressExprs a es).run ((addressExpr a f).run n).2).2) := by
  simp only [addressExpr, h]
  rfl

theorem addressExpr_run_call (a : String) (es : List Expr) (n : Nat) (h : f.isPrimitive = false) :
    (addressExpr a (.call f es)).run n =
      (.call ((addressExpr a f).run n).1
        (extended a (.str (generated "" ((addressExprs a es).run ((addressExpr a f).run n).2).2)) ::
          ((addressExprs a es).run ((addressExpr a f).run n).2).1),
        ((addressExprs a es).run ((addressExpr a f).run n).2).2 + 1) := by
  simp only [addressExpr, h]
  rfl

mutual

/-- The numbers that are given out for a tree are those between the states of the counter. -/
theorem addressExpr_numbered (a : String) :
    ∀ (e : Expr), (∀ x ∈ e.names, IsOrdinary x) → ∀ n,
      ((addressExpr a e).run n).1.Numbered a n ((addressExpr a e).run n).2
  | .var _, h, _ => ⟨h _ (List.mem_singleton_self _), le_rfl⟩
  | .array es, h, n => addressExprs_numbered a es h n
  | .object fs, h, n => addressFields_numbered a fs h n
  | .unary _ e, h, n => addressExpr_numbered a e h n
  | .binary l r _, h, n | .logic l r _, h, n | .member l r, h, n | .assign l r, h, n =>
    have h := List.forall_mem_append.1 h
    ⟨_, addressExpr_numbered a l h.1 n, addressExpr_numbered a r h.2 _⟩
  | .cond t c e, h, n =>
    have h := List.forall_mem_append.1 h
    have h' := List.forall_mem_append.1 h.2
    ⟨_, _, addressExpr_numbered a t h.1 n, addressExpr_numbered a c h'.1 _,
      addressExpr_numbered a e h'.2 _⟩
  | .call f es, h, n => by
    have h := List.forall_mem_append.1 h
    have hf := addressExpr_numbered a f h.1 n
    have hes := addressExprs_numbered a es h.2 ((addressExpr a f).run n).2
    have hprimitive := addressExpr_isPrimitive a f n
    cases hcase : f.isPrimitive with
    | true =>
      rw [addressExpr_run_method a es n hcase]
      refine ⟨_, hf, ?_⟩
      rw [if_pos (hprimitive.trans hcase)]
      exact hes
    | false =>
      rw [addressExpr_run_call a es n hcase]
      refine ⟨_, hf, ?_⟩
      rw [if_neg (by rw [hprimitive, hcase]; exact Bool.false_ne_true)]
      exact ⟨_, rfl, hes, Nat.lt_succ_self _⟩
  | .func name params body, h, n => by
    have h := List.forall_mem_append.1 h
    have h' := List.forall_mem_append.1 h.2
    have hbody := addressStmts_numbered (generated "address" n) body h'.2 (n + 1)
    refine ⟨(Nat.le_succ n).trans (stmtsNumbered_le hbody), ?_, n, params, rfl, h'.1, _, _, hbody⟩
    exact fun x hx => h.1 x (Option.mem_toList.2 hx)
  | .num _, _, _ | .str _, _, _ | .bool _, _, _ | .null, _, _ | .undefined, _, _ => le_rfl

theorem addressExprs_numbered (a : String) :
    ∀ (es : List Expr), (∀ x ∈ exprsNames es, IsOrdinary x) → ∀ n,
      ExprsNumbered a ((addressExprs a es).run n).1 n ((addressExprs a es).run n).2
  | [], _, _ => le_rfl
  | e :: es, h, n =>
    have h := List.forall_mem_append.1 h
    ⟨_, addressExpr_numbered a e h.1 n, addressExprs_numbered a es h.2 _⟩

theorem addressFields_numbered (a : String) :
    ∀ (fs : List (String × Expr)), (∀ x ∈ fieldsNames fs, IsOrdinary x) → ∀ n,
      FieldsNumbered a ((addressFields a fs).run n).1 n ((addressFields a fs).run n).2
  | [], _, _ => le_rfl
  | (_, e) :: fs, h, n =>
    have h := List.forall_mem_append.1 h
    ⟨_, addressExpr_numbered a e h.1 n, addressFields_numbered a fs h.2 _⟩

theorem addressStmt_numbered (a : String) :
    ∀ (s : Stmt), (∀ x ∈ s.names, IsOrdinary x) → ∀ n,
      ((addressStmt a s).run n).1.Numbered a n ((addressStmt a s).run n).2
  | .empty, _, _ => le_rfl
  | .expr e, h, n | .ret e, h, n => addressExpr_numbered a e h n
  | .declare ds, h, n => by
    have h := List.forall_mem_append.1 h
    refine ⟨?_, addressFields_numbered a ds h.2 n⟩
    have hkeys : ∀ x ∈ ((addressFields a ds).run n).1.map Prod.fst, IsOrdinary x := by
      rw [addressFields_keys]
      exact h.1
    exact fun d hd => hkeys d.1 (List.mem_map_of_mem hd)
  | .ifElse t c e, h, n => by
    have h := List.forall_mem_append.1 h
    have h' := List.forall_mem_append.1 h.2
    have ht := addressExpr_numbered a t h.1 n
    have hc := addressStmts_numbered a c h'.1 ((addressExpr a t).run n).2
    have he := addressStmts_numbered a e h'.2
      ((addressStmts a c).run ((addressExpr a t).run n).2).2
    exact ⟨_, ht, stmtsNumbered_widen hc le_rfl (stmtsNumbered_le he),
      stmtsNumbered_widen he (stmtsNumbered_le hc) le_rfl⟩
  | .block body, h, n => addressStmts_numbered a body h n

theorem addressStmts_numbered (a : String) :
    ∀ (ss : List Stmt), (∀ x ∈ stmtsNames ss, IsOrdinary x) → ∀ n,
      StmtsNumbered a ((addressStmts a ss).run n).1 n ((addressStmts a ss).run n).2
  | [], _, _ => le_rfl
  | s :: ss, h, n =>
    have h := List.forall_mem_append.1 h
    ⟨_, addressStmt_numbered a s h.1 n, addressStmts_numbered a ss h.2 _⟩

end

/-! ## Linear form -/

section Linear

variable {a : String}

mutual

theorem stmt_linearizeOnto_numbered :
    ∀ {s : Stmt} {after : List Stmt} {lo mid hi : Nat}, s.Numbered a lo mid →
      StmtsNumbered a after mid hi → StmtsNumbered a (s.linearizeOnto after) lo hi
  | .block _, _, _, _, _, h, hafter => linearizeOnto_numbered h hafter
  | .ifElse t c e, after, lo, mid, hi, h, hafter => by
    obtain ⟨mid', ht, hc, he⟩ := h
    simp only [Stmt.linearizeOnto]
    split_ifs
    · exact ⟨hi, ⟨mid', ht, linearizeOnto_numbered hc hafter, linearizeOnto_numbered he hafter⟩,
        le_rfl⟩
    · exact ⟨mid, ⟨mid', ht, hc, he⟩, hafter⟩
  | .ret _, _, _, _, _, h, hafter => ⟨_, h, stmtsNumbered_le hafter⟩
  | .empty, _, _, _, _, h, hafter => ⟨_, h, hafter⟩
  | .expr _, _, _, _, _, h, hafter => ⟨_, h, hafter⟩
  | .declare _, _, _, _, _, h, hafter => ⟨_, h, hafter⟩

theorem linearizeOnto_numbered :
    ∀ {ss after : List Stmt} {lo mid hi : Nat}, StmtsNumbered a ss lo mid →
      StmtsNumbered a after mid hi → StmtsNumbered a (linearizeOnto ss after) lo hi
  | [], _, _, _, _, h, hafter => stmtsNumbered_widen hafter h le_rfl
  | _ :: _, _, _, _, _, ⟨_, hs, hss⟩, hafter =>
    stmt_linearizeOnto_numbered hs (linearizeOnto_numbered hss hafter)

end

end Linear

mutual

theorem flatten_numbered {a : String} :
    ∀ {e : Expr} {lo hi : Nat}, e.Numbered a lo hi → e.flatten.Numbered a lo hi
  | .var _, _, _, h => h
  | .array _, _, _, h => flattenExprs_numbered h
  | .object _, _, _, h => flattenFields_numbered h
  | .unary _ e, _, _, h => flatten_numbered (e := e) h
  | .binary _ _ _, _, _, ⟨_, hl, hr⟩ | .logic _ _ _, _, _, ⟨_, hl, hr⟩
  | .member _ _, _, _, ⟨_, hl, hr⟩ | .assign _ _, _, _, ⟨_, hl, hr⟩ =>
    ⟨_, flatten_numbered hl, flatten_numbered hr⟩
  | .cond _ _ _, _, _, ⟨_, _, ht, hc, he⟩ =>
    ⟨_, _, flatten_numbered ht, flatten_numbered hc, flatten_numbered he⟩
  | .call f es, lo, hi, ⟨mid, hf, hes⟩ => by
    refine ⟨mid, flatten_numbered hf, ?_⟩
    rw [flatten_isPrimitive]
    split_ifs at hes ⊢
    · exact flattenExprs_numbered hes
    · cases es with
      | nil => exact hes
      | cons e es =>
        obtain ⟨n, rfl, hes, hlt⟩ := hes
        exact ⟨n, rfl, flattenExprs_numbered hes, hlt⟩
  | .func _ _ _, _, _, ⟨hle, hname, n, ps, hparams, hps, lo, hi, hbody⟩ =>
    ⟨hle, hname, n, ps, hparams, hps, lo, hi,
      linearizeOnto_numbered (flattenStmts_numbered hbody) le_rfl⟩
  | .num _, _, _, h | .str _, _, _, h | .bool _, _, _, h | .null, _, _, h | .undefined, _, _, h => h

theorem flattenExprs_numbered {a : String} :
    ∀ {es : List Expr} {lo hi : Nat}, ExprsNumbered a es lo hi →
      ExprsNumbered a (flattenExprs es) lo hi
  | [], _, _, h => h
  | _ :: _, _, _, ⟨_, he, hes⟩ => ⟨_, flatten_numbered he, flattenExprs_numbered hes⟩

theorem flattenFields_numbered {a : String} :
    ∀ {fs : List (String × Expr)} {lo hi : Nat}, FieldsNumbered a fs lo hi →
      FieldsNumbered a (flattenFields fs) lo hi
  | [], _, _, h => h
  | (_, _) :: _, _, _, ⟨_, he, hfs⟩ => ⟨_, flatten_numbered he, flattenFields_numbered hfs⟩

theorem stmt_flatten_numbered {a : String} :
    ∀ {s : Stmt} {lo hi : Nat}, s.Numbered a lo hi → s.flatten.Numbered a lo hi
  | .empty, _, _, h => h
  | .expr e, _, _, h | .ret e, _, _, h => flatten_numbered (e := e) h
  | .declare ds, _, _, h => by
    refine ⟨?_, flattenFields_numbered h.2⟩
    have hkeys : ∀ x ∈ (flattenFields ds).map Prod.fst, IsOrdinary x := by
      rw [flattenFields_keys]
      exact List.forall_mem_map.2 h.1
    exact fun d hd => hkeys d.1 (List.mem_map_of_mem hd)
  | .ifElse _ _ _, _, _, ⟨_, ht, hc, he⟩ =>
    ⟨_, flatten_numbered ht, flattenStmts_numbered hc, flattenStmts_numbered he⟩
  | .block _, _, _, h => flattenStmts_numbered h

theorem flattenStmts_numbered {a : String} :
    ∀ {ss : List Stmt} {lo hi : Nat}, StmtsNumbered a ss lo hi →
      StmtsNumbered a (flattenStmts ss) lo hi
  | [], _, _, h => h
  | _ :: _, _, _, ⟨_, hs, hss⟩ => ⟨_, stmt_flatten_numbered hs, flattenStmts_numbered hss⟩

end

end Compile

end Chance
