import Chance.Proofs.Printing.Taking

/-!
# Levels of expressions

The rules for expressions form levels, from the conditionals and assignments, which nothing binds,
to the postfix forms, which bind tightest. What is read on one level can stand on all looser ones,
and on a level of infix operators it can stand to the left of more operators of the same level.

- `Operand`: tokens that are read together with what is applied to them,
- `Binds`, `Chains`: tokens that are read on a level of infix operators, alone or before more
  operators of the level,
- `Graded`: tokens that can stand wherever a form of the given tightness can,
- `Expr.Nested`: trees whose operands bind tightly enough to be written without parentheses.
-/

namespace Chance

/-! ## Tightness of trees -/

/-- The place of an operator among the levels. -/
def BinaryOp.level : BinaryOp → Nat
  | .eq | .ne | .strictEq | .strictNe => 2
  | .lt | .le | .gt | .ge => 3
  | .add | .sub => 4
  | .mul | .div | .mod => 5

def LogicOp.level : LogicOp → Nat
  | .or => 0
  | .and => 1

/-- How tightly the form of an expression binds: conditionals and assignments not at all, then the
levels of infix operators, prefix operators, and postfix and primary forms. -/
def Expr.tightness : Expr → Nat
  | .cond .. | .assign .. => 0
  | .logic _ _ op => op.level + 1
  | .binary _ _ op => op.level + 1
  | .unary .. => 7
  | _ => 8

mutual

/-- Each operand in the expression binds tightly enough for its place: a left operand as tightly as
its operator and a right one more tightly, an operand of a prefix operator as tightly as that, a
test as tightly as some infix operator, and what something is applied to is a postfix or primary
form. -/
def Expr.Nested : Expr → Prop
  | .array es => ExprsNested es
  | .object fs => FieldsNested fs
  | .unary _ e => 7 ≤ e.tightness ∧ e.Nested
  | .binary l r op =>
    (op.level + 1 ≤ l.tightness ∧ op.level + 1 < r.tightness) ∧ l.Nested ∧ r.Nested
  | .logic l r op =>
    (op.level + 1 ≤ l.tightness ∧ op.level + 1 < r.tightness) ∧ l.Nested ∧ r.Nested
  | .cond t c a => 1 ≤ t.tightness ∧ t.Nested ∧ c.Nested ∧ a.Nested
  | .member o p => o.tightness = 8 ∧ o.Nested ∧ p.Nested
  | .call f es => f.tightness = 8 ∧ f.Nested ∧ ExprsNested es
  | .func _ _ body => StmtsNested body
  | .assign t v => t.Nested ∧ v.Nested
  | .num _ | .str _ | .bool _ | .null | .undefined | .var _ => True
termination_by structural e => e

def ExprsNested : List Expr → Prop
  | [] => True
  | e :: es => e.Nested ∧ ExprsNested es
termination_by structural es => es

def FieldsNested : List (String × Expr) → Prop
  | [] => True
  | (_, e) :: fs => e.Nested ∧ FieldsNested fs
termination_by structural fs => fs

def Stmt.Nested : Stmt → Prop
  | .empty => True
  | .expr e | .ret e => e.Nested
  | .declare ds => FieldsNested ds
  | .ifElse t c a => t.Nested ∧ StmtsNested c ∧ StmtsNested a
  | .block body => StmtsNested body
termination_by structural s => s

def StmtsNested : List Stmt → Prop
  | [] => True
  | s :: ss => s.Nested ∧ StmtsNested ss
termination_by structural ss => ss

end

namespace Grammar

open Chance.Parser Rules
open Printer (operandTokens isSimple)

variable {e v w : Expr} {t : Token} {ts us rest rest' : List Token} {d k k' : Nat} {r : Rules}
  {m : Mark} {hk : k < levels.length}

/-! ## Operands -/

/-- The forms that stand applied at the front of the tokens, up to `rest`. -/
def Applied (r : Rules) (ts : List Token) (forms : List (Expr → Expr)) (rest : List Token) : Prop :=
  ∀ n, forms.length ≤ n → Takes (many r.suffixForm n) ts forms rest

theorem Detached.applied (h : Detached rest) : Applied r rest [] rest :=
  fun n _ => h.refuses_suffixForm.many n

theorem Applied.cons {form : Expr → Expr} {forms : List (Expr → Expr)}
    (hform : Takes r.suffixForm ts form us) (h : Applied r us forms rest) :
    Applied r ts (form :: forms) rest := by
  intro n hn
  obtain ⟨n, rfl⟩ := Nat.exists_eq_add_of_le' (Nat.one_le_of_lt hn)
  exact hform.many (h n (Nat.le_of_succ_le_succ hn))

/-- Tokens that are read as `v` without a prefix operator, with all that is applied to them. -/
structure Operand (ts : List Token) (v : Expr) : Prop where
  opens : ∃ t us, ts = t :: us ∧ ∀ op : UnaryOp, t ≠ .mark op.mark
  takes : ∀ {d : Nat} {rest rest' : List Token} {forms : List (Expr → Expr)},
    4 * ts.length ≤ d + 2 → forms.length + ts.length ≤ d + 1 →
    Applied (rules d) rest forms rest' →
    Takes (rules d).suffixed (ts ++ rest) (forms.foldl (fun e f => f e) v) rest'

theorem operand_of_primary (ht : ∀ op : UnaryOp, t ≠ .mark op.mark)
    (h : ∀ {d : Nat} {rest : List Token}, 4 * (us.length + 1) ≤ d + 2 →
      Takes (rules d).primary (t :: (us ++ rest)) v rest) : Operand (t :: us) v := by
  refine ⟨⟨t, us, rfl, ht⟩, fun {d rest rest' forms} hd hcount hforms => ?_⟩
  have hall := hforms (rules d).bound (by rw [rules_bound]; simp at hcount; omega)
  exact Takes.seq (h hd) (Takes.seq hall takes_pure)

theorem Operand.apply (h : Operand ts v) (form : Expr → Expr) (hne : 0 < us.length)
    (hform : ∀ {d : Nat} {rest : List Token}, 4 * us.length ≤ d →
      Takes (rules d).suffixForm (us ++ rest) form rest) : Operand (ts ++ us) (form v) := by
  obtain ⟨t, us', rfl, ht⟩ := h.opens
  refine ⟨⟨t, us' ++ us, rfl, ht⟩, fun {d rest rest' forms} hd hcount hforms => ?_⟩
  simp only [List.length_append, List.length_cons] at hd hcount
  have happlied : Applied (rules d) (us ++ rest) (form :: forms) rest' :=
    .cons (hform (by omega)) hforms
  rw [List.append_assoc]
  exact h.takes (by simp only [List.length_cons]; omega) (by simp only [List.length_cons]; omega)
    happlied

theorem Operand.unary (h : Operand ts v) (hd : 4 * ts.length ≤ d + 1) (hrest : Detached rest) :
    Takes (rules d).unary (ts ++ rest) v rest := by
  obtain ⟨t, us, rfl, ht⟩ := h.opens
  cases d with
  | zero => simp at hd; omega
  | succ d =>
    have hhead (op : UnaryOp) : (t :: us ++ rest).head? ≠ some (.mark op.mark) :=
      fun heq => ht op (Option.some.inj heq)
    refine Refuses.choice_takes (Refuses.seq (refuses_mark (hhead .negate))) ?_
    refine Refuses.choice_takes (Refuses.seq (refuses_mark (hhead .plus))) ?_
    refine Refuses.choice_takes (Refuses.seq (refuses_mark (hhead .not))) ?_
    simp only [List.length_cons] at hd
    exact h.takes (by simp only [List.length_cons]; omega) (by simp; omega) hrest.applied

theorem operand_parens (h : Readable (fun d => (rules d).expr) ts v) :
    Operand (.mark .lparen :: (ts ++ [.mark .rparen])) v := by
  refine operand_of_primary (fun op => by cases op <;> nofun) fun {d rest} hd => ?_
  simp only [List.length_append, List.length_singleton] at hd
  have hinner : Takes (rules d).expr (ts ++ .mark .rparen :: rest) v (.mark .rparen :: rest) :=
    h.takes (by omega) (ends_cons rfl _)
  iterate 8 refine Refuses.choice_takes (fun _ => rfl) ?_
  refine Takes.choice (Takes.seq (takes_mark .lparen) ?_)
  rw [List.append_assoc]
  exact Takes.seq hinner (Takes.seq (takes_mark .rparen) takes_pure)

/-! ## Levels of infix operators -/

/-- The rule for infix forms from level `k` on; beyond all levels stand the prefix operators. -/
def Rules.tier (r : Rules) (k : Nat) : Parser Expr :=
  (levels.drop k).foldr (fun ops operand => chain ops operand r.bound) r.unary

theorem tier_eq_chain (r : Rules) (hk : k < levels.length) :
    r.tier k = chain levels[k] (r.tier (k + 1)) r.bound := by
  rw [Rules.tier, List.drop_eq_getElem_cons hk]
  rfl

/-- Nothing follows that goes on with what is read from level `k` on. -/
structure Stops (k : Nat) (ts : List Token) : Prop where
  detached : Detached ts
  operators : ∀ ops ∈ levels.drop k, ∀ op ∈ ops, ts.head? ≠ some (.mark op.1)

theorem Stops.mono (h : Stops k ts) (hk : k ≤ k') : Stops k' ts :=
  ⟨h.detached, fun ops hops => h.operators ops (List.drop_subset_drop_left levels hk hops)⟩

theorem Ends.stops (h : Ends ts) : Stops k ts :=
  ⟨h.detached, fun ops hops op hop =>
    h.head_ne (closes_operator ops (List.mem_of_mem_drop hops) op hop)⟩

theorem stops_mark (hm : m ∉ [Mark.lparen, .dot, .lbracket])
    (hops : ∀ ops ∈ levels.drop k, ∀ op ∈ ops, m ≠ op.1) (ts : List Token) :
    Stops k (.mark m :: ts) := by
  refine ⟨fun m' hm' heq => ?_, fun ops hmem op hop heq => ?_⟩
  · injection heq with heq
    injection heq with heq
    exact hm (heq ▸ hm')
  · injection heq with heq
    injection heq with heq
    exact hops ops hmem op hop heq

/-- Tokens that are read as `v` from level `k` on. -/
structure Binds (k : Nat) (ts : List Token) (v : Expr) : Prop where
  takes : ∀ {d : Nat} {rest : List Token}, 4 * ts.length ≤ d + 1 → Stops k rest →
    Takes ((rules d).tier k) (ts ++ rest) v rest

/-- The tokens go on with these operators of level `k` and their right operands, up to `rest`. -/
structure Continued (hk : k < levels.length) (d : Nat) (ts : List Token)
    (more : List ((Expr → Expr → Expr) × Expr)) (rest : List Token) : Prop where
  stops : Stops (k + 1) ts
  takes : ∀ n, more.length ≤ n → Takes (many (do
    let f ← operator levels[k]
    let e ← (rules d).tier (k + 1)
    return (f, e)) n) ts more rest

/-- Tokens that are read as `v` on level `k`, to the left of all operators of the level that
follow. -/
structure Chains (hk : k < levels.length) (ts : List Token) (v : Expr) : Prop where
  takes : ∀ {d : Nat} {rest rest' : List Token} {more : List ((Expr → Expr → Expr) × Expr)},
    4 * ts.length ≤ d + 1 → more.length + ts.length ≤ d → Continued hk d rest more rest' →
    Takes ((rules d).tier k) (ts ++ rest) (more.foldl (fun acc (f, e) => f acc e) v) rest'

theorem Binds.chains (h : Binds (k + 1) ts v) : Chains hk ts v := by
  constructor
  intro d rest rest' more hd hcount hmore
  rw [tier_eq_chain _ hk]
  refine Takes.seq (h.takes hd hmore.stops) (Takes.seq (hmore.takes _ ?_) takes_pure)
  rw [rules_bound]
  omega

theorem Stops.continued (hk : k < levels.length) (h : Stops k rest) (d : Nat) :
    Continued hk d rest [] rest := by
  refine ⟨h.mono (Nat.le_succ k), fun n _ => (Refuses.seq (refuses_operator ?_)).many n⟩
  refine h.operators levels[k] ?_
  rw [List.drop_eq_getElem_cons hk]
  exact List.mem_cons_self

theorem Chains.binds (h : Chains hk ts v) : Binds k ts v :=
  ⟨fun hd hrest => h.takes hd (by simp only [List.length_nil]; omega) (hrest.continued hk _)⟩

theorem Binds.looser (h : Binds k' ts v) (hk : k ≤ k') (hk' : k' ≤ levels.length) :
    Binds k ts v := by
  induction k' with
  | zero => rwa [Nat.le_zero.1 hk]
  | succ j ih =>
    rcases Nat.lt_or_ge j k with hlt | hge
    · rwa [Nat.le_antisymm hk hlt]
    · have hchains : Chains hk' ts v := h.chains
      exact ih hchains.binds hge (Nat.le_of_succ_le hk')

theorem Chains.joined {f : Expr → Expr → Expr} (hv : Chains hk ts v) (hw : Binds (k + 1) us w)
    (hop : ∀ rest, Takes (operator levels[k]) (.mark m :: rest) f rest)
    (hm : ∀ rest, Stops (k + 1) (.mark m :: rest)) : Chains hk (ts ++ .mark m :: us) (f v w) := by
  constructor
  intro d rest rest' more hd hcount hmore
  simp only [List.length_append, List.length_cons] at hd hcount
  have hcontinued : Continued hk d (.mark m :: (us ++ rest)) ((f, w) :: more) rest' := by
    refine ⟨hm _, fun n hn => ?_⟩
    obtain ⟨n, rfl⟩ := Nat.exists_eq_add_of_le' (Nat.one_le_of_lt hn)
    have hpair : Takes (do
        let f ← operator levels[k]
        let e ← (rules d).tier (k + 1)
        return (f, e)) (.mark m :: (us ++ rest)) (f, w) rest :=
      Takes.seq (hop _) (Takes.seq (hw.takes (by omega) hmore.stops) takes_pure)
    exact hpair.many (hmore.takes n (Nat.le_of_succ_le_succ hn))
  rw [List.append_assoc]
  exact hv.takes (by omega) (by simp only [List.length_cons]; omega) hcontinued

theorem Binds.readable (h : Binds 0 ts v) (hne : 0 < ts.length) :
    Readable (fun d => (rules d).expr) ts v := by
  constructor
  intro d rest hd hrest
  cases d with
  | zero => omega
  | succ d => exact Takes.exprRule_binary (h.takes hd hrest.stops) hrest

/-! ## Places for forms of a given tightness -/

/-- Tokens that are read as `v` wherever a form of tightness `n` can stand. -/
structure Graded (n : Nat) (ts : List Token) (v : Expr) : Prop where
  readable : Readable (fun d => (rules d).expr) ts v
  binds : ∀ {k}, k < n → k ≤ levels.length → Binds k ts v
  chains : ∀ {k} (hk : k < levels.length), k < n → Chains hk ts v
  operand : 8 ≤ n → Operand ts v

theorem Readable.graded (h : Readable (fun d => (rules d).expr) ts v) : Graded 0 ts v where
  readable := h
  binds hk := absurd hk (Nat.not_lt_zero _)
  chains _ hk := absurd hk (Nat.not_lt_zero _)
  operand hn := absurd hn (by decide)

theorem Chains.graded (h : Chains hk ts v) (hne : 0 < ts.length) : Graded (k + 1) ts v where
  readable := (h.binds.looser (Nat.zero_le k) hk.le).readable hne
  binds hj _ := h.binds.looser (Nat.le_of_lt_succ hj) hk.le
  chains hj hjk := by
    rcases Nat.lt_or_eq_of_le (Nat.le_of_lt_succ hjk) with hlt | rfl
    · exact (h.binds.looser hlt hk.le).chains
    · exact h
  operand hn := by
    have hlevels : levels.length = 6 := rfl
    omega

theorem Binds.graded (h : Binds levels.length ts v) (hne : 0 < ts.length) : Graded 7 ts v where
  readable := (h.looser (Nat.zero_le _) (Nat.le_refl _)).readable hne
  binds _ hk := h.looser hk (Nat.le_refl _)
  chains hk _ := (h.looser hk (Nat.le_refl _)).chains
  operand hn := absurd hn (by decide)

theorem Operand.binds (h : Operand ts v) (hk : k ≤ levels.length) : Binds k ts v := by
  have hunary : Binds levels.length ts v := ⟨fun hd hrest => h.unary hd hrest.detached⟩
  exact hunary.looser hk (Nat.le_refl _)

theorem Operand.graded (h : Operand ts v) (n : Nat) : Graded n ts v where
  readable := by
    obtain ⟨t, us, rfl, -⟩ := h.opens
    exact (h.binds (Nat.zero_le _)).readable (Nat.zero_lt_succ _)
  binds _ := h.binds
  chains hk _ := (h.binds hk).chains
  operand _ := h

/-- An operand stands in its place with parentheses, or without them if it binds tightly enough. -/
theorem Graded.operandTokens {bare : Bool} {n : Nat} (h : Graded e.tightness ts v)
    (hn : bare = true → n ≤ e.tightness) : Graded n (operandTokens bare e ts) v := by
  unfold Printer.operandTokens
  split_ifs with hs
  · rcases Bool.or_eq_true_iff.1 hs with hbare | hsimple
    · have hle := hn hbare
      exact
        { readable := h.readable
          binds := fun hk => h.binds (Nat.lt_of_lt_of_le hk hle)
          chains := fun hk hkn => h.chains hk (Nat.lt_of_lt_of_le hkn hle)
          operand := fun h8 => h.operand (Nat.le_trans h8 hle) }
    · have htight : e.tightness = 8 := by cases e <;> first | rfl | cases hsimple
      exact (h.operand htight.ge).graded n
  · exact (operand_parens h.readable).graded n

end Grammar

end Chance
