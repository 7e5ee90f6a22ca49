import Chance.Proofs.Akin.Following

/-!
# Code that can be exchanged

Two expressions of linear code are twins if the code of one can stand in for the code of the other
wherever their scopes agree, apart from the names of a set. The same is said of statement lists, the
second of which may end with statements that follow the first. Twins are built from twins: there is
one rule for each form, and one for each way in which lists can differ.

- `Expr.Twin`, `BindingsTwin`, `StmtsTwin`: code that can be exchanged,
- `StmtsTwin.splice`, `StmtsTwin.inlined`: blocks and choices whose arms go on with what follows,
- `StmtsTwin.dead`: choices that are never taken.
-/

namespace Chance

open Compile

/-! ## Expressions -/

/-- The forms of two expressions do not differ where it matters to the code around them. -/
structure SameShape (e e' : Expr) : Prop where
  isAtomic : e'.isAtomic = e.isAtomic
  isNamed : e'.isNamed = e.isNamed
  isVar : e'.isVar = e.isVar
  isStr : e'.isStr = e.isStr
  isStore : e'.isStore = e.isStore
  isPlace : e'.isPlace = e.isPlace
  isPrimitive : e'.isPrimitive = e.isPrimitive
  turnsPrimitive : e'.turnsPrimitive = e.turnsPrimitive

/-- Code for the second expression does the same as code for the first. -/
structure Expr.Twin (X : Set String) (e e' : Expr) : Prop where
  shape : SameShape e e'
  steady : e'.isSteady = e.isSteady
  converts : e.isSteady = true → ∀ P : Place, P.Scope X → P.Converts e e'

structure ExprsTwin (X : Set String) (es es' : List Expr) : Prop where
  atomic : allAtomic es' = allAtomic es
  steady : allSteady es' = allSteady es
  converts : allSteady es = true → ∀ P : Place, P.Scope X → P.ConvertsAll es es'

/-- Fields under the same keys. -/
structure FieldsTwin (X : Set String) (fs fs' : List (String × Expr)) : Prop where
  keys : fs'.map Prod.fst = fs.map Prod.fst
  values : ExprsTwin X (fs.map Prod.snd) (fs'.map Prod.snd)

/-- Declarations of the same names, which are among those that may be declared. -/
structure BindingsTwin (D X : Set String) (ds ds' : List (String × Expr)) : Prop where
  steady : fieldsSteady ds' = fieldsSteady ds
  code : fieldsSteady ds = true → ∀ (P : Place) (g g' : Gen Expr), P.Scope X → g.Counts →
    g'.Counts → (∀ Q, P.Later D Q → Q.Scope (X \ {x | x ∈ ds.map Prod.fst}) → Q.Code g g') →
    P.Code (bindAll ds g) (bindAll ds' g')

/-- Code for the list `R` does the same as code for the list `ss`, followed by what the statements
of `onto` do. The lists may declare names of `D`; scopes may differ on the names of `X` before them,
and on those of `A` after them. If `b` holds, the continuation of the second list is a name. -/
structure StmtsTwin (b : Prop) (D X A : Set String) (ss onto R : List Stmt) : Prop where
  steady : stmtsSteady R = (stmtsSteady ss && stmtsSteady onto)
  code : stmtsSteady ss = true → stmtsSteady onto = true → ∀ (P : Place) (k k' : Expr),
    P.Scope X → P.After D A k onto k' → (b → k'.isVar = true) →
    P.Code (sequence ss k) (sequence R k')

namespace SameShape

variable {e e' f f' g g' : Expr}

theorem refl (e : Expr) : SameShape e e := ⟨rfl, rfl, rfl, rfl, rfl, rfl, rfl, rfl⟩

theorem bare (he : e.isBare = true) (he' : e'.isBare = true) (hatomic : e'.isAtomic = e.isAtomic)
    (hnamed : e'.isNamed = e.isNamed) : SameShape e e' := by
  have hform {x : Expr} (hx : x.isBare = true) : x.isVar = false ∧ x.isStr = false ∧
      x.isStore = false ∧ x.isPlace = false ∧ x.isPrimitive = false ∧ x.turnsPrimitive = false := by
    cases x with
    | var | str | member => cases hx
    | _ => exact ⟨rfl, rfl, rfl, rfl, rfl, rfl⟩
  obtain ⟨hvar, hstr, hstore, hplace, hprimitive, hturns⟩ := hform he
  obtain ⟨hvar', hstr', hstore', hplace', hprimitive', hturns'⟩ := hform he'
  exact ⟨hatomic, hnamed, hvar'.trans hvar.symm, hstr'.trans hstr.symm, hstore'.trans hstore.symm,
    hplace'.trans hplace.symm, hprimitive'.trans hprimitive.symm, hturns'.trans hturns.symm⟩

theorem member (h : SameShape e e') (h' : SameShape f f') :
    SameShape (.member e f) (.member e' f') where
  isAtomic := by rw [Expr.isAtomic, Expr.isAtomic, h.isAtomic, h'.isAtomic]
  isNamed := rfl
  isVar := rfl
  isStr := rfl
  isStore := rfl
  isPlace := h.isStore
  isPrimitive := by rw [Expr.isPrimitive_member, Expr.isPrimitive_member, h.isVar, h'.isStr]
  turnsPrimitive := by rw [Expr.turnsPrimitive, Expr.turnsPrimitive, h.isNamed, h'.isStr]

end SameShape

section Expressions

variable {X : Set String} {e e' f f' g g' : Expr} {es es' : List Expr}
  {fs fs' : List (String × Expr)}

theorem ExprsTwin.nil : ExprsTwin X [] [] := ⟨rfl, rfl, fun _ _ _ => .nil⟩

theorem ExprsTwin.cons (h : e.Twin X e') (hs : ExprsTwin X es es') :
    ExprsTwin X (e :: es) (e' :: es') := by
  refine ⟨?_, ?_, fun hsteady P hP => ?_⟩
  · simp only [allAtomic, h.shape.isAtomic, hs.atomic]
  · simp only [allSteady, h.steady, hs.steady]
  · obtain ⟨he, hes⟩ := Bool.and_eq_true_iff.1 hsteady
    exact .cons (h.converts he P hP) (hs.converts hes P hP)

namespace Expr.Twin

theorem literal {v : Value} (hatomic : e.isAtomic = true) (hbare : usage e = .leaf e)
    (heval : ∀ env, eval env e = pure v) (hv : ∀ T π, v.Akin T π v) : e.Twin X e :=
  ⟨.refl e, rfl, fun _ _ _ => .leaf hatomic hatomic hbare hbare
    (.const heval heval fun _ _ => hv _ _)⟩

theorem var {x : String} (hfresh : ¬ IsFresh 0 x) (hx : x ∉ X) :
    (Expr.var x).Twin X (.var x) :=
  ⟨.refl _, rfl, fun _ _ hP => .leaf rfl rfl rfl rfl (hP.var hfresh hx)⟩

theorem formed {wrap : List Expr → Expr} {make : List Value → Exec Value}
    (h : Formed e es wrap make)
    (h' : Formed e' es' wrap make) (hshape : SameShape e e') (hs : ExprsTwin X es es') :
    e.Twin X e' where
  shape := hshape
  steady := by rw [h.isSteady_eq, h'.isSteady_eq, hs.steady]
  converts hsteady P hP :=
    .formed h h' hshape.isNamed (hs.converts (h.isSteady_eq.symm.trans hsteady) P hP)

theorem array (h : ExprsTwin X es es') : (Expr.array es).Twin X (.array es') :=
  .formed (.array es) (.array es') (.bare rfl rfl h.atomic rfl) h

theorem object (h : FieldsTwin X fs fs') : (Expr.object fs).Twin X (.object fs') := by
  refine .formed (.object fs) (h.keys ▸ .object fs') (.bare rfl rfl ?_ rfl) h.values
  simp only [Expr.isAtomic, allFieldsAtomic_eq, h.values.atomic]

theorem unary (op : UnaryOp) (h : e.Twin X e') : (Expr.unary op e).Twin X (.unary op e') :=
  .formed (.unary op e) (.unary op e') (.bare rfl rfl h.shape.isAtomic rfl) (.cons h .nil)

theorem binary (op : BinaryOp) (h : e.Twin X e') (h' : f.Twin X f') :
    (Expr.binary e f op).Twin X (.binary e' f' op) := by
  have hatomic : (Expr.binary e' f' op).isAtomic = (Expr.binary e f op).isAtomic := by
    simp only [Expr.isAtomic, h.shape.isAtomic, h'.shape.isAtomic]
  exact .formed (.binary op e f) (.binary op e' f') (.bare rfl rfl hatomic (congrArg not hatomic))
    (.cons h (.cons h' .nil))

theorem logic (op : LogicOp) (h : e.Twin X e') (h' : f.Twin X f') :
    (Expr.logic e f op).Twin X (.logic e' f' op) := by
  have hatomic : (Expr.logic e' f' op).isAtomic = (Expr.logic e f op).isAtomic := by
    simp only [Expr.isAtomic, h.shape.isAtomic, h'.shape.isAtomic]
  refine ⟨.bare rfl rfl hatomic ?_, ?_, fun hsteady P hP => ?_⟩
  · simp only [Expr.isNamed, hatomic]
  · simp only [Expr.isSteady, h.steady, h'.steady]
  · obtain ⟨he, hf⟩ := Bool.and_eq_true_iff.1 hsteady
    exact .logic (congrArg not hatomic) (h.converts he P hP) (h'.converts hf P hP)

theorem cond (h : e.Twin X e') (h' : f.Twin X f') (h'' : g.Twin X g') :
    (Expr.cond e f g).Twin X (.cond e' f' g') := by
  have hatomic : (Expr.cond e' f' g').isAtomic = (Expr.cond e f g).isAtomic := by
    simp only [Expr.isAtomic, h.shape.isAtomic, h'.shape.isAtomic, h''.shape.isAtomic]
  refine ⟨.bare rfl rfl hatomic ?_, ?_, fun hsteady P hP => ?_⟩
  · simp only [Expr.isNamed, hatomic]
  · simp only [Expr.isSteady, h.steady, h'.steady, h''.steady]
  · obtain ⟨hef, hg⟩ := Bool.and_eq_true_iff.1 hsteady
    obtain ⟨he, hf⟩ := Bool.and_eq_true_iff.1 hef
    exact .cond (congrArg not hatomic) (h.converts he P hP) (h'.converts hf P hP)
      (h''.converts hg P hP)

theorem member (h : e.Twin X e') (h' : f.Twin X f') :
    (Expr.member e f).Twin X (.member e' f') :=
  .formed (.member e f) (.member e' f') (h.shape.member h'.shape) (.cons h (.cons h' .nil))

theorem call_shape (h : SameShape e e') (hs : ExprsTwin X es es') :
    SameShape (.call e es) (.call e' es') := by
  have hatomic : (Expr.call e' es').isAtomic = (Expr.call e es).isAtomic := by
    simp only [Expr.isAtomic, h.isAtomic, h.isPrimitive, hs.atomic]
  refine .bare rfl rfl hatomic ?_
  simp only [Expr.isNamed, hatomic]

/-- Calls that take their continuation along. -/
theorem call (hprimitive : e.isPrimitive = false) (h : e.Twin X e') (hs : ExprsTwin X es es') :
    (Expr.call e es).Twin X (.call e' es') := by
  refine ⟨call_shape h.shape hs, ?_, fun hsteady P hP => ?_⟩
  · simp only [Expr.isSteady, h.shape.turnsPrimitive, h.steady, hs.steady]
  · obtain ⟨hcallee, hes⟩ := Bool.and_eq_true_iff.1 hsteady
    obtain ⟨hturns, he⟩ := Bool.and_eq_true_iff.1 hcallee
    have hturns : e.turnsPrimitive = false := by simpa using hturns
    exact .call hprimitive (h.shape.isPrimitive.trans hprimitive) hturns
      (h.shape.turnsPrimitive.trans hturns) (h.converts he P hP) (hs.converts hes P hP)

theorem method (hprimitive : (Expr.member e f).isPrimitive = true) (h : e.Twin X e')
    (h' : f.Twin X f') (hs : ExprsTwin X es es') :
    (Expr.call (.member e f) es).Twin X (.call (.member e' f') es') := by
  have hcallee := h.shape.member h'.shape
  exact .formed (.method hprimitive es) (.method (hcallee.isPrimitive.trans hprimitive) es')
    (call_shape hcallee hs) (.cons h (.cons h' hs))

theorem assign_shape (h : SameShape e e') (h' : SameShape f f') :
    SameShape (.assign e f) (.assign e' f') := by
  have hatomic : (Expr.assign e' f').isAtomic = (Expr.assign e f).isAtomic := by
    simp only [Expr.isAtomic, h.isAtomic, h'.isAtomic]
  refine .bare rfl rfl hatomic ?_
  simp only [Expr.isNamed, hatomic]

theorem assign (h : e.Twin X e') (h' : f.Twin X f') :
    (Expr.assign (.member (.var Expr.storeName) e) f).Twin X
      (.assign (.member (.var Expr.storeName) e') f') := by
  have hshape := assign_shape ((SameShape.refl (.var Expr.storeName)).member h.shape) h'.shape
  refine ⟨hshape, ?_, fun hsteady P hP => ?_⟩
  · simp only [Expr.isSteady, h.steady, h'.steady]
  · obtain ⟨he, hf⟩ := Bool.and_eq_true_iff.1 hsteady
    exact .assign hshape.isNamed (h.converts he P hP) (h'.converts hf P hP)

theorem assign_other (hplace : e.isPlace = false) (h : e.Twin X e') (h' : f.Twin X f') :
    (Expr.assign e f).Twin X (.assign e' f') := by
  have hshape := assign_shape h.shape h'.shape
  refine ⟨hshape, ?_, fun hsteady P hP => ?_⟩
  · simp only [Expr.isSteady, h.steady, h'.steady]
  · obtain ⟨he, hf⟩ := Bool.and_eq_true_iff.1 hsteady
    exact .assign_other hplace (h.shape.isPlace.trans hplace) hshape.isNamed
      (h.converts he P hP) (h'.converts hf P hP)

theorem func {name : Option String} {params : List String} {b : Prop} {body body' : List Stmt}
    (hparams : ∀ x ∈ params, ¬ IsFresh 0 x)
    (h : StmtsTwin b Set.univ (X \ boundBy name params) Set.univ body [] body') :
    (Expr.func name params body).Twin X (.func name params body') := by
  refine ⟨.bare rfl rfl rfl rfl, ?_, fun hsteady P hP => ?_⟩
  · simp only [Expr.isSteady, h.steady, stmtsSteady, Bool.and_true]
  refine .func ?_
  intro Q hPQ c c' self self' k k' vs ws hself hk hs
  have hscope := hP.later hPQ (Set.empty_subset X)
  have hκ (i : Nat) : IsFresh 0 (generated "k" i) := isFresh_generated (by decide) (Nat.zero_le i)
  exact h.code hsteady rfl _ _ _ (hscope.enter (c + 1) (c' + 1) hself hs (hκ c) (hκ c'))
    (Place.named_enter (Nat.lt_succ_self c) (Nat.lt_succ_self c') hparams hk).after fun _ => rfl

end Expr.Twin

theorem FieldsTwin.nil : FieldsTwin X [] [] := ⟨rfl, .nil⟩

theorem FieldsTwin.cons (key : String) (h : e.Twin X e') (hs : FieldsTwin X fs fs') :
    FieldsTwin X ((key, e) :: fs) ((key, e') :: fs') :=
  ⟨congrArg (key :: ·) hs.keys, .cons h hs.values⟩

end Expressions

/-! ## Declarations -/

section Bindings

variable {D X : Set String} {e e' : Expr} {ds ds' : List (String × Expr)} {x : String}

theorem BindingsTwin.nil : BindingsTwin D X [] [] where
  steady := rfl
  code _ P _ _ hP _ _ hnext := hnext P (.refl P) (hP.anti fun _ hx => ⟨hx, List.not_mem_nil⟩)

theorem isSteady_called (e : Expr) (x : String) : (e.called x).isSteady = e.isSteady := by
  cases e with
  | func name => cases name <;> rfl
  | _ => rfl

theorem BindingsTwin.cons (hfresh : ¬ IsFresh 0 x) (hx : x ∈ D)
    (h : (e.called x).Twin X (e'.called x)) (hs : BindingsTwin D (X \ {x}) ds ds') :
    BindingsTwin D X ((x, e) :: ds) ((x, e') :: ds') := by
  have hsteady := h.steady
  rw [isSteady_called, isSteady_called] at hsteady
  refine ⟨by simp only [fieldsSteady, hsteady, hs.steady], fun hsteady P g g' hP hg hg' hnext => ?_⟩
  obtain ⟨he, hds⟩ := Bool.and_eq_true_iff.1 hsteady
  rw [bindAll_cons, bindAll_cons]
  -- The code of what follows was made before the code of the declared value.
  have hc := bindAll_counts ds hg P.left
  have hc' := bindAll_counts ds' hg' P.right
  let Q : Place := { P with
    left := ((bindAll ds g).run P.left).2, right := ((bindAll ds' g').run P.right).2 }
  have hPQ : P.Later ∅ Q := .counts hc hc'
  refine (h.converts ((isSteady_called e x).trans he) P hP).pass Q hPQ _ _
    (Place.Kont.lambda fun R hQR _ v w hv => ?_)
  have hPR : P.Later ∅ R := hPQ.trans hQR subset_rfl
  let N := R.bind P.left P.right x x v w
  have hPN : P.Later D N := (hPR.mono (Set.empty_subset D)).bind le_rfl le_rfl
    (not_stays_declared hx hfresh) (not_stays_declared hx hfresh) v w
  have hN : N.Scope (X \ {x}) := (hP.later hPR (Set.empty_subset X)).bind _ _ x hv
  refine hs.code hds N g g' hN hg hg' fun M hNM hM => hnext M (hPN.trans hNM subset_rfl) ?_
  refine hM.anti fun y hy => ⟨hy.1.1, fun hmem => ?_⟩
  rcases List.mem_cons.1 hmem with rfl | hmem
  · exact hy.1.2 rfl
  · exact hy.2 hmem

end Bindings

/-! ## Statements -/

namespace StmtsTwin

variable {b : Prop} {D D' X A A₁ : Set String} {e e' t t' : Expr}
  {ss onto R R₁ body body' c c' a a' : List Stmt} {ds ds' : List (String × Expr)}

theorem nil (hX : X ⊆ A) : StmtsTwin b D X A [] onto onto where
  steady := rfl
  code _ _ _ _ _ hP hk _ := hk.resume (hP.anti hX)

theorem empty (h : StmtsTwin b D X A ss onto R) :
    StmtsTwin b D X A (.empty :: ss) onto (.empty :: R) where
  steady := h.steady
  code := h.code

theorem declare (hds : BindingsTwin D X ds ds')
    (h : StmtsTwin b D (X \ {x | x ∈ ds.map Prod.fst}) A ss onto R) :
    StmtsTwin b D X A (.declare ds :: ss) onto (.declare ds' :: R) where
  steady := by simp only [stmtsSteady, hds.steady, h.steady, Bool.and_assoc]
  code hsteady honto P k k' hP hk hvar := by
    obtain ⟨hds', hss⟩ := Bool.and_eq_true_iff.1 hsteady
    exact hds.code hds' P _ _ hP (sequence_counts ss k) (sequence_counts R k') fun Q hPQ hQ =>
      h.code hss honto Q k k' hQ (hk.since hPQ) hvar

end StmtsTwin

/-- Twins that can follow a statement: there is something to do in the second program if there is in
the first. -/
structure RestTwin (b : Prop) (D X A : Set String) (ss onto R : List Stmt) : Prop
    extends StmtsTwin b D X A ss onto R where
  nil : ss = [] → R = onto ∧ X ⊆ A
  ne : ss ≠ [] → R ≠ []

namespace StmtsTwin

variable {b : Prop} {D D' X A A₁ : Set String} {e e' t t' : Expr}
  {ss onto R R₁ body body' c c' a a' : List Stmt} {P : Place} {k k' : Expr}

/-- What follows a statement whose code is made next. -/
theorem preceded (h : RestTwin b D A₁ A ss onto R) (hss : stmtsSteady ss = true)
    (honto : stmtsSteady onto = true) (hk : P.After D A k onto k') (hvar : b → k'.isVar = true) :
    Place.After { P with left := ((following ss k).run P.left).2 } D A₁
      ((following ss k).run P.left).1 R k' :=
  hk.preceded h.nil h.ne fun Q hPQ hQ => h.code hss honto Q k k' hQ (hk.since hPQ) hvar

theorem handed (h : RestTwin b D A₁ A ss onto R) (hss : stmtsSteady ss = true)
    (honto : stmtsSteady onto = true) (hk : P.After D A k onto k') (hvar : b → k'.isVar = true) :
    Place.Kont { P with
      left := ((following ss k).run P.left).2, right := ((following R k').run P.right).2 } D A₁
      ((following ss k).run P.left).1 ((following R k').run P.right).1 :=
  (preceded h hss honto hk hvar).handed

theorem later_following (P : Place) (ss R : List Stmt) (k k' : Expr) :
    P.Later D { P with
      left := ((following ss k).run P.left).2, right := ((following R k').run P.right).2 } :=
  .counts (following_counts (sequence_counts ss k) P.left)
    (following_counts (sequence_counts R k') P.right)

theorem expr (he : e.Twin X e') (h : RestTwin b D X A ss onto R) :
    StmtsTwin b D X A (.expr e :: ss) onto (.expr e' :: R) where
  steady := by simp only [stmtsSteady, he.steady, h.steady, Bool.and_assoc]
  code hsteady honto P k k' hP hk hvar := by
    obtain ⟨he', hss⟩ := Bool.and_eq_true_iff.1 hsteady
    have hlater := later_following (D := ∅) P ss R k k'
    have hscope := hP.later hlater (Set.empty_subset X)
    have hkont := (handed h hss honto hk hvar).here (.refl _) hscope
    rw [sequence_expr, sequence_expr]
    exact .bind ((he.converts he' P hP).pass _ hlater _ _ hkont)

theorem block (hbody : StmtsTwin False D X A₁ body [] body')
    (h : RestTwin b D A₁ A ss onto R) :
    StmtsTwin b D X A (.block body :: ss) onto (.block body' :: R) where
  steady := by
    simp only [stmtsSteady, hbody.steady, h.steady, Bool.and_true, Bool.and_assoc]
  code hsteady honto P k k' hP hk hvar := by
    obtain ⟨hbody', hss⟩ := Bool.and_eq_true_iff.1 hsteady
    have hscope := hP.later (later_following (D := ∅) P ss R k k') (Set.empty_subset X)
    have hkont := handed h hss honto hk hvar
    rw [sequence_block, sequence_block]
    exact .bind (hbody.code hbody' rfl _ _ _ hscope ⟨fun _ => hkont, fun hne => absurd rfl hne⟩
      False.elim)

/-- Blocks that are spliced into their lists. -/
theorem splice (hbody : StmtsTwin b D X A₁ body R₁ R) (h : RestTwin b D A₁ A ss onto R₁) :
    StmtsTwin b D X A (.block body :: ss) onto R where
  steady := by simp only [stmtsSteady, hbody.steady, h.steady, Bool.and_assoc]
  code hsteady honto P k k' hP hk hvar := by
    obtain ⟨hbody', hss⟩ := Bool.and_eq_true_iff.1 hsteady
    have hR : stmtsSteady R₁ = true := by rw [h.steady, hss, honto, Bool.and_true]
    have hlater : P.Later ∅ { P with left := ((following ss k).run P.left).2 } :=
      .counts (following_counts (sequence_counts ss k) P.left) le_rfl
    rw [sequence_block]
    exact .bindLeft (hbody.code hbody' hR _ _ _ (hP.later hlater (Set.empty_subset X))
      (preceded h hss honto hk hvar) hvar)

theorem arms_code (ht : t.Twin X t') (hsteady : t.isSteady = true) (hP : P.Scope X)
    (hc : ∀ Q, P.Later ∅ Q → Q.Code (sequence c k) (sequence c' k'))
    (ha : ∀ Q, P.Later ∅ Q → Q.Code (sequence a k) (sequence a' k')) :
    P.Code (choosing t c a k) (choosing t' c' a' k') := by
  refine (ht.converts hsteady P hP).use P (.refl P) _ _
    (fun _ => .bind (sequence_counts c k) fun _ => .bind (sequence_counts a k) fun _ => .pure _)
    (fun _ => .bind (sequence_counts c' k') fun _ => .bind (sequence_counts a' k') fun _ => .pure _)
    fun Q x x' hPQ hx => ?_
  exact Place.cond_code hx.1 (sequence_counts c k) (sequence_counts c' k')
    (fun R hQR => hc R (hPQ.trans hQR subset_rfl)) fun R hQR => ha R (hPQ.trans hQR subset_rfl)

theorem choice (ht : t.Twin X t') (hc : StmtsTwin True Set.univ X Set.univ c [] c')
    (ha : StmtsTwin True Set.univ X Set.univ a [] a') (h : RestTwin b D X A ss onto R) :
    StmtsTwin b D X A (.ifElse t c a :: ss) onto (.ifElse t' c' a' :: R) where
  steady := by
    simp only [stmtsSteady, ht.steady, hc.steady, ha.steady, h.steady, Bool.and_true,
      Bool.and_assoc]
  code hsteady honto P k k' hP hk hvar := by
    obtain ⟨hchoice, hss⟩ := Bool.and_eq_true_iff.1 hsteady
    obtain ⟨harms, ha'⟩ := Bool.and_eq_true_iff.1 hchoice
    obtain ⟨ht', hc'⟩ := Bool.and_eq_true_iff.1 harms
    have hscope := hP.later (later_following (D := ∅) P ss R k k') (Set.empty_subset X)
    have hkont := (handed h hss honto hk hvar).here (.refl _) hscope
    rw [sequence_choice, sequence_choice]
    refine .bind (hkont.name fun Q x x' hPQ hnamed => ?_)
    have hQ := hscope.later hPQ (Set.empty_subset X)
    refine arms_code ht ht' hQ (fun N hQN => ?_) fun N hQN => ?_
    · exact hc.code hc' rfl N _ _ (hQ.later hQN (Set.empty_subset X)) (hnamed.later hQN).after
        fun _ => rfl
    · exact ha.code ha' rfl N _ _ (hQ.later hQN (Set.empty_subset X)) (hnamed.later hQN).after
        fun _ => rfl

/-- Choices that stay in the first program, while in the second what follows was moved into the
arms. What the arms declare is then in scope in what follows, which must not depend on it. -/
theorem inlined (ht : t.Twin X t') (hD : D' ⊆ D) (hA : D' ⊆ A₁) (hX : X ⊆ A₁)
    (hc : StmtsTwin True D' X A₁ c R₁ c') (ha : StmtsTwin True D' X A₁ a R₁ a')
    (h : RestTwin True D A₁ A ss onto R₁) :
    StmtsTwin True D X A (.ifElse t c a :: ss) onto [.ifElse t' c' a'] where
  steady := by
    simp only [stmtsSteady, ht.steady, hc.steady, ha.steady, h.steady]
    cases t.isSteady <;> cases stmtsSteady c <;> cases stmtsSteady a <;> cases stmtsSteady ss <;>
      cases stmtsSteady onto <;> rfl
  code hsteady honto P k k' hP hk hvar := by
    obtain ⟨hchoice, hss⟩ := Bool.and_eq_true_iff.1 hsteady
    obtain ⟨harms, ha'⟩ := Bool.and_eq_true_iff.1 hchoice
    obtain ⟨ht', hc'⟩ := Bool.and_eq_true_iff.1 harms
    have hR : stmtsSteady R₁ = true := by rw [h.steady, hss, honto, Bool.and_true]
    have hlater : P.Later ∅ { P with left := ((following ss k).run P.left).2 } :=
      .counts (following_counts (sequence_counts ss k) P.left) le_rfl
    have hscope := hP.later hlater (Set.empty_subset X)
    rw [sequence_choice, sequence_lastChoice t' c' a' (hvar trivial)]
    refine .bindLeft ((preceded h hss honto hk hvar).name (hscope.anti hX) hD hA (hvar trivial)
      fun Q x hPQ hafter => ?_)
    have hQ := hscope.later hPQ (Set.empty_subset X)
    refine arms_code ht ht' hQ (fun N hQN => ?_) fun N hQN => ?_
    · exact hc.code hc' hR N _ _ (hQ.later hQN (Set.empty_subset X))
        (hafter.since (hQN.mono (Set.empty_subset D'))) hvar
    · exact ha.code ha' hR N _ _ (hQ.later hQN (Set.empty_subset X))
        (hafter.since (hQN.mono (Set.empty_subset D'))) hvar

/-- A choice that is never taken, before all the rest. -/
theorem dead (hsteady : stmtsSteady c = true) (h : StmtsTwin True D X A ss onto R) :
    StmtsTwin True D X A ss onto [.ifElse (.bool false) c R] where
  steady := by
    simp only [stmtsSteady, Expr.isSteady, hsteady, h.steady, Bool.and_true, Bool.true_and]
  code hss honto P k k' hP hk hvar := by
    rw [sequence_lastChoice _ c R (hvar trivial)]
    have hlater {D : Set String} : P.Later D { P with right := ((sequence c k').run P.right).2 } :=
      .counts le_rfl (sequence_counts c k' P.right)
    have hno :=
      h.code hss honto _ k k' (hP.later hlater (Set.empty_subset X)) (hk.since hlater) hvar
    intro m m' hm
    have hfalse : eval P.env' (.bool false) m' = .ok (.bool false) m' := rfl
    exact (hno m m' hm).after_right (.of_eq (evalTail_cond hfalse _ _))

end StmtsTwin

end Chance
