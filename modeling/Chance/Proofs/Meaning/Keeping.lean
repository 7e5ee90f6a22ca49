import Chance.Proofs.Meaning.Pieces

/-!
# Atomic expressions beside direct evaluation

An atomic expression is kept as it is, with only the functions in it converted. Kept code is a piece
for the value that direct evaluation gives to the expression. If the expression mentions the store,
the piece needs a store that realizes the one of direct evaluation; otherwise any store will do, and
it is left as it is.

- `Settles`: what evaluating an atomic expression directly does to the state,
- `Mirrored`: pieces for what was evaluated directly between two states,
- `KeptCode`: code that is such a piece wherever direct evaluation succeeds,
- `keep_kept`: kept code is.
-/

namespace Chance

open Compile

/-- Identities may have been given out; the store is the same unless it is mentioned. -/
structure Settles (mentions : Bool) (m m' : Machine) : Prop where
  nextId : m.nextId ≤ m'.nextId
  store : mentions = false → m'.store = m.store

/-- The store while direct evaluation is in the state `m`, if it has to be known. -/
def viewOf (known : Bool) (s : Store) (m : Machine) : View :=
  bif known then .like m.store else .exactly s

/-- A piece for what was evaluated directly from the state `m` to the state `m'`. -/
def Mirrored {α : Type} (mentions : Bool) (env : Env) (π : Matching) (m m' : Machine)
    (x : Env → Exec α) (Q : Matching → α → Prop) : Prop :=
  ∀ c known s, (mentions = true → known = true) →
    Piece c env π x (viewOf known s m) (viewOf known s m') (Set.Ico m.nextId m'.nextId) Q

/-- Where direct evaluation succeeds, the code is a piece for what it gives. -/
structure KeptCode {α β : Type} (mentions : Bool) (env : Env) (π : Matching) (direct : Exec α)
    (x : Env → Exec β) (Q : Matching → α → β → Prop) : Prop where
  settles : ∀ {m m' a}, direct m = .ok a m' → Settles mentions m m'
  mirrored : ∀ {m m' a}, direct m = .ok a m' → Mirrored mentions env π m m' x fun τ => Q τ a

section Rules

variable {b b' : Bool} {m m' m'' : Machine}

theorem Settles.refl (b : Bool) (m : Machine) : Settles b m m :=
  ⟨le_rfl, fun _ => rfl⟩

theorem Settles.weaken (h : Settles b m m') (hb : b = true → b' = true) : Settles b' m m' where
  nextId := h.nextId
  store := fun hb' => h.store (Bool.eq_false_iff.2 fun hmentions => by simp [hb hmentions] at hb')

theorem Settles.trans (h : Settles b m m') (h' : Settles b' m' m'') : Settles (b || b') m m'' where
  nextId := h.nextId.trans h'.nextId
  store := by
    intro hb
    rcases Bool.or_eq_false_iff.1 hb with ⟨hb, hb'⟩
    rw [h'.store hb', h.store hb]

theorem Settles.spared (h : Settles b m m') (h' : m'.Spared m'') : Settles b m m'' where
  nextId := h.nextId.trans h'.nextId
  store := fun hb => h'.store.trans (h.store hb)

theorem disjoint_ico (i j k : Nat) : Disjoint (Set.Ico i j) (Set.Ico j k) :=
  Set.disjoint_left.2 fun _ h h' => absurd h'.1 (not_le.2 h.2)

theorem viewOf_spared (known : Bool) (s : Store) (h : m.Spared m') :
    viewOf known s m' = viewOf known s m := by
  rw [viewOf, viewOf, h.store]

namespace KeptCode

variable {α β γ δ : Type} {env : Env} {π : Matching} {d : Exec α} {d' : Exec γ} {x : Env → Exec β}
  {y : Env → Exec δ} {Q : Matching → α → β → Prop} {P : Matching → γ → δ → Prop}

theorem weaken (h : KeptCode b env π d x Q) (hb : b = true → b' = true) :
    KeptCode b' env π d x Q where
  settles hd := (h.settles hd).weaken hb
  mirrored hd c known s hknown := h.mirrored hd c known s fun hmentions => hknown (hb hmentions)

theorem later {ρ : Matching} (h : KeptCode b env π d x Q) (hπ : π ≤ ρ) :
    KeptCode b env ρ d x Q where
  settles := h.settles
  mirrored hd c known s hknown := (h.mirrored hd c known s hknown).later (.refl c env) le_rfl hπ

theorem congr {x' : Env → Exec β} (h : KeptCode b env π d x Q) (hx : ∀ e, x' e = x e) :
    KeptCode b env π d x' Q := by
  rwa [funext hx]

theorem pure {a : α} {a' : β} (h : ∀ ρ, π ≤ ρ → Q ρ a a') :
    KeptCode b env π (pure a) (fun _ => pure a') Q where
  settles hd := by
    cases hd
    exact .refl b _
  mirrored hd := by
    cases hd
    exact fun _ _ _ _ => .pure h

theorem throw (e : Error) : KeptCode b env π (throw e) x Q :=
  ⟨nofun, nofun⟩

/-- What comes next may depend on the result, as long as what it settles does not. -/
theorem bind {f : α → Exec γ} {g : Env → β → Exec δ} (hx : KeptCode b env π d x Q)
    (hf : ∀ {a m m' r}, f a m = .ok r m' → Settles b' m m')
    (hg : ∀ ρ a a', π ≤ ρ → Q ρ a a' → KeptCode b' env ρ (f a) (fun e => g e a') P) :
    KeptCode (b || b') env π (d >>= f) (fun e => x e >>= g e) P where
  settles hd := by
    obtain ⟨a, m₁, hd, hr⟩ := Exec.exists_ok_of_bind hd
    exact (hx.settles hd).trans (hf hr)
  mirrored hd c known s hknown := by
    obtain ⟨a, m₁, hd, hr⟩ := Exec.exists_ok_of_bind hd
    have hfirst := hx.mirrored hd c known s fun hb => hknown (by rw [hb, Bool.true_or])
    rw [← Set.Ico_union_Ico_eq_Ico (hx.settles hd).nextId (hf hr).nextId]
    refine hfirst.bind (fun ρ a' hπ ha => ?_) (disjoint_ico _ _ _)
    exact (hg ρ a a' hπ ha).mirrored hr c known s fun hb => hknown (by rw [hb, Bool.or_true])

theorem pair (hx : KeptCode b env π d x Q) (hy : KeptCode b' env π d' y P)
    (hQ : ∀ a, Persists (Q · a)) :
    KeptCode (b || b') env π (d >>= fun a => d' >>= fun r => Pure.pure (a, r))
      (fun e => x e >>= fun a => y e >>= fun r => Pure.pure (a, r))
      fun τ r r' => Q τ r.1 r'.1 ∧ P τ r.2 r'.2 where
  settles hd := by
    obtain ⟨a, m₁, ha, hd⟩ := Exec.exists_ok_of_bind hd
    obtain ⟨r, m₂, hr, hd⟩ := Exec.exists_ok_of_bind hd
    cases hd
    exact (hx.settles ha).trans (hy.settles hr)
  mirrored hd c known s hknown := by
    obtain ⟨a, m₁, ha, hd⟩ := Exec.exists_ok_of_bind hd
    obtain ⟨r, m₂, hr, hd⟩ := Exec.exists_ok_of_bind hd
    cases hd
    have hfirst := hx.mirrored ha c known s fun hb => hknown (by rw [hb, Bool.true_or])
    have hsecond := hy.mirrored hr c known s fun hb => hknown (by rw [hb, Bool.or_true])
    rw [← Set.Ico_union_Ico_eq_Ico (hx.settles ha).nextId (hy.settles hr).nextId]
    exact hfirst.pair hsecond (hQ a) (disjoint_ico _ _ _)

theorem map {f : α → γ} {g : β → δ} (h : KeptCode b env π d x Q)
    (hf : ∀ ρ a a', Q ρ a a' → P ρ (f a) (g a')) :
    KeptCode b env π (d >>= fun a => Pure.pure (f a))
      (fun e => x e >>= fun a => Pure.pure (g a)) P where
  settles hd := by
    obtain ⟨a, m₁, hd, hr⟩ := Exec.exists_ok_of_bind hd
    cases hr
    exact h.settles hd
  mirrored hd c known s hknown := by
    obtain ⟨a, m₁, hd, hr⟩ := Exec.exists_ok_of_bind hd
    cases hr
    exact (h.mirrored hd c known s hknown).map fun ρ a' => hf ρ a a'

theorem inPlace {f : α → Exec Value} {g : β → Exec Value} (h : KeptCode b env π d x Q)
    (hf : ∀ ρ a a', Q ρ a a' → InPlace (Value.Realized ρ) (f a) (g a'))
    (hspares : ∀ a, (f a).Spares) :
    KeptCode b env π (d >>= f) (fun e => x e >>= g) Value.Realized where
  settles hd := by
    obtain ⟨a, m₁, hd, hr⟩ := Exec.exists_ok_of_bind hd
    exact (h.settles hd).spared (hspares a _ _ _ hr)
  mirrored hd c known s hknown := by
    obtain ⟨a, m₁, hd, hr⟩ := Exec.exists_ok_of_bind hd
    have hspared := hspares a _ _ _ hr
    rw [viewOf_spared known s hspared,
      ← Set.Ico_union_Ico_eq_Ico (h.settles hd).nextId hspared.nextId]
    exact (h.mirrored hd c known s hknown).inPlace (fun ρ a' => hf ρ a a') hr (disjoint_ico _ _ _)

end KeptCode

end Rules

/-! ## Variables, functions and assignments -/

section Forms

variable {call : Caller} {env env' : Env} {π : Matching}

theorem kept_store (call : Caller) :
    KeptCode true env' π (evaluate call env (.var Expr.storeName))
      (fun ε => eval ε (.var Expr.storeName)) Value.Realized where
  settles hd := by
    cases hd
    exact .refl _ _
  mirrored hd := by
    cases hd
    intro c known s hknown ε ρ n _ _ _ hV
    obtain rfl := hknown rfl
    exact ⟨ρ, n, .object n.store, rfl, .refl _ ρ n, .object hV, hV⟩

theorem kept_var {x : String} (hx : ¬ IsGenerated x) (hstore : x ≠ Expr.storeName)
    (henv : EnvRealized π env env') :
    KeptCode false env' π (evaluate call env (.var x))
      (fun ε => eval ε (.var x)) Value.Realized := by
  have hrel := henv x hx
  simp only [evaluate, if_neg hstore]
  cases hlookup : env.lookup? x with
  | none => exact .throw _
  | some v =>
    rw [hlookup] at hrel
    generalize hlookup' : env'.lookup? x = o at hrel
    cases hrel with
    | @some _ w hv =>
      refine ⟨fun hd => ?_, fun hd => ?_⟩ <;> cases hd
      · exact .refl _ _
      · intro c known s _ ε ρ n hagrees hπ _ hV
        have hfound : ε.lookup? x = some w := by
          rw [hagrees x fun hfresh => hx hfresh.isGenerated, hlookup']
        exact ⟨ρ, n, w, eval_var hstore hfound, .refl _ ρ n, hv.mono hπ, hV⟩

theorem kept_func {name : Option String} {params : List String} {body : List Stmt} {κ a : String}
    {code : Expr} (hcode : Converted name params body κ a code) (henv : EnvRealized π env env') :
    KeptCode false env' π (evaluate call env (.func name params body))
      (fun ε => eval ε (.func name (κ :: a :: params) [.expr code])) Value.Realized where
  settles hd := by
    cases hd
    exact ⟨Nat.le_succ _, fun _ => rfl⟩
  mirrored {m _ _} hd := by
    cases hd
    intro c known s _ ε ρ n hagrees hπ hroom hV
    have hleft := hroom.left m.nextId ⟨le_rfl, Nat.lt_succ_self _⟩
    have hright (i : Nat) : ¬ ρ.ids i n.nextId := fun hij => (hroom.right i _ hij).false
    have hle := Matching.le_insert hleft hright
    have hscope := (henv.agrees hagrees).mono (Matching.le_trans hπ hle)
    refine ⟨ρ.insert m.nextId n.nextId hleft hright, { n with nextId := n.nextId + 1 }, _, rfl,
      ⟨hle, ?_, Nat.le_succ _⟩, .closure (.inr ⟨rfl, rfl⟩) hcode hscope, ?_⟩
    · rintro i j (hij | ⟨rfl, rfl⟩)
      · exact .inl hij
      · exact .inr ⟨⟨le_rfl, Nat.lt_succ_self _⟩, le_rfl, Nat.lt_succ_self _⟩
    · cases known with
      | false => exact hV
      | true => exact fieldsRealized_mono hle hV

/-- The property and the value of an assignment are evaluated; the write is the same. -/
theorem kept_assign {b b' : Bool} {p q x y : Expr}
    (hp : KeptCode b env' π (evaluate call env p) (fun ε => eval ε q) Value.Realized)
    (hx : KeptCode b' env' π (evaluate call env x) (fun ε => eval ε y) Value.Realized) :
    KeptCode true env' π (evaluate call env (.assign (.member (.var Expr.storeName) p) x))
      (fun ε => eval ε (.assign (.member (.var Expr.storeName) q) y)) Value.Realized := by
  -- Property and value are one piece of code, a pair; only the write is left to compare.
  have hpair := (hp.pair hx persists_realized).weaken fun _ => rfl
  have hdirect : evaluate call env (.assign (.member (.var Expr.storeName) p) x) =
      (evaluate call env p >>= fun a => evaluate call env x >>= fun b => pure (a, b)) >>=
        fun ab => do
          modify fun m => { m with store := setField m.store ab.1.key ab.2 }
          return ab.2 := by
    simp only [evaluate, if_true, bind_assoc, pure_bind]
  have hcode (ε : Env) : eval ε (.assign (.member (.var Expr.storeName) q) y) =
      (eval ε q >>= fun a => eval ε y >>= fun b => pure (a, b)) >>= fun ab => do
        modify fun m => { m with store := setField m.store ab.1.key ab.2 }
        return ab.2 := by
    simp only [eval, if_true, bind_assoc, pure_bind]
  rw [hdirect]
  simp only [hcode]
  refine ⟨fun hd => ?_, fun hd => ?_⟩ <;>
    obtain ⟨⟨u, v⟩, m₁, huv, hd⟩ := Exec.exists_ok_of_bind hd <;> cases hd
  · exact ⟨(hpair.settles huv).nextId, nofun⟩
  · intro c known s hknown ε ρ n hagrees hπ hroom hV
    obtain rfl := hknown rfl
    rcases hpair.mirrored huv c true s hknown ε ρ n hagrees hπ hroom hV with
      ⟨τ, n', ⟨q, w⟩, hqw, hg, ⟨hq, hw⟩, hstore⟩
    refine ⟨τ, { n' with store := setField n'.store q.key w }, w, Exec.bind_ok hqw _,
      ⟨hg.le, hg.new, hg.nextId⟩, hw, ?_⟩
    rw [← (realized_likeness τ).key_eq hq]
    exact Semblance.setField hstore u.key hw

end Forms

/-! ## Prepared expressions -/

/-- What is known of an expression and the one that is converted. -/
structure Prepared (a : String) (d e : Expr) : Prop where
  addressed : Addressed a d e
  tame : d.Meets .tame
  steady : e.isSteady = true

section Prepared

variable {call : Caller} {a : String} {d e : Expr} {ds es : List Expr} {wrap : List Expr → Expr}
  {make : List Value → Exec Value}

theorem prepared_all (h : ExprsAddressed a ds es) (htame : exprsMeet .tame ds)
    (hsteady : allSteady es = true) : List.Forall₂ (Prepared a) ds es := by
  induction ds generalizing es with
  | nil =>
    cases h
    exact .nil
  | cons d ds ih =>
    cases h with
    | cons he hes =>
      obtain ⟨hsteady, hsteadies⟩ := Bool.and_eq_true_iff.1 hsteady
      exact .cons ⟨he, htame.1, hsteady⟩ (ih hes htame.2 hsteadies)

theorem prepared_fields {fs gs : List (String × Expr)} (h : FieldsAddressed a fs gs)
    (htame : fieldsMeet .tame fs) (hsteady : fieldsSteady gs = true) :
    List.Forall₂ (Prepared a) (fs.map Prod.snd) (gs.map Prod.snd) := by
  induction fs generalizing gs with
  | nil =>
    cases h
    exact .nil
  | cons f fs ih =>
    cases h with
    | cons key he hfs =>
      obtain ⟨hsteady, hsteadies⟩ := Bool.and_eq_true_iff.1 hsteady
      exact .cons ⟨he, htame.1, hsteady⟩ (ih hfs htame.2 hsteadies)

/-- The same form is around operands that are prepared. -/
theorem Prepared.formed (h : Prepared a d e) (hform : Formed d ds wrap make) :
    ∃ es, Formed e es wrap make ∧ List.Forall₂ (Prepared a) ds es := by
  obtain ⟨haddressed, htame, hsteady⟩ := h
  cases haddressed with
  | array hes =>
    cases hform
    exact ⟨_, .array _, prepared_all hes htame hsteady⟩
  | @object _ _ gs hfs =>
    cases hform
    exact ⟨_, hfs.keys_eq ▸ .object gs, prepared_fields hfs htame hsteady⟩
  | unary op he =>
    cases hform
    exact ⟨_, .unary op _, .cons ⟨he, htame, hsteady⟩ .nil⟩
  | binary op hl hr =>
    cases hform
    obtain ⟨hsteady, hsteady'⟩ := Bool.and_eq_true_iff.1 hsteady
    exact ⟨_, .binary op _ _, .cons ⟨hl, htame.1, hsteady⟩ (.cons ⟨hr, htame.2, hsteady'⟩ .nil)⟩
  | member ho hp =>
    cases hform
    obtain ⟨hsteady, hsteady'⟩ := Bool.and_eq_true_iff.1 hsteady
    exact ⟨_, .member _ _, .cons ⟨ho, htame.1, hsteady⟩ (.cons ⟨hp, htame.2, hsteady'⟩ .nil)⟩
  | method hprimitive hf hes =>
    cases hform
    obtain ⟨hsteady, hsteadies⟩ := Bool.and_eq_true_iff.1 hsteady
    have hprimitive' := hf.isPrimitive_eq.trans hprimitive
    cases hf with
    | member ho hp =>
      obtain ⟨hsteady, hsteady'⟩ := Bool.and_eq_true_iff.1 (Bool.and_eq_true_iff.1 hsteady).2
      exact ⟨_, .method hprimitive' _, .cons ⟨ho, htame.1.1, hsteady⟩
        (.cons ⟨hp, htame.1.2, hsteady'⟩ (prepared_all hes htame.2 hsteadies))⟩
  | call _ hprimitive =>
    cases hform with
    | method hprimitive' => exact absurd (hprimitive.symm.trans hprimitive') Bool.false_ne_true
  | _ => cases hform

theorem evaluateFields_eq (env : Env) (fs : List (String × Expr)) (before : List (String × Value)) :
    evaluateFields call env fs before =
      evaluateAll call env (fs.map Prod.snd) >>= fun vs =>
        pure (addFields before (fs.map Prod.fst) vs) := by
  induction fs generalizing before with
  | nil => simp [evaluateFields, evaluateAll, addFields]
  | cons f fs ih =>
    simp only [evaluateFields, ih, List.map_cons, evaluateAll, bind_assoc, pure_bind]
    rfl

theorem Formed.evaluate (h : Formed e es wrap make) (env : Env) :
    evaluate call env e = evaluateAll call env es >>= make := by
  cases h with
  | array => rfl
  | object => simp only [Chance.evaluate, evaluateFields_eq, bind_assoc, pure_bind]
  | unary | binary | member =>
    simp only [Chance.evaluate, evaluateAll, bind_assoc, pure_bind]
    rfl
  | method h =>
    simp only [Chance.evaluate, evaluateAll, if_pos h, bind_assoc, pure_bind]
    rfl

theorem Formed.mentionsStore_eq (h : Formed e es wrap make) :
    e.mentionsStore = anywhereIn (· == .name Expr.storeName) es := by
  cases h with
  | array => rfl
  | object fs => exact anywhereInFields_eq _ fs
  | unary | binary | member | method =>
    simp [Expr.mentionsStore, Expr.anywhere, anywhereIn, Bool.or_assoc]

theorem evaluate_assign_other {t : Expr} (h : t.isPlace = false) (env : Env) (v : Expr) :
    evaluate call env (.assign t v) = throw (.type .notAssignable) := by
  cases t with
  | member o p =>
    cases o with
    | var x =>
      have hx : ¬ x = Expr.storeName := beq_eq_false_iff_ne.1 h
      simp only [evaluate, if_neg hx]
    | _ => rfl
  | _ => rfl

/-- Whether the value of a left operand is that of the whole. -/
def LogicOp.decidedBy (op : LogicOp) (v : Value) : Bool :=
  match op with
  | .or => v.truthy
  | .and => !v.truthy

theorem LogicOp.decidedBy_eq (op : LogicOp) {v w : Value} (h : v.truthy = w.truthy) :
    op.decidedBy v = op.decidedBy w := by
  cases op <;> simp only [decidedBy, h]

theorem evaluate_logic (op : LogicOp) (env : Env) (l r : Expr) :
    evaluate call env (.logic l r op) = evaluate call env l >>= fun v =>
      if op.decidedBy v then pure v else evaluate call env r := by
  rw [evaluate]
  congr 1
  funext v
  cases op <;> cases htruthy : v.truthy <;> simp [LogicOp.decidedBy, htruthy]

theorem eval_logic (op : LogicOp) (env : Env) (l r : Expr) :
    eval env (.logic l r op) = eval env l >>= fun v =>
      if op.decidedBy v then pure v else eval env r := by
  rw [eval]
  congr 1
  funext v
  cases op <;> cases htruthy : v.truthy <;> simp [LogicOp.decidedBy, htruthy]

end Prepared

/-! ## Kept code -/

section Keeping

variable {call : Caller} {env env' : Env} {π : Matching} {a : String}

theorem keepAll_kept {ds : List Expr} (ih : ∀ d ∈ ds, ∀ {e}, Prepared a d e → d.isAtomic = true →
      ∀ n, KeptCode d.mentionsStore env' π (evaluate call env d)
        (fun ε => eval ε ((usage e).keep.run n).1)
        Value.Realized) {es : List Expr} (h : List.Forall₂ (Prepared a) ds es)
    (hatomic : allAtomic ds = true) (n : Nat) :
    KeptCode (anywhereIn (· == .name Expr.storeName) ds) env' π (evaluateAll call env ds)
      (fun ε => evalAll ε ((Usage.keepAll (usageAll es)).run n).1)
      fun τ => List.Forall₂ (Value.Realized τ) := by
  induction h generalizing n with
  | nil => exact .pure fun _ _ => .nil
  | @cons d e ds es he _ ihs =>
    obtain ⟨hd, hds⟩ := Bool.and_eq_true_iff.1 hatomic
    have hfirst := ih d List.mem_cons_self he hd n
    have hrest := ihs (fun d hmem => ih d (.tail _ hmem)) hds ((usage e).keep.run n).2
    have hpair := (hfirst.pair hrest persists_realized).map
      (P := fun τ => List.Forall₂ (Value.Realized τ)) (f := fun r => r.1 :: r.2)
      (g := fun r => r.1 :: r.2) fun _ _ _ hs => .cons hs.1 hs.2
    simp only [bind_assoc, pure_bind] at hpair
    exact hpair

variable (call) in
/-- Where direct evaluation of an atomic expression succeeds, the kept code is a piece for the
value. -/
theorem keep_kept (henv : EnvRealized π env env') {d e : Expr} (h : Prepared a d e)
    (hatomic : d.isAtomic = true) (n : Nat) :
    KeptCode d.mentionsStore env' π (evaluate call env d) (fun ε => eval ε ((usage e).keep.run n).1)
      Value.Realized := by
  induction d using Expr.form_induction generalizing e n with
  | num x =>
    cases h.addressed
    exact .pure fun _ _ => .num x
  | str s =>
    cases h.addressed
    exact .pure fun _ _ => .str s
  | bool b =>
    cases h.addressed
    exact .pure fun _ _ => .bool b
  | null =>
    cases h.addressed
    exact .pure fun _ _ => .null
  | undefined =>
    cases h.addressed
    exact .pure fun _ _ => .undefined
  | var x =>
    cases h.addressed
    by_cases hstore : x = Expr.storeName
    · subst hstore
      exact kept_store call
    · have hmentions : (Expr.var x).mentionsStore = false := by
        simp [Expr.mentionsStore, Expr.anywhere, hstore]
      rw [hmentions]
      exact kept_var h.tame hstore henv
  | formed hform ih =>
    -- The operands are kept in order, and the form is applied to what is kept of them.
    obtain ⟨es, hform', hes⟩ := h.formed hform
    obtain ⟨-, -, -, hatomics⟩ := hform.usage_eq
    obtain ⟨-, -, -, hatomics'⟩ := hform'.usage_eq
    have hparts := keepAll_kept ih hes (hatomics hatomic) n
    have hfits := (Usage.keepAll_meets (usageAll_meets es)
      (hatomics' (h.addressed.isAtomic_eq.trans hatomic)) n).1
    rw [hform.evaluate, hform.mentionsStore_eq, hform'.keep_eq]
    refine (hparts.inPlace (fun ρ _ _ hs => (hform.inStep (realized_likeness ρ) hs).inPlace)
      fun vs => (hform.itself vs).spares).congr fun ε => (hform'.residue hfits).eval ε
  | logic op ihl ihr =>
    obtain ⟨haddressed, htame, hsteady⟩ := h
    cases haddressed with
    | @logic _ l l' _ _ _ hl hr =>
    obtain ⟨hsteady, hsteady'⟩ := Bool.and_eq_true_iff.1 hsteady
    obtain ⟨hatomic, hatomic'⟩ := Bool.and_eq_true_iff.1 hatomic
    have hleft := ihl ⟨hl, htame.2.1, hsteady⟩ hatomic n
    have hright := ihr ⟨hr, htame.2.2, hsteady'⟩ hatomic' ((usage l').keep.run n).2
    rw [evaluate_logic]
    -- Where the left operand decides, the right one is evaluated on neither side.
    refine (hleft.bind (fun hd => ?_) fun ρ u w hπ hw => ?_).congr fun ε => eval_logic op ε _ _
    · split at hd
      · cases hd
        exact .refl _ _
      · exact hright.settles hd
    · rw [← LogicOp.decidedBy_eq op ((realized_likeness ρ).truthy_eq hw)]
      split
      · exact .pure fun σ hσ => hw.mono hσ
      · exact hright.later hπ
  | cond iht ihc iha =>
    obtain ⟨haddressed, htame, hsteady⟩ := h
    cases haddressed with
    | @cond _ t t' c c' _ _ ht hc ha =>
    obtain ⟨hsteady, hsteadya⟩ := Bool.and_eq_true_iff.1 hsteady
    obtain ⟨hsteadyt, hsteadyc⟩ := Bool.and_eq_true_iff.1 hsteady
    obtain ⟨hatomic, hatomica⟩ := Bool.and_eq_true_iff.1 hatomic
    obtain ⟨hatomict, hatomicc⟩ := Bool.and_eq_true_iff.1 hatomic
    have htest := iht ⟨ht, htame.1, hsteadyt⟩ hatomict n
    have hthen := ihc ⟨hc, htame.2.1, hsteadyc⟩ hatomicc ((usage t').keep.run n).2
    have helse := iha ⟨ha, htame.2.2, hsteadya⟩ hatomica
      ((usage c').keep.run ((usage t').keep.run n).2).2
    rw [Expr.mentionsStore, Expr.anywhere, Bool.or_assoc]
    refine htest.bind (fun hd => ?_) fun ρ u w hπ hw => ?_
    · split at hd
      · exact (hthen.settles hd).weaken Bool.or_inl
      · exact (helse.settles hd).weaken Bool.or_inr
    · rw [(realized_likeness ρ).truthy_eq hw]
      split
      · exact (hthen.later hπ).weaken Bool.or_inl
      · exact (helse.later hπ).weaken Bool.or_inr
  | func name params body =>
    obtain ⟨haddressed, htame, hsteady⟩ := h
    cases haddressed with
    | func _ _ hinner hbody =>
      exact kept_func ⟨htame, hinner, _, n, n + 1, hbody, hsteady, rfl, n.lt_succ_self, rfl⟩ henv
  | assign ihp ihv =>
    obtain ⟨haddressed, htame, hsteady⟩ := h
    cases haddressed with
    | assign ht hv =>
    cases ht with
    | member ho hp =>
    cases ho
    obtain ⟨hsteadyt, hsteadyv⟩ := Bool.and_eq_true_iff.1 hsteady
    obtain ⟨hatomict, hatomicv⟩ := Bool.and_eq_true_iff.1 hatomic
    exact kept_assign (ihp ⟨hp, htame.1.2, (Bool.and_eq_true_iff.1 hsteadyt).2⟩
      (Bool.and_eq_true_iff.1 hatomict).2 n) (ihv ⟨hv, htame.2, hsteadyv⟩ hatomicv _)
  | call_other es hprimitive =>
    -- Only primitive calls are atomic.
    simp only [Expr.isAtomic, hprimitive, Bool.false_and, Bool.false_eq_true] at hatomic
  | assign_other v hplace =>
    rw [evaluate_assign_other hplace]
    exact .throw _

end Keeping

end Chance
