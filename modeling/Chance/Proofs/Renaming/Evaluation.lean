import Chance.Proofs.Renaming.Quiet

/-!
# Evaluating renamed code

Renamed code takes related states to related states, as long as the run is quiet: both runs succeed
with related results or fail with errors of one kind.

- `Machine.Renamed`, `Step.Renamed`: states and steps that are the same up to names in code,
- `Lockstep`: two computations that go alike, with one rule for each way to put them together,
- `eval_renamed`, `evalTail_renamed`: evaluation in corresponding scopes.
-/

namespace Chance

/-! ## States -/

/-- Both runs give out the same identities. -/
def renamedKinship : Kinship where
  toFooting := .even
  World := Unit
  value _ := Value.Renamed
  receiver _ := Value.Renamed
  ids _ i j := i = j
  counters _ i j := i = j
  heard := True
  semblance _ := renamed_semblance
  unique h h' := by rw [h, h']

/-- Enumerations in the same state up to names in code. -/
abbrev Engine.Renamed : Engine → Engine → Prop := renamedKinship.Engines ()

/-- States of the machine that are the same up to names in code. -/
abbrev Machine.Renamed : Machine → Machine → Prop := renamedKinship.States ()

/-- Loops that will give the same scores to the items that are left. -/
abbrev LoopRenamed : Loop → Loop → List Value → List Value → Prop :=
  Loop.Items Loop.Renamed Value.Renamed

inductive Task.Renamed : Task → Task → Prop
  | call {f g : Value} {vs ws : List Value} :
      f.Renamed g → List.Forall₂ Value.Renamed vs ws → Task.Renamed (.call f vs) (.call g ws)
  | turn {l l' : Loop} {rest rest' : List Value} {acc acc' : Value} (index : Nat) :
      LoopRenamed l l' rest rest' → acc.Renamed acc' →
      Task.Renamed (.turn l index rest acc) (.turn l' index rest' acc')
  | iterate {l l' : Loop} {rest rest' : List Value} {acc acc' : Value} (index : Nat) :
      LoopRenamed l l' rest rest' → acc.Renamed acc' →
      Task.Renamed (.iterate l index rest acc) (.iterate l' index rest' acc')
  | enter {e f : Engine} {thunk thunk' exit exit' : Value} :
      e.Renamed f → thunk.Renamed thunk' → exit.Renamed exit' →
      Task.Renamed (.enter e thunk exit) (.enter f thunk' exit')

abbrev Step.Renamed : Step → Step → Prop := Step.Layer Task.Renamed Value.Renamed

/-! ## Computations that go alike -/

/-- How two computations end alike: both succeed with related results or fail with errors of one
kind, in related states. -/
inductive Alongside {α β : Type} (Q : α → β → Prop) :
    EStateM.Result Error Machine α → EStateM.Result Error Machine β → Prop
  | ok {a : α} {b : β} {m n : Machine} : Q a b → m.Renamed n → Alongside Q (.ok a m) (.ok b n)
  | error {e e' : Error} {m n : Machine} :
      e.SameKind e' → m.Renamed n → Alongside Q (.error e m) (.error e' n)

/-- Two computations from two states that go alike. -/
def Lockstep {α β : Type} (Q : α → β → Prop) (x : Exec α) (y : Exec β) (m n : Machine) : Prop :=
  Alongside Q (x m) (y n)

namespace Lockstep

variable {α β γ δ : Type} {Q : α → β → Prop} {S : γ → δ → Prop} {m n : Machine}

theorem pure {a : α} {b : β} (hm : m.Renamed n) (h : Q a b) :
    Lockstep Q (pure a) (pure b) m n :=
  .ok h hm

theorem throw {e e' : Error} (hm : m.Renamed n) (h : e.SameKind e') :
    Lockstep Q (throw e) (throw e') m n :=
  .error h hm

theorem malformed {stage : Stage} {fault : FormFault} (node node' : String) (hm : m.Renamed n) :
    Lockstep Q (MonadExcept.throw (.compile stage fault node))
      (MonadExcept.throw (.compile stage fault node')) m n :=
  .error (Eq.refl Error.Kind.compile) hm

/-- After the first parts have gone alike, what follows may use what the first part ended with. -/
theorem bind {x : Exec α} {y : Exec β} {f : α → Exec γ} {g : β → Exec δ} (h : Lockstep Q x y m n)
    (k : ∀ a b m' n', x m = .ok a m' → Q a b → m'.Renamed n' → Lockstep S (f a) (g b) m' n') :
    Lockstep S (x >>= f) (y >>= g) m n := by
  unfold Lockstep at h ⊢
  simp only [Bind.bind, EStateM.bind]
  cases hx : x m with
  | ok a m' =>
    rw [hx] at h
    cases hy : y n with
    | ok b n' =>
      rw [hy] at h
      cases h with
      | ok hab hm => exact k a b m' n' hx hab hm
    | error e n' =>
      rw [hy] at h
      cases h
  | error e m' =>
    rw [hx] at h
    cases hy : y n with
    | ok b n' =>
      rw [hy] at h
      cases h
    | error e' n' =>
      rw [hy] at h
      cases h with
      | error he hm => exact .error he hm

theorem lift {x : Except Error α} {y : Except Error β} (hm : m.Renamed n)
    (h : Agrees Value.Renamed Q x y) : Lockstep Q (liftM x) (liftM y) m n := by
  cases h with
  | ok hab => exact .ok hab hm
  | error he => exact .error he.kind hm

theorem lift_bind {x : Except Error α} {y : Except Error β} {f : α → Exec γ} {g : β → Exec δ}
    (hm : m.Renamed n) (h : Agrees Value.Renamed Q x y)
    (k : ∀ a b, Q a b → Lockstep S (f a) (g b) m n) :
    Lockstep S (liftM x >>= f) (liftM y >>= g) m n := by
  cases h with
  | ok hab => exact k _ _ hab
  | error he => exact .error he.kind hm

theorem modify_bind {f g : Machine → Machine} {x : PUnit → Exec γ} {y : PUnit → Exec δ}
    (k : Lockstep S (x ⟨⟩) (y ⟨⟩) (f m) (g n)) :
    Lockstep S (modify f >>= x) (modify g >>= y) m n :=
  k

/-- Both runs give out the same identity. -/
theorem freshId_bind {f : Nat → Exec γ} {g : Nat → Exec δ} (hm : m.Renamed n)
    (k : ∀ i m' n', m'.Renamed n' → Lockstep S (f i) (g i) m' n') :
    Lockstep S (Exec.freshId >>= f) (Exec.freshId >>= g) m n := by
  have hnext : Machine.Renamed { m with nextId := m.nextId + 1 }
      { n with nextId := n.nextId + 1 } :=
    { hm with
      counters := congrArg Nat.succ hm.counters
      floor := Nat.zero_le _
      floor' := Nat.zero_le _ }
  have hrest (j : Nat) (hj : m.nextId = j) : Lockstep S (f m.nextId) (g j)
      { m with nextId := m.nextId + 1 } { n with nextId := n.nextId + 1 } :=
    hj ▸ k m.nextId _ _ hnext
  exact hrest n.nextId hm.counters

theorem newDist {d e : Dist} (hm : m.Renamed n) (hd : DistAlike Value.Renamed d e) :
    Lockstep Value.Renamed (Exec.newDist d) (Exec.newDist e) m n :=
  freshId_bind hm fun i _ _ hm' => pure hm' (.dist i hd.like hd.texts)

end Lockstep

theorem InStep.lockstep {x y : Exec Value} (h : InStep Value.Renamed x y) {m n : Machine}
    (hm : m.Renamed n) : Lockstep Value.Renamed x y m n := by
  induction h with
  | pure h => exact .pure hm h
  | throw he => exact .throw hm he.kind
  | lift h => exact .lift hm h
  | bind h _ ih => exact .lift_bind hm h ih
  | newDist hd => exact .newDist hm hd
  | print _ hkeys =>
    refine .modify_bind (.pure { hm with output := fun _ => ?_ } .undefined)
    simp only [hm.output trivial, hkeys]

/-! ## What quiet computations need -/

section Quiet

variable {vs ws : List Value}

theorem after_ok {α : Type} {x : Exec α} {m m' : Machine} {a : α} {p : α → Machine → Bool}
    (h : x.after m p = true) (hx : x m = .ok a m') : p a m' = true := by
  rwa [Exec.after, hx] at h

variable {v w v' w' : Value}

theorem binary_lockstep (op : BinaryOp) (h : v.Renamed w) (h' : v'.Renamed w')
    (hq : op.isQuiet v v' = true) :
    Agrees Value.Renamed Value.Renamed (op.apply v v') (op.apply w w') := by
  refine renamed_semblance.binary op h h' ?_ ?_
  · rintro rfl s rfl
    refine h.key_eq ?_
    cases v with
    | str t => rfl
    | _ => exact hq
  · rintro rfl s rfl
    exact h'.key_eq hq

theorem member_lockstep (h : v.Renamed w) (h' : v'.Renamed w')
    (hq : memberIsQuiet v v' = true) :
    Agrees Value.Renamed Value.Renamed (member v v') (member w w') := by
  refine renamed_semblance.member h h' ?_
  rintro fs rfl
  exact h'.key_eq hq

theorem primitive_inStep (p : Primitive) (hs : List.Forall₂ Value.Renamed vs ws)
    (hq : p.isQuiet vs = true) : InStep Value.Renamed (p.run vs) (p.run ws) := by
  refine renamed_semblance.run p hs ?_
  rintro rfl
  exact keys_renamed hs hq

theorem method_inStep (h : v.Renamed w) (name : String) (hs : List.Forall₂ Value.Renamed vs ws)
    (hq : methodIsQuiet v name vs = true) :
    InStep Value.Renamed (callMethod v name vs) (callMethod w name ws) := by
  have hfirst := renamed_semblance.argument hs 0
  refine renamed_semblance.method h name hs ⟨?_, ?_, ?_, ?_⟩
  · rintro s rfl rfl
    exact keys_renamed hs hq
  · rintro s rfl rfl
    exact hfirst.key_eq hq
  · rintro i d rfl rfl hread
    refine hfirst.text_eq ?_
    simpa only [methodIsQuiet, hread, Bool.not_true, Bool.false_or] using hq
  · rintro fs rfl hget
    simp only [methodIsQuiet, hget] at hq
    exact keys_renamed hs hq

end Quiet

/-! ## Scopes -/

section Scopes

variable {σ : String → String} {X : Set String} {env env' : Env} {frame frame' : Frame}

/-- Frames whose names are renamed and whose values correspond. -/
inductive BindingRenamed (σ : String → String) : String × Value → String × Value → Prop
  | mk (x : String) {v w : Value} : v.Renamed w → BindingRenamed σ (x, v) (σ x, w)

theorem frameLookup_renamed (hσ : Function.Injective σ)
    (h : List.Forall₂ (BindingRenamed σ) frame frame') (x : String) :
    Option.Rel Value.Renamed (frameLookup frame x) (frameLookup frame' (σ x)) := by
  have hfind := find?_rel (p := fun b => b.1 == x) (q := fun b => b.1 == σ x) (List.rel_reverse h)
    (by
      rintro _ _ ⟨y, _⟩
      simp only [beq_eq_decide, hσ.eq_iff])
  exact optionMap_rel hfind fun _ _ hb => by
    obtain ⟨_, hv⟩ := hb
    exact hv

theorem EnvRenamed.push (hσ : Function.Injective σ) (h : EnvRenamed σ X env env')
    (hframe : List.Forall₂ (BindingRenamed σ) frame frame') :
    EnvRenamed σ (X \ {x | x ∈ frame.map Prod.fst}) (frame :: env) (frame' :: env') := by
  intro x hx
  have hinner := frameLookup_renamed hσ hframe x
  rw [lookup?_cons, lookup?_cons]
  by_cases hbound : x ∈ frame.map Prod.fst
  · obtain ⟨v, hv⟩ := frameLookup_isSome hbound
    rw [hv] at hinner ⊢
    generalize frameLookup frame' (σ x) = o at hinner ⊢
    cases hinner with
    | some hvw => exact .some hvw
  · have houter := h x fun hX => hx ⟨hX, hbound⟩
    generalize frameLookup frame x = o at hinner ⊢
    generalize frameLookup frame' (σ x) = o' at hinner ⊢
    cases hinner with
    | none => exact houter
    | some hvw => exact .some hvw

theorem bindParams_renamed {self self' : Value} (name : Option String) (params : List String)
    {vs ws : List Value} (hself : self.Renamed self') (hs : List.Forall₂ Value.Renamed vs ws) :
    List.Forall₂ (BindingRenamed σ) (bindParams self name params vs)
      (bindParams self' (name.map σ) (params.map σ) ws) := by
  refine List.rel_append ?_ ?_
  · cases name with
    | none => exact .nil
    | some f => exact .cons ⟨f, hself⟩ .nil
  · rw [List.zipIdx_map, List.map_map, List.forall₂_map_left_iff, List.forall₂_map_right_iff,
      List.forall₂_same]
    rintro ⟨x, i⟩ _
    exact ⟨x, renamed_semblance.argument hs i⟩

theorem bindParams_names (self : Value) (name : Option String) (params : List String)
    (args : List Value) :
    {x | x ∈ (bindParams self name params args).map Prod.fst} = boundBy name params := by
  have hparams : (params.zipIdx.map fun p => (p.1, argument args p.2)).map Prod.fst = params := by
    rw [List.map_map]
    exact List.zipIdx_map_fst 0 params
  ext x
  cases name with
  | none =>
    simp only [bindParams, List.nil_append, Set.mem_ofPred_eq, boundBy]
    rw [hparams]
    simp
  | some f =>
    simp only [bindParams, Set.mem_ofPred_eq, boundBy, List.map_append, List.mem_append]
    rw [hparams]
    simp [eq_comm]

end Scopes

/-! ## Evaluation -/

section Evaluation

variable {σ : String → String}

mutual

/-- Renamed code evaluates alike in corresponding scopes. -/
theorem eval_renamed (hσ : IsRenaming σ) {X : Set String} {env env' : Env} {m n : Machine} :
    ∀ {e : Expr}, e.Avoids X → EnvRenamed σ X env env' → m.Renamed n → e.isQuiet env m = true →
      Lockstep Value.Renamed (eval env e) (eval env' (e.rename σ)) m n
  | .num x, _, _, hm, _ => .pure hm (.num x)
  | .str s, _, _, hm, _ => .pure hm (.str s)
  | .bool b, _, _, hm, _ => .pure hm (.bool b)
  | .null, _, _, hm, _ => .pure hm .null
  | .undefined, _, _, hm, _ => .pure hm .undefined
  | .var x, he, henv, hm, _ => by
    -- The name of the store is kept, and no other name becomes it.
    have hstore : σ x = Expr.storeName ↔ x = Expr.storeName :=
      ⟨fun h => hσ.injective (h.trans hσ.store.symm), fun h => h ▸ hσ.store⟩
    simp only [Expr.rename, eval, hstore]
    split_ifs
    · exact .pure hm (.object hm.store)
    · have hlookup := henv x he
      generalize env.lookup? x = v at hlookup ⊢
      generalize env'.lookup? (σ x) = w at hlookup ⊢
      cases hlookup with
      | none => exact .throw hm rfl
      | some hv => exact .pure hm hv
  | .array es, he, henv, hm, hq => by
    refine .bind (evalAll_renamed hσ he henv hm hq) ?_
    intro vs ws m' n' _ hs hm'
    exact .pure hm' (.array hs)
  | .object fs, he, henv, hm, hq => by
    refine .bind (evalFields_renamed hσ he henv .nil hm hq) ?_
    intro fs gs m' n' _ hs hm'
    exact .pure hm' (.object hs)
  | .unary op e, he, henv, hm, hq => by
    refine .bind (eval_renamed hσ (e := e) he henv hm hq) ?_
    intro v w m' n' _ hv hm'
    exact .lift hm' (renamed_semblance.unary op hv)
  | .binary l r op, he, henv, hm, hq => by
    obtain ⟨hql, hq⟩ := Bool.and_eq_true_iff.1 hq
    refine .bind (eval_renamed hσ he.1 henv hm hql) ?_
    intro v w m' n' hl hv hm'
    obtain ⟨hqr, hq⟩ := Bool.and_eq_true_iff.1 (after_ok hq hl)
    refine .bind (eval_renamed hσ he.2 henv hm' hqr) ?_
    intro v' w' m'' n'' hr hv' hm''
    exact .lift hm'' (binary_lockstep op hv hv' (after_ok hq hr))
  | .logic l r op, he, henv, hm, hq => by
    obtain ⟨hql, hq⟩ := Bool.and_eq_true_iff.1 hq
    refine .bind (eval_renamed hσ he.1 henv hm hql) ?_
    intro v w m' n' hl hv hm'
    -- Truth is kept, so either both sides go on to the right operand or neither does.
    have hqr := after_ok hq hl
    have hright (h : r.isQuiet env m' = true) := eval_renamed hσ he.2 henv hm' h
    have htruthy := renamed_semblance.truthy_eq hv
    simp only [htruthy] at hqr ⊢
    generalize w.truthy = b at hqr ⊢
    cases op <;> cases b
    · exact .pure hm' hv
    · exact hright hqr
    · exact hright hqr
    · exact .pure hm' hv
  | .cond t c a, he, henv, hm, hq => by
    obtain ⟨hqt, hq⟩ := Bool.and_eq_true_iff.1 hq
    refine .bind (eval_renamed hσ he.1 henv hm hqt) ?_
    intro v w m' n' ht hv hm'
    have hqr := after_ok hq ht
    simp only [renamed_semblance.truthy_eq hv] at hqr ⊢
    split_ifs at hqr ⊢
    · exact eval_renamed hσ he.2.1 henv hm' hqr
    · exact eval_renamed hσ he.2.2 henv hm' hqr
  | .member o p, he, henv, hm, hq => by
    obtain ⟨hqo, hq⟩ := Bool.and_eq_true_iff.1 hq
    refine .bind (eval_renamed hσ he.1 henv hm hqo) ?_
    intro v w m' n' ho hv hm'
    obtain ⟨hqp, hq⟩ := Bool.and_eq_true_iff.1 (after_ok hq ho)
    refine .bind (eval_renamed hσ he.2 henv hm' hqp) ?_
    intro v' w' m'' n'' hp hv' hm''
    exact .lift hm'' (member_lockstep hv hv' (after_ok hq hp))
  | .call f args, he, henv, hm, hq => by
    cases f with
    | member o p =>
      have hprimitive := (Expr.member o p).isPrimitive_rename σ
      simp only [Expr.rename] at hprimitive
      simp only [Expr.rename, eval, hprimitive]
      simp only [Expr.isQuiet] at hq
      split_ifs at hq ⊢
      · obtain ⟨hqo, hq⟩ := Bool.and_eq_true_iff.1 hq
        refine .bind (eval_renamed hσ he.1.1 henv hm hqo) ?_
        intro v w m' n' ho hv hm'
        obtain ⟨hqp, hq⟩ := Bool.and_eq_true_iff.1 (after_ok hq ho)
        refine .bind (eval_renamed hσ he.1.2 henv hm' hqp) ?_
        intro v' w' m'' n'' hp hv' hm''
        obtain ⟨hqa, hq⟩ := Bool.and_eq_true_iff.1 (after_ok hq hp)
        -- The key of a quiet call is a text that no renaming changes.
        obtain ⟨hname, hqa⟩ := Bool.and_eq_true_iff.1 hqa
        rw [← hv'.key_eq hname]
        refine .bind (evalAll_renamed hσ he.2 henv hm'' hqa) ?_
        intro vs ws m₃ n₃ ha hs hm₃
        exact (method_inStep hv v'.key hs (after_ok hq ha)).lockstep hm₃
      · exact .malformed _ _ hm
    | _ => exact .malformed _ _ hm
  | .func name params body, he, henv, hm, _ =>
    .freshId_bind hm fun i _ _ hm' => .pure hm' (.closure i hσ he henv)
  | .assign t e, he, henv, hm, hq => by
    cases t with
    | member o p =>
      cases o with
      | var x =>
        have hstore : σ x = Expr.storeName ↔ x = Expr.storeName :=
          ⟨fun h => hσ.injective (h.trans hσ.store.symm), fun h => h ▸ hσ.store⟩
        simp only [Expr.rename, eval, hstore]
        simp only [Expr.isQuiet] at hq
        split_ifs at hq ⊢
        · obtain ⟨hqp, hq⟩ := Bool.and_eq_true_iff.1 hq
          refine .bind (eval_renamed hσ he.1.2 henv hm hqp) ?_
          intro v w m' n' hp hv hm'
          obtain ⟨hname, hqe⟩ := Bool.and_eq_true_iff.1 (after_ok hq hp)
          rw [← hv.key_eq hname]
          refine .bind (eval_renamed hσ he.2 henv hm' hqe) ?_
          intro v' w' m'' n'' _ hv' hm''
          exact .modify_bind (.pure (hm''.withStore (Semblance.setField hm''.store _ hv')) hv')
        · exact .throw hm rfl
      | _ => exact .throw hm rfl
    | _ => exact .throw hm rfl

theorem evalAll_renamed (hσ : IsRenaming σ) {X : Set String} {env env' : Env} {m n : Machine} :
    ∀ {es : List Expr}, ExprsAvoid es X → EnvRenamed σ X env env' → m.Renamed n →
      exprsQuiet env es m = true →
      Lockstep (List.Forall₂ Value.Renamed) (evalAll env es) (evalAll env' (renameExprs σ es)) m n
  | [], _, _, hm, _ => .pure hm .nil
  | e :: es, he, henv, hm, hq => by
    obtain ⟨hqe, hq⟩ := Bool.and_eq_true_iff.1 hq
    refine .bind (eval_renamed hσ he.1 henv hm hqe) ?_
    intro v w m' n' hx hv hm'
    have hqs := after_ok hq hx
    refine .bind (evalAll_renamed hσ he.2 henv hm' hqs) ?_
    intro vs ws m'' n'' _ hs hm''
    exact .pure hm'' (.cons hv hs)

theorem evalFields_renamed (hσ : IsRenaming σ) {X : Set String} {env env' : Env} {m n : Machine} :
    ∀ {fs : List (String × Expr)} {gs hs : List (String × Value)}, FieldsAvoid fs X →
      EnvRenamed σ X env env' → StoreRenamed gs hs → m.Renamed n → fieldsQuiet env fs m = true →
      Lockstep StoreRenamed (evalFields env fs gs) (evalFields env' (renameFields σ fs) hs) m n
  | [], _, _, _, _, hgs, hm, _ => .pure hm hgs
  | (k, e) :: fs, gs, hs, he, henv, hgs, hm, hq => by
    obtain ⟨hqe, hq⟩ := Bool.and_eq_true_iff.1 hq
    refine .bind (eval_renamed hσ he.1 henv hm hqe) ?_
    intro v w m' n' hx hv hm'
    have hqs := after_ok hq hx
    exact evalFields_renamed hσ he.2 henv (Semblance.setField hgs k hv) hm' hqs

end

/-- The renamed body of a function runs alike up to its next task. -/
theorem evalTail_renamed (hσ : IsRenaming σ) {X : Set String} {env env' : Env} {m n : Machine} :
    ∀ {e : Expr}, e.Avoids X → EnvRenamed σ X env env' → m.Renamed n →
      e.isQuietTail env m = true →
      Lockstep Step.Renamed (evalTail env e) (evalTail env' (e.rename σ)) m n
  | .cond t c a, he, henv, hm, hq => by
    obtain ⟨hqt, hq⟩ := Bool.and_eq_true_iff.1 hq
    refine .bind (eval_renamed hσ he.1 henv hm hqt) ?_
    intro v w m' n' ht hv hm'
    have hqr := after_ok hq ht
    simp only [renamed_semblance.truthy_eq hv] at hqr ⊢
    split_ifs at hqr ⊢
    · exact evalTail_renamed hσ he.2.1 henv hm' hqr
    · exact evalTail_renamed hσ he.2.2 henv hm' hqr
  | .call f args, he, henv, hm, hq => by
    simp only [Expr.rename, evalTail, f.isPrimitive_rename σ]
    simp only [Expr.isQuietTail] at hq
    split_ifs at hq ⊢
    · refine .bind (eval_renamed hσ (e := .call f args) he henv hm hq) ?_
      intro v w m' n' _ hv hm'
      exact .pure hm' (.done hv)
    · obtain ⟨hqf, hq⟩ := Bool.and_eq_true_iff.1 hq
      refine .bind (eval_renamed hσ he.1 henv hm hqf) ?_
      intro v w m' n' hf hv hm'
      have hqs := after_ok hq hf
      refine .bind (evalAll_renamed hσ he.2 henv hm' hqs) ?_
      intro vs ws m'' n'' _ hs hm''
      exact .pure hm'' (.bounce (.call hv hs))
  | .num _, he, henv, hm, hq | .str _, he, henv, hm, hq | .bool _, he, henv, hm, hq
  | .null, he, henv, hm, hq | .undefined, he, henv, hm, hq | .var _, he, henv, hm, hq
  | .array _, he, henv, hm, hq | .object _, he, henv, hm, hq | .unary .., he, henv, hm, hq
  | .binary .., he, henv, hm, hq | .logic .., he, henv, hm, hq | .member .., he, henv, hm, hq
  | .func .., he, henv, hm, hq | .assign .., he, henv, hm, hq => by
    refine .bind (eval_renamed hσ he henv hm hq) ?_
    intro v w m' n' _ hv hm'
    exact .pure hm' (.done hv)

theorem enterClosure_renamed (hσ : IsRenaming σ) {X : Set String} {i : Nat} {name : Option String}
    {params : List String} {body : List Stmt} {env env' : Env} {vs ws : List Value} {m n : Machine}
    (hbody : StmtsAvoid body (X \ boundBy name params)) (henv : EnvRenamed σ X env env')
    (hs : List.Forall₂ Value.Renamed vs ws) (hm : m.Renamed n)
    (hq : enterIsQuiet i name params body env vs m = true) :
    Lockstep Step.Renamed (enterClosure i name params body env vs)
      (enterClosure i (name.map σ) (params.map σ) (renameStmts σ body) env' ws) m n := by
  have hself := Value.Renamed.closure i hσ hbody henv
  have hscopes := henv.push hσ.injective (bindParams_renamed name params hself hs)
  rw [bindParams_names] at hscopes
  unfold enterClosure
  cases body with
  | nil => exact .malformed _ _ hm
  | cons s ss =>
    cases ss with
    | cons t ts => cases s <;> exact .malformed _ _ hm
    | nil =>
      cases s with
      | expr e => exact evalTail_renamed hσ hbody.1 hscopes hm hq
      | _ => exact .malformed _ _ hm

end Evaluation

end Chance
