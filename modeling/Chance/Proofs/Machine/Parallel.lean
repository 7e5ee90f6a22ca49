import Chance.Proofs.Machine.Alike
import Chance.Proofs.Machine.Scopes

/-!
# Steps side by side

From alike states, whatever one run does the other can do as well, and the states are alike again.
`Beside` says this of two computations; the rules below follow the way computations are put
together, and there is one lemma for each function of the machine. Under the strict reading of a
setting no computation fails because of the form of the code.
-/

namespace Chance

/-- Where the first computation succeeds, the second succeeds with a related result in an alike
state; where the first fails, its state is still one of those that can occur, and under the strict
reading it does not fail for the form of the code. -/
def Beside (σ : Setting) (π : Pairing) {α β : Type} (Q : Pairing → α → β → Prop) (x : Exec α)
    (y : Exec β) (m n : Machine) : Prop :=
  match x m with
  | .ok a m' => ∃ ρ, π ≤ ρ ∧ ∃ b n', y n = .ok b n' ∧ Q ρ a b ∧ m'.Alike σ ρ n'
  | .error e m' => (σ.strict → e.isMalformed = false) ∧ ∃ ρ, π ≤ ρ ∧ ∃ n', m'.Alike σ ρ n'

/-- Related values. -/
abbrev ValueBeside (σ : Setting) (ρ : Pairing) (v w : Value) : Prop :=
  v.Alike σ.code ρ w

namespace Beside

variable {σ : Setting} {π ρ : Pairing} {α β γ δ : Type} {Q : Pairing → α → β → Prop}
  {S : Pairing → γ → δ → Prop} {m n : Machine} {x : Exec α} {y : Exec β}

/-! ## Rules -/

theorem mono (h : Beside σ ρ Q x y m n) (hπ : π ≤ ρ) : Beside σ π Q x y m n := by
  unfold Beside at h ⊢
  split at h
  · obtain ⟨τ, hτ, rest⟩ := h
    exact ⟨τ, Pairing.le_trans hπ hτ, rest⟩
  · obtain ⟨he, τ, hτ, rest⟩ := h
    exact ⟨he, τ, Pairing.le_trans hπ hτ, rest⟩

theorem weaken {Q' : Pairing → α → β → Prop} (h : Beside σ π Q x y m n)
    (hQ : ∀ ρ a b, π ≤ ρ → Q ρ a b → Q' ρ a b) : Beside σ π Q' x y m n := by
  unfold Beside at h ⊢
  split at h
  · obtain ⟨ρ, hρ, b, n', hy, hab, hn⟩ := h
    exact ⟨ρ, hρ, b, n', hy, hQ ρ _ b hρ hab, hn⟩
  · exact h

theorem pure {a : α} {b : β} (hm : m.Alike σ π n) (h : Q π a b) :
    Beside σ π Q (pure a) (pure b) m n :=
  ⟨π, π.le_refl, b, n, rfl, h, hm⟩

theorem throw {e : Error} (hm : m.Alike σ π n) (h : σ.strict → e.isMalformed = false) :
    Beside σ π Q (throw e) y m n :=
  ⟨h, π, π.le_refl, n, hm⟩

theorem bind {x : Exec α} {y : Exec β} {f : α → Exec γ} {g : β → Exec δ}
    (h : Beside σ π Q x y m n)
    (k : ∀ ρ a b m' n', π ≤ ρ → Q ρ a b → m'.Alike σ ρ n' → Beside σ ρ S (f a) (g b) m' n') :
    Beside σ π S (x >>= f) (y >>= g) m n := by
  unfold Beside at h
  unfold Beside
  simp only [Bind.bind, EStateM.bind]
  cases hx : x m with
  | error e m' =>
    rw [hx] at h
    exact h
  | ok a m' =>
    rw [hx] at h
    obtain ⟨ρ, hρ, b, n', hy, hab, hn⟩ := h
    have hk := (k ρ a b m' n' hρ hab hn).mono hρ
    unfold Beside at hk
    simpa only [hy] using hk

theorem lift {R : α → β → Prop} {x : Except Error α} {y : Except Error β} (hm : m.Alike σ π n)
    (h : Tracks R x y) : Beside σ π (fun _ => R) (liftM x) (liftM y) m n := by
  cases x with
  | error e => exact throw hm fun _ => h
  | ok a =>
    obtain ⟨b, rfl, hab⟩ := h
    exact pure (Q := fun _ => R) hm hab

theorem lift_bind {R : α → β → Prop} {x : Except Error α} {y : Except Error β} {f : α → Exec γ}
    {g : β → Exec δ} (hm : m.Alike σ π n) (h : Tracks R x y)
    (k : ∀ a b, R a b → Beside σ π S (f a) (g b) m n) :
    Beside σ π S (liftM x >>= f) (liftM y >>= g) m n := by
  cases x with
  | error e => exact throw hm fun _ => h
  | ok a =>
    obtain ⟨b, rfl, hab⟩ := h
    exact k a b hab

theorem modify_bind {f g : Machine → Machine} {x : PUnit → Exec γ} {y : PUnit → Exec δ}
    (k : Beside σ π S (x ⟨⟩) (y ⟨⟩) (f m) (g n)) :
    Beside σ π S (modify f >>= x) (modify g >>= y) m n :=
  k

/-- Both runs give out an identity. -/
theorem freshId_bind {f : Nat → Exec γ} {g : Nat → Exec δ} (hm : m.Alike σ π n)
    (k : ∀ i j m' n', π.extend.ids i j → σ.floor ≤ i → σ.floor' ≤ j → m'.Alike σ π.extend n' →
      Beside σ π.extend S (f i) (g j) m' n') :
    Beside σ π S (Exec.freshId >>= f) (Exec.freshId >>= g) m n := by
  have hids : π.extend.ids m.nextId n.nextId := hm.left ▸ hm.right ▸ π.extend_ids
  exact mono (k _ _ _ _ hids hm.floor hm.floor' hm.extend) π.le_extend

theorem newDist {d e : Dist} (hm : m.Alike σ π n) (hd : DistLike (Value.Alike σ.code π) d e) :
    Beside σ π (ValueBeside σ) (Exec.newDist d) (Exec.newDist e) m n := by
  refine freshId_bind hm ?_
  intro i j m' n' hids _ _ hm'
  exact pure hm' (.dist hids (distAlike_mono π.le_extend hd))

end Beside

/-! ## Computations in place -/

section InPlace

variable {σ : Setting} {π : Pairing} {m n : Machine}

theorem printLine_beside (vs ws : List Value) (hm : m.Alike σ π n) :
    Beside σ π (ValueBeside σ) (printLine vs) (printLine ws) m n := by
  exact ⟨π, π.le_refl, _, _, rfl, .undefined, { hm with output := nofun }⟩

theorem InPlace.beside {x y : Exec Value} (h : InPlace (Value.Alike σ.code π) x y)
    (hm : m.Alike σ π n) : Beside σ π (ValueBeside σ) x y m n := by
  induction h with
  | pure h => exact .pure hm h
  | throw h => exact .throw hm fun _ => h
  | lift h =>
    refine (Beside.lift hm h).weaken ?_
    intro ρ a b hρ hab
    exact hab.mono hρ
  | bind h _ ih => exact .lift_bind hm h ih
  | newDist h => exact .newDist hm h
  | print _ => exact printLine_beside _ _ hm

end InPlace

/-! ## Evaluation -/

section Evaluation

variable {σ : Setting} {π : Pairing} {env env' : Env} {vs ws : List Value}

theorem lookup?_alike (h : EnvAlike σ π env env') (x : String) :
    Option.Rel (Value.Alike σ.code π) (env.lookup? x) (env'.lookup? x) := by
  induction h with
  | nil => exact .none
  | cons hf _ ih =>
    rw [lookup?_cons, lookup?_cons]
    exact optionOr_rel (frameLookup_rel hf x) ih

theorem Expr.IsStoreProperty.isPlace {t : Expr} (h : t.IsStoreProperty) : t.isPlace = true := by
  unfold IsStoreProperty at h
  split at h
  · exact beq_iff_eq.2 h
  · exact h.elim

theorem evalAll_beside_of {es : List Expr} (h : ∀ e ∈ es, ∀ {π m n}, EnvAlike σ π env env' →
      m.Alike σ π n → Beside σ π (ValueBeside σ) (eval env e) (eval env' e) m n) :
    ∀ {π m n}, EnvAlike σ π env env' → m.Alike σ π n →
      Beside σ π (fun ρ => List.Forall₂ (Value.Alike σ.code ρ)) (evalAll env es) (evalAll env' es)
        m n := by
  induction es with
  | nil => exact fun _ hm => .pure hm .nil
  | cons e es ih =>
    obtain ⟨he, hes⟩ := List.forall_mem_cons.1 h
    refine fun henv hm => .bind (he henv hm) ?_
    intro ρ v w m' n' hρ hv hm'
    refine .bind (ih hes (framesAlike_mono hρ henv) hm') ?_
    intro τ vs ws m'' n'' hτ hs hm''
    exact .pure hm'' (.cons (hv.mono hτ) hs)

theorem eval_beside {e : Expr} (he : e.Within σ.code σ.strict) {π : Pairing} {m n : Machine}
    (henv : EnvAlike σ π env env') (hm : m.Alike σ π n) :
    Beside σ π (ValueBeside σ) (eval env e) (eval env' e) m n := by
  induction e using Expr.form_induction generalizing π m n with
  | num x => exact .pure hm (.num x)
  | str s => exact .pure hm (.str s)
  | bool b => exact .pure hm (.bool b)
  | null => exact .pure hm .null
  | undefined => exact .pure hm .undefined
  | var x =>
    simp only [eval]
    split_ifs
    · exact .pure hm (.object hm.store)
    · -- A variable is bound on both sides or on neither.
      have hlookup := lookup?_alike henv x
      generalize env.lookup? x = v at hlookup ⊢
      generalize env'.lookup? x = w at hlookup ⊢
      cases hlookup with
      | none => exact .throw hm fun _ => rfl
      | some hv => exact .pure hm hv
  | formed h ih =>
    -- The operands come first, from left to right; then the form computes in place.
    rw [h.eval, h.eval]
    refine .bind
      (evalAll_beside_of (fun d hd => ih d hd (h.operands Expr.Within.parts he d hd)) henv hm) ?_
    intro ρ vs ws m' n' _ hs hm'
    exact (h.inStep (alike_likeness _ ρ) hs).inPlace.beside hm'
  | logic op ihl ihr =>
    refine .bind (ihl he.1 henv hm) ?_
    intro ρ v w m' n' hρ hv hm'
    rw [(alike_likeness _ ρ).truthy_eq hv]
    have hright := ihr he.2 (framesAlike_mono hρ henv) hm'
    cases op <;> cases w.truthy
    · exact .pure hm' hv
    · exact hright
    · exact hright
    · exact .pure hm' hv
  | cond iht ihc iha =>
    refine .bind (iht he.1 henv hm) ?_
    intro ρ v w m' n' hρ hv hm'
    rw [(alike_likeness _ ρ).truthy_eq hv]
    split_ifs
    · exact ihc he.2.1 (framesAlike_mono hρ henv) hm'
    · exact iha he.2.2 (framesAlike_mono hρ henv) hm'
  | func name params body =>
    refine .freshId_bind hm ?_
    intro i j m' n' hids _ _ hm'
    exact .pure hm' (.closure hids he (framesAlike_mono π.le_extend henv))
  | assign ihp ihv =>
    simp only [eval, if_true]
    refine .bind (ihp he.2.1.2 henv hm) ?_
    intro ρ v w m' n' hρ hv hm'
    rw [(alike_likeness _ ρ).key_eq hv]
    refine .bind (ihv he.2.2 (framesAlike_mono hρ henv) hm') ?_
    intro τ v' w' m'' n'' hτ hv' hm''
    exact ⟨τ, τ.le_refl, w', _, rfl, hv', hm''.withStore (Semblance.setField hm''.store _ hv')⟩
  | call_other es hprimitive =>
    rw [eval_call_other hprimitive, eval_call_other hprimitive]
    -- Strict code has no such call; elsewhere both sides fail in the same way.
    exact .throw hm fun hstrict => absurd (he.1 hstrict) (Bool.eq_false_iff.1 hprimitive)
  | assign_other v hplace =>
    rw [eval_assign_other hplace, eval_assign_other hplace]
    refine .throw hm fun hstrict => absurd (he.1 hstrict).isPlace (Bool.eq_false_iff.1 hplace)

theorem evalAll_beside {es : List Expr} (h : ExprsWithin σ.code σ.strict es) {m n : Machine}
    (henv : EnvAlike σ π env env') (hm : m.Alike σ π n) :
    Beside σ π (fun ρ => List.Forall₂ (Value.Alike σ.code ρ)) (evalAll env es) (evalAll env' es)
      m n :=
  evalAll_beside_of (fun e he => eval_beside (exprsWithin_iff.1 h e he)) henv hm

theorem evalTail_beside {env env' : Env} {π : Pairing} {m n : Machine} :
    ∀ {e : Expr}, e.TailWithin σ.code σ.strict → EnvAlike σ π env env' → m.Alike σ π n →
      Beside σ π (Step.Alike σ) (evalTail env e) (evalTail env' e) m n
  | .cond t c a, he, henv, hm => by
    refine .bind (eval_beside he.1 henv hm) ?_
    intro ρ v w m' n' hρ hv hm'
    rw [(alike_likeness _ ρ).truthy_eq hv]
    split_ifs
    · exact evalTail_beside he.2.1 (framesAlike_mono hρ henv) hm'
    · exact evalTail_beside he.2.2 (framesAlike_mono hρ henv) hm'
  | .call f args, he, henv, hm => by
    simp only [evalTail]
    split_ifs with hprimitive
    · have hcall : (Expr.call f args).Within σ.code σ.strict := ⟨fun _ => hprimitive, he.2⟩
      refine .bind (eval_beside hcall henv hm) ?_
      intro ρ v w m' n' _ hv hm'
      exact .pure hm' (.done hv)
    · refine .bind (eval_beside he.2.1 henv hm) ?_
      intro ρ v w m' n' hρ hv hm'
      refine .bind (evalAll_beside he.2.2 (framesAlike_mono hρ henv) hm') ?_
      intro τ vs ws m'' n'' hτ hs hm''
      exact .pure hm'' (.bounce (.call (hv.mono hτ) hs))
  | .num _, he, henv, hm | .str _, he, henv, hm | .bool _, he, henv, hm | .null, he, henv, hm
  | .undefined, he, henv, hm | .var _, he, henv, hm | .array _, he, henv, hm
  | .object _, he, henv, hm | .unary .., he, henv, hm | .binary .., he, henv, hm
  | .logic .., he, henv, hm | .member .., he, henv, hm | .func .., he, henv, hm
  | .assign .., he, henv, hm => by
    refine .bind (eval_beside he.2 henv hm) ?_
    intro ρ v w m' n' _ hv hm'
    exact .pure hm' (.done hv)

theorem Likeness.bindParams {R : Value → Value → Prop} (L : Likeness R) {self self' : Value}
    (name : Option String) (params : List String) (hself : R self self')
    (hs : List.Forall₂ R vs ws) : List.Forall₂ (FieldLike R) (bindParams self name params vs)
      (bindParams self' name params ws) := by
  refine List.rel_append ?_ ?_
  · cases name with
    | none => exact .nil
    | some f => exact .cons ⟨hself⟩ .nil
  · rw [List.forall₂_map_left_iff, List.forall₂_map_right_iff, List.forall₂_same]
    rintro ⟨x, i⟩ _
    exact ⟨L.argument hs i⟩

theorem enterClosure_beside {m n : Machine} {i j : Nat} {name : Option String}
    {params : List String} {body : List Stmt} (hids : π.ids i j) (hcode : σ.code name params body)
    (henv : EnvAlike σ π env env') (hs : List.Forall₂ (Value.Alike σ.code π) vs ws)
    (hm : m.Alike σ π n) : Beside σ π (Step.Alike σ) (enterClosure i name params body env vs)
      (enterClosure j name params body env' ws) m n := by
  have hself : (Value.closure i name params body env).Alike σ.code π
      (.closure j name params body env') := .closure hids hcode henv
  obtain ⟨htail, hone⟩ := σ.sound hcode
  have hframe := (alike_likeness _ π).bindParams name params hself hs
  unfold enterClosure
  split
  · rename_i e
    exact evalTail_beside (htail e rfl) (.cons hframe henv) hm
  · rename_i hbody
    refine .throw hm fun hstrict => ?_
    obtain ⟨e, he⟩ := hone hstrict
    exact (hbody e he).elim

end Evaluation

end Chance
