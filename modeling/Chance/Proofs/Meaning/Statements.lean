import Chance.Proofs.Meaning.Expressions

/-!
# Statement lists beside direct evaluation

The code of a statement list runs until it hands the value of the list to its continuation. Where
the continuation goes on with the statements after a block, it is made in the scope at the end of
the block: so what the block declares is in scope there, as it is in the scope that `execute`
returns.

- `Completes`: code hands over the value of a list, in the scope at its end,
- `bindAll_arrives`, `ignoring_arrives`: declarations, and statements whose value is dropped,
- `stmtsSimulated`: the code of every list that keeps to the rules,
- `invoke_delivers`: calls, and with them all that was shown of code that makes calls.
-/

namespace Chance

open Compile

/-- The code hands what realizes the value to its continuation; if the continuation is a function,
it is made in a scope that realizes the one at the end. -/
def Completes (p : Juncture) (code kx : Expr) (m : Machine) (env : Env) (v : Value) : Prop :=
  Delivers p code kx m v fun π ε => p.env.Keeps p.count ε ∧ EnvRealized π env ε

section Scopes

variable {c d : Nat} {env env' env'' : Env} {p q : Juncture} {a x : String}

theorem Env.Keeps.mono (h : env.Keeps d env') (hcd : c ≤ d) : env.Keeps c env' :=
  fun x hx hfresh => h x hx fun hfresh' => hfresh (hfresh'.mono hcd)

theorem Env.Keeps.trans (h : env.Keeps c env') (h' : env'.Keeps d env'') (hcd : c ≤ d) :
    env.Keeps c env'' :=
  fun x hx hfresh => (h'.mono hcd x hx hfresh).trans (h x hx hfresh)

theorem Env.Keeps.declare (h : env.Keeps c env') (hx : ¬ IsGenerated x) (v : Value) :
    env.Keeps c ([(x, v)] :: env') := by
  intro y hy hfresh
  have hne : x ≠ y := by
    rintro rfl
    exact hx hy
  rw [lookup?_outside (List.forall_mem_singleton.2 hne)]
  exact h y hy hfresh

theorem Env.Keeps.bind (h : env.Keeps c env') (hx : IsFresh c x) (v : Value) :
    env.Keeps c ([(x, v)] :: env') := by
  intro y hy hfresh
  have hne : x ≠ y := by
    rintro rfl
    exact hfresh hx
  rw [lookup?_outside (List.forall_mem_singleton.2 hne)]
  exact h y hy hfresh

theorem Onward.trans {r : Juncture} (h : Onward p q) (h' : Onward q r) : Onward p r where
  count := h.count.trans h'.count
  keeps := h.keeps.trans h'.keeps h.count
  reaches := h.reaches.trans h'.reaches

theorem Situation.onward (h : Situation p env a) (hpq : Onward p q)
    (hscope : EnvRealized q.matching env' q.env) : Situation q env' a where
  scope := hscope
  isAddress := h.isAddress
  address := by
    rcases h.address with ⟨s, hs⟩
    refine ⟨s, ?_⟩
    rw [hpq.keeps a h.isAddress.isGenerated h.isAddress.not_isFresh, hs]
  state := hpq.reaches.state

end Scopes

section Concluding

variable {p q : Juncture} {env env' : Env} {a : String} {m : Machine} {v : Value}
  {code code' kx : Expr}

theorem Delivers.completes (h : Delivers p code kx m v fun _ => p.env.Agrees p.count)
    (hp : Situation p env a) : Completes p code kx m env v := by
  rcases h with ⟨π, n, kv, w, harrives, hkv, hreaches, hvw⟩
  have hscope := hp.scope.mono hreaches.growth.le
  refine ⟨π, n, kv, w, harrives, ?_, hreaches, hvw⟩
  cases hkv with
  | var hlookup => exact .var hlookup
  | lambda i hagrees => exact .lambda i ⟨hagrees.keeps, hscope.agrees hagrees⟩

theorem Completes.after
    (harrives : Arrives (evalTail p.env code) p.right (evalTail q.env code') q.right)
    (hpq : Onward p q) (hk : IsKont p.count p.env kx) (h : Completes q code' kx m env v) :
    Completes p code kx m env v :=
  Delivers.after harrives hpq hk h fun _ _ he => ⟨hpq.keeps.trans he.1 hpq.count, he.2⟩

/-- Statements whose value is dropped. -/
theorem ignoring_arrives {rest : Gen Expr} (hrest : rest.Counts) (hp : Situation p env a)
    (first : Build Expr)
    (h : ∀ c kx, IsKont c p.env kx →
      Completes { p with count := c } ((first kx).run c).1 kx m env' v) :
    ∃ q, Arrives (evalTail p.env ((ignoring rest >>= first).run p.count).1) p.right
        (evalTail q.env (rest.run q.count).1) q.right ∧
      Onward p q ∧ Situation q env' a ∧ q.left = m := by
  let x := generated "dummy" p.count
  let body := (rest.run (p.count + 1)).1
  let c := (rest.run (p.count + 1)).2
  have hcount : p.count + 1 ≤ c := hrest (p.count + 1)
  have hfresh : IsFresh p.count x := isFresh_generated (by decide) le_rfl
  rcases h c (.lambda [x] body) (.lambda x body) with ⟨π, n, kv, w, harrives, hkv, hreaches, hvw⟩
  generalize hkx : Expr.lambda [x] body = kx at hkv
  cases hkv with
  | var _ => cases hkx
  | @lambda y body' ε i hscope =>
    cases hkx
    let q : Juncture := ⟨⟨π, m, n⟩, p.count + 1, [(x, w)] :: ε⟩
    have hpq : Onward p q :=
      ⟨Nat.le_succ _, (hscope.1.mono ((Nat.le_succ _).trans hcount)).bind hfresh w, hreaches⟩
    have hbound : ε.Agrees p.count q.env := (Env.Agrees.refl _ _).bind hfresh w
    exact ⟨q, harrives.trans (.resume i x body ε w n), hpq,
      hp.onward hpq (hscope.2.agrees hbound), rfl⟩

end Concluding

/-! ## Declarations -/

section Declarations

variable {call : Caller} {a : String}

theorem Prepared.called {d e : Expr} (h : Prepared a d e) {x : String} (hx : ¬ IsGenerated x) :
    Prepared a (d.called x) (e.called x) := by
  rcases h with ⟨haddressed, htame, hsteady⟩
  have hsame := haddressed
  cases haddressed with
  | func name params hinner hbody =>
    cases name with
    | none =>
      exact ⟨.func (some x) params hinner hbody, ⟨by rintro y ⟨⟩; exact hx, htame.2⟩, hsteady⟩
    | some f => exact ⟨hsame, htame, hsteady⟩
  | _ => exact ⟨hsame, htame, hsteady⟩

theorem full_called {d : Expr} (h : d.isAtomic = true ∨ d.mentionsStore = false) (x : String) :
    (d.called x).isAtomic = true ∨ (d.called x).mentionsStore = false := by
  cases d with
  | func name params body => cases name <;> exact .inl rfl
  | _ => exact h

/-- After declarations the run goes on in the scope with what they declare. -/
theorem bindAll_arrives (hcall : CallsDeliver call) : ∀ {ds ds' : List (String × Expr)},
    FieldsAddressed a ds ds' →
    (∀ d ∈ ds, Demands.tame.name d.1 ∧ Demands.tame.full d.2) → fieldsMeet .tame ds →
    fieldsSteady ds' = true → ∀ {p : Juncture} {env env' : Env} {m : Machine}, Situation p env a →
    declareAll call env ds p.left = .ok env' m → ∀ {tail : Gen Expr}, tail.Counts →
    ∃ q, Arrives (evalTail p.env ((bindAll ds' tail).run p.count).1) p.right
        (evalTail q.env (tail.run q.count).1) q.right ∧
      Onward p q ∧ Situation q env' a ∧ q.left = m
  | _, _, .nil _, _, _, _, p, _, _, _, hp, hdeclared, _, _ => by
    cases hdeclared
    exact ⟨p, .of_eq rfl, ⟨le_rfl, fun _ _ _ => rfl, .refl hp.state⟩, hp, rfl⟩
  | _, _, @FieldsAddressed.cons _ d e _ ds' x he hds, hfull, htame, hsteady, p, env, env', m, hp,
      hdeclared, tail, htail => by
    rcases List.forall_mem_cons.1 hfull with ⟨hx, hfull⟩
    rcases Bool.and_eq_true_iff.1 hsteady with ⟨hsteady, hsteadys⟩
    rcases Exec.exists_ok_of_bind hdeclared with ⟨v, m₁, hv, hdeclared⟩
    have hprepared := Prepared.called ⟨he, htame.1, hsteady⟩ hx.1
    have hcode := simulated hcall hprepared
    -- The rest is generated first, so the code of the value starts with a later counter.
    let rest := ((bindAll ds' tail).run p.count).1
    let c := ((bindAll ds' tail).run p.count).2
    have hcount : p.count ≤ c := bindAll_counts ds' htail p.count
    rcases hcode.pass (p := { p with count := c }) (full_called hx.2 x)
      ⟨hp.scope, hp.isAddress, hp.address, hp.state⟩ hv (.lambda x rest) with
      ⟨π, n, kv, w, harrives, hkv, hreaches, hvw⟩
    generalize hkx : Expr.lambda [x] rest = kx at hkv
    cases hkv with
    | var _ => cases hkx
    | @lambda y body ε i hagrees =>
      cases hkx
      -- Resuming the function enters a scope with the declared variable.
      let q : Juncture := ⟨⟨π, m₁, n⟩, p.count, [(x, w)] :: ε⟩
      have hpq : Onward p q := ⟨le_rfl, (hagrees.keeps.mono hcount).declare hx.1 w, hreaches⟩
      have hscope := ((hp.scope.mono hreaches.growth.le).agrees hagrees).bind x hvw
      rcases bindAll_arrives hcall hds hfull htame.2 hsteadys (p := q) (hp.onward hpq hscope)
        hdeclared htail with ⟨r, harrives', hqr, hr, hleft⟩
      refine ⟨r, ?_, hpq.trans hqr, hr, hleft⟩
      rw [bindAll_cons]
      exact (harrives.trans (.resume i x rest ε w n)).trans harrives'

end Declarations

/-! ## Statements and lists -/

/-- The code of a statement, if it is the only one of a list. -/
def StmtSimulated (call : Caller) (a : String) (s s' : Stmt) : Prop :=
  ∀ {p : Juncture} {env env' : Env} {m : Machine} {v : Value} {kx : Expr}, Situation p env a →
    s.execute .list call env p.left = .ok (env', v) m → IsKont p.count p.env kx →
    Completes p ((sequence [s'] kx).run p.count).1 kx m env' v

/-- The code of a statement list. -/
def StmtsSimulated (call : Caller) (a : String) (ss ss' : List Stmt) : Prop :=
  ∀ {p : Juncture} {env env' : Env} {m : Machine} {v : Value} {kx : Expr}, Situation p env a →
    execute .list call env ss p.left = .ok (env', v) m → IsKont p.count p.env kx →
    Completes p ((sequence ss' kx).run p.count).1 kx m env' v

section Lists

variable {call : Caller} {a : String} {p : Juncture} {env env' : Env} {m : Machine} {v : Value}
  {kx : Expr} {rest rest' ss : List Stmt} {s : Stmt}

theorem simulated_nil (hcall : CallsDeliver call) : StmtsSimulated call a [] [] := by
  intro p env env' m v kx hp hv hk
  cases hv
  have hundefined : Simulated call a .undefined .undefined :=
    simulated hcall ⟨.undefined a, trivial, rfl⟩
  exact (hundefined.pass (.inl rfl) hp rfl hk).completes hp

theorem simulated_full (hcall : CallsDeliver call) {e e' : Expr} (h : Prepared a e e')
    (hfull : Demands.tame.full e) (hp : Situation p env a)
    (hv : evaluate call env e p.left = .ok v m) (hk : IsKont p.count p.env kx) :
    Completes p (((usage e').pass kx).run p.count).1 kx m env v :=
  ((simulated hcall h).pass hfull hp hv hk).completes hp

theorem simulated_declare (hcall : CallsDeliver call) {ds ds' : List (String × Expr)}
    (hds : FieldsAddressed a ds ds') (htame : (Stmt.declare ds).Meets .tame)
    (hsteady : fieldsSteady ds' = true) (hrest : StmtsSimulated call a rest rest')
    (hp : Situation p env a)
    (hv : (declareAll call env ds >>= fun env => execute .list call env rest) p.left =
      .ok (env', v) m) (hk : IsKont p.count p.env kx) :
    Completes p ((bindAll ds' (sequence rest' kx)).run p.count).1 kx m env' v := by
  rcases Exec.exists_ok_of_bind hv with ⟨env₁, m₁, hdeclared, hv⟩
  rcases bindAll_arrives hcall hds htame.1 htame.2 hsteady hp hdeclared
    (sequence_counts rest' kx) with ⟨q, harrives, hpq, hq, rfl⟩
  exact .after harrives hpq hk (hrest hq hv (hk.mono hpq.keeps hpq.count))

theorem execute_ifElse (blocks : BlockScope) (t : Expr) (c e : List Stmt) :
    (Stmt.ifElse t c e).execute blocks call env = evaluate call env t >>= fun u =>
      execute blocks call env (if u.truthy then c else e) >>= fun r => pure (env, r.2) := by
  rw [Stmt.execute]
  congr 1
  funext u
  dsimp only
  split_ifs <;> rfl

theorem sequence_ifElse (t : Expr) (c e : List Stmt) (k : Expr) :
    sequence [.ifElse t c e] k = nameContinuation k fun k => (usage t).use fun x => do
      let c ← sequence c k
      let e ← sequence e k
      return .cond x c e := by
  simp only [Compile.sequence, List.isEmpty_nil, if_true, pure_bind]

theorem simulated_ifElse (hcall : CallsDeliver call) {t t' : Expr} {c c' e e' : List Stmt}
    (ht : Prepared a t t') (hfull : Demands.tame.full t) (hc : StmtsSimulated call a c c')
    (he : StmtsSimulated call a e e') :
    StmtSimulated call a (.ifElse t c e) (.ifElse t' c' e') := by
  intro p env env' m v kx hp hv hk
  rw [execute_ifElse] at hv
  rcases Exec.exists_ok_of_bind hv with ⟨u, m₁, hu, hv⟩
  rcases Exec.exists_ok_of_bind hv with ⟨⟨inner, v'⟩, m₂, harm, hv⟩
  cases hv
  rw [sequence_ifElse]
  refine Delivers.completes (nameContinuation_delivers (fun _ _ _ => True) hp.state hk
    fun q k hpq hleft hk' => ?_) hp
  rcases ht.tested (simulated hcall ht) hfull (hp.advance hpq)
    (hleft ▸ hu) (sequence_counts c' (.var k)) (sequence_counts e' (.var k)) with
    ⟨r, harrives, hqr, rfl⟩
  have hr := (hp.advance hpq).advance hqr
  have hkr := hk'.mono hqr.onward.keeps hqr.count
  have hcompletes : Completes r ((if u.truthy then sequence c' (.var k) else
      sequence e' (.var k)).run r.count).1 (.var k) m inner v' := by
    split_ifs at harm ⊢
    · exact hc hr harm hkr
    · exact he hr harm hkr
  exact Delivers.after harrives hqr.onward hk' hcompletes fun _ _ _ => trivial

theorem StmtsAddressed.isEmpty_eq {ss' : List Stmt} (h : StmtsAddressed a ss ss') :
    ss'.isEmpty = ss.isEmpty := by
  cases h <;> rfl

theorem stmtsSteady_cons (h : stmtsSteady (s :: ss) = true) : stmtsSteady [s] = true := by
  cases s <;> simp_all [stmtsSteady]

theorem execute_single (blocks : BlockScope) (s : Stmt) :
    execute blocks call env [s] = s.execute blocks call env := by
  cases s with
  | ret e => rfl
  | _ => simp only [execute, List.isEmpty_nil, if_true, Prod.mk.eta, bind_pure]

theorem simulated_cons (hcall : CallsDeliver call) {s' : Stmt} (hs : StmtAddressed a s s')
    (hrests : StmtsAddressed a rest rest') (htame : s.Meets .tame)
    (hsteady : stmtsSteady (s' :: rest') = true) (hfirst : StmtSimulated call a s s')
    (hrest : stmtsSteady rest' = true → StmtsSimulated call a rest rest') :
    StmtsSimulated call a (s :: rest) (s' :: rest') := by
  cases hempty : rest.isEmpty with
  | true =>
    obtain rfl := List.isEmpty_iff.1 hempty
    obtain rfl := List.isEmpty_iff.1 (hrests.isEmpty_eq.trans hempty)
    intro p env env' m v kx hp hv hk
    rw [execute_single] at hv
    exact hfirst hp hv hk
  | false =>
    have hempty' := hrests.isEmpty_eq.trans hempty
    -- A statement whose value is dropped goes on with the rest, in the scope that it leaves.
    have hstep (hsteady : stmtsSteady rest' = true)
        (hdirect : ∀ env, execute .list call env (s :: rest) = s.execute .list call env >>= fun r =>
          execute .list call r.1 rest)
        (hcode : ∀ k, sequence (s' :: rest') k = ignoring (sequence rest' k) >>= fun after =>
          sequence [s'] after) : StmtsSimulated call a (s :: rest) (s' :: rest') := by
      intro p env env' m v kx hp hv hk
      rw [hdirect] at hv
      rcases Exec.exists_ok_of_bind hv with ⟨⟨env₁, u⟩, m₁, hu, hv⟩
      rcases ignoring_arrives (sequence_counts rest' kx) hp (fun after => sequence [s'] after)
        (fun c kx' hk' => hfirst (p := { p with count := c })
          ⟨hp.scope, hp.isAddress, hp.address, hp.state⟩ hu hk') with
        ⟨q, harrives, hpq, hq, rfl⟩
      rw [hcode]
      exact .after harrives hpq hk (hrest hsteady hq hv (hk.mono hpq.keeps hpq.count))
    cases hs with
    | empty =>
      intro p env env' m v kx hp hv hk
      simp only [execute, Stmt.execute, pure_bind, hempty] at hv
      exact hrest hsteady hp hv hk
    | ret he =>
      intro p env env' m v kx hp hv hk
      exact hfirst hp hv hk
    | declare hds =>
      intro p env env' m v kx hp hv hk
      rcases Bool.and_eq_true_iff.1 hsteady with ⟨hsteady, hsteadys⟩
      simp only [execute, Stmt.execute, bind_assoc, pure_bind, hempty] at hv
      exact simulated_declare hcall hds htame hsteady (hrest hsteadys) hp hv hk
    | expr he | block hbody | ifElse ht hc he =>
      intro p env env' m v kx hp hv hk
      refine hstep (Bool.and_eq_true_iff.1 hsteady).2 (fun env => ?_) (fun k => ?_) hp hv hk
      · simp only [execute, hempty, Bool.false_eq_true, if_false]
      · simp [Compile.sequence, hempty']

end Lists

section All

variable {call : Caller}

mutual

theorem stmtSimulated (hcall : CallsDeliver call) : ∀ {a : String} {s s' : Stmt},
    StmtAddressed a s s' → s.Meets .tame → stmtsSteady [s'] = true → StmtSimulated call a s s'
  | _, _, _, .empty _, _, _ => fun hp hv hk => simulated_nil hcall hp hv hk
  | _, _, _, .expr he, htame, hsteady => fun hp hv hk => by
    rcases Exec.exists_ok_of_bind hv with ⟨u, m₁, hu, hv⟩
    cases hv
    have hsteady' := (Bool.and_eq_true_iff.1 hsteady).1
    exact simulated_full hcall ⟨he, htame.2, hsteady'⟩ htame.1 hp hu hk
  | _, _, _, .ret he, htame, hsteady => fun hp hv hk => by
    rcases Exec.exists_ok_of_bind hv with ⟨u, m₁, hu, hv⟩
    cases hv
    exact simulated_full hcall ⟨he, htame.2, hsteady⟩ htame.1 hp hu hk
  | _, _, _, .declare hds, htame, hsteady => fun hp hv hk => by
    have hsteady' := (Bool.and_eq_true_iff.1 hsteady).1
    exact simulated_declare hcall hds htame hsteady' (simulated_nil hcall) hp hv hk
  | _, _, _, .block hbody, htame, hsteady => fun hp hv hk => by
    rcases Exec.exists_ok_of_bind hv with ⟨⟨inner, u⟩, m₁, hu, hv⟩
    cases hv
    have hsteady' := (Bool.and_eq_true_iff.1 hsteady).1
    exact stmtsSimulated hcall hbody htame hsteady' hp hu hk
  | _, _, _, .ifElse ht hc he, htame, hsteady => by
    rcases Bool.and_eq_true_iff.1 (Bool.and_eq_true_iff.1 hsteady).1 with ⟨hsteady, hsteadye⟩
    rcases Bool.and_eq_true_iff.1 hsteady with ⟨hsteadyt, hsteadyc⟩
    exact simulated_ifElse hcall ⟨ht, htame.2.1, hsteadyt⟩ htame.1
      (stmtsSimulated hcall hc htame.2.2.1 hsteadyc) (stmtsSimulated hcall he htame.2.2.2 hsteadye)

/-- The code of a statement list that keeps to the rules hands over the value of the list. -/
theorem stmtsSimulated (hcall : CallsDeliver call) : ∀ {a : String} {ss ss' : List Stmt},
    StmtsAddressed a ss ss' → stmtsMeet .tame ss → stmtsSteady ss' = true →
    StmtsSimulated call a ss ss'
  | _, _, _, .nil _, _, _ => simulated_nil hcall
  | _, _, _, .cons hs hrest, htame, hsteady =>
    simulated_cons hcall hs hrest htame.1 hsteady
      (stmtSimulated hcall hs htame.1 (stmtsSteady_cons hsteady))
      fun hsteady' => stmtsSimulated hcall hrest htame.2 hsteady'

end

end All

/-! ## Calls -/

section Calls

/-- The code of a function runs in the scope of the call, up to the continuation it is given. -/
theorem closure_delivers {call : Caller} (hcall : CallsDeliver call) {s : Sides} {i j : Nat}
    {name : Option String} {params : List String} {body : List Stmt} {κ a : String} {code : Expr}
    {env env' env₁ : Env} {vs ws : List Value} {m : Machine} {v : Value}
    (hstate : s.left.Realized s.matching s.right) (hij : s.matching.ids i j)
    (hconverted : Converted name params body κ a code)
    (henv : EnvRealized s.matching env env') (hvs : List.Forall₂ (Value.Realized s.matching) vs ws)
    (hv : execute .list call
      (bindParams (.closure i name params body env) name params vs :: env) body s.left =
      .ok (env₁, v) m) (kv : Value) (address : String) :
    ∃ π n w, Arrives
        (applyValue (.closure j name (κ :: a :: params) [.expr code] env')
          (kv :: .str address :: ws)) s.right (pure (.resume kv w)) n ∧
      Reaches s π m n ∧ v.Realized π w := by
  have hself := Value.Realized.closure hij hconverted henv
  rcases hconverted with ⟨htame, haddress, body', k, c, hbody, hsteady, rfl, hk, rfl⟩
  have hcontinuation : IsGenerated (generated "k" k) :=
    (isFresh_generated (c := k) (by decide) le_rfl).isGenerated
  -- No parameter hides the continuation or the address: those names are generated.
  have hne {x y : String} (hx : x ∈ params) (hy : IsGenerated y) : x ≠ y := by
    rintro rfl
    exact htame.2.1 x hx hy
  let self' : Value := .closure j name (generated "k" k :: a :: params)
    [.expr ((sequence body' (.var (generated "k" k))).run c).1] env'
  let scope : Env :=
    bindParams self' name (generated "k" k :: a :: params) (kv :: .str address :: ws) :: env'
  have hlookup : scope.lookup? (generated "k" k) = some kv :=
    lookup?_continuation self' name ws env' (haddress.ne_continuation ⟨k, rfl⟩)
      fun x hx => hne hx hcontinuation
  have hlookup' : scope.lookup? a = some (.str address) :=
    lookup?_address self' name ws env' fun x hx => hne hx haddress.isGenerated
  have hscope := henv.enter hself name params hvs hcontinuation haddress.isGenerated kv address
  have hp : Situation ⟨s, c, scope⟩ _ a := ⟨hscope, haddress, ⟨address, hlookup'⟩, hstate⟩
  rcases stmtsSimulated hcall hbody htame.2.2 hsteady hp hv (.var hk hlookup) with
    ⟨π, n, kv', w, harrives, hkv, hreaches, hvw⟩
  cases hkv with
  | var hfound =>
    obtain rfl : kv = kv' := Option.some.inj (hlookup.symm.trans hfound)
    exact ⟨π, n, w, harrives, hreaches, hvw⟩

/-- Calls of what realizes a function deliver what direct calls return, however deep they go. -/
theorem invoke_delivers (fuel : Nat) : CallsDeliver (invoke .list fuel) := by
  induction fuel with
  | zero =>
    intro s f f' vs ws m v _ _ _ hv
    cases hv
  | succ fuel ih =>
    intro s f f' vs ws m v hstate hf hvs hv kv address
    cases hf with
    | closure hij hconverted henv =>
      rcases Exec.exists_ok_of_bind hv with ⟨⟨env₁, u⟩, m₁, hu, hv⟩
      cases hv
      exact closure_delivers ih hstate hij hconverted henv hvs hu kv address
    | primitive q =>
      have hinPlace := ((realized_likeness s.matching).run_inStep q hvs).inPlace
      have hspared := hinPlace.spares _ _ _ hv
      rcases hinPlace.answers hv ⟨fun i hi j hij => absurd (hstate.left i j hij) (not_lt.2 hi.1),
        hstate.right⟩ with ⟨π, n, w, hw, hg, hvw, hstore⟩
      have hstores : StoreRealized π m.store n.store := by
        rw [hspared.store, hstore]
        exact fieldsRealized_mono hg.le hstate.store
      exact ⟨π, n, w, .of_eq (Exec.bind_ok hw _), ⟨hg, hspared.nextId,
        hstate.grow hg (fun i hi => hi.2) hspared.nextId hstores⟩, hvw⟩
    | _ => cases hv

end Calls

end Chance
