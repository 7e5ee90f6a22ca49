import Chance.Proofs.Meaning.Handing

/-!
# Expressions beside direct evaluation

Where direct evaluation of an expression succeeds, the code that is made for the expression does
what it was made for: it hands the value to its continuation, or it makes the value available to
whatever is built next. This is proved form by form, from what is known of the parts.

- `CallsDeliver`: what has to be known of calls,
- `Simulated`: what is shown of an expression and its code,
- `simulated`: it holds of every expression that keeps to the rules.
-/

namespace Chance

open Compile

/-- Where a call succeeds directly, calling what realizes the function delivers the result. -/
def CallsDeliver (call : Caller) : Prop :=
  ∀ {s : Sides} {f f' : Value} {vs ws : List Value} {m : Machine} {v : Value},
    s.left.Realized s.matching s.right → f.Realized s.matching f' →
    List.Forall₂ (Value.Realized s.matching) vs ws → call f vs s.left = .ok v m →
    ∀ (kv : Value) (address : String), ∃ π n w,
      Arrives (applyValue f' (kv :: .str address :: ws)) s.right (pure (.resume kv w)) n ∧
      Reaches s π m n ∧ v.Realized π w

/-- The code of an expression does what it was made for. An expression that mentions the store has
to be atomic, since the store may be another one after a call. -/
structure Simulated (call : Caller) (a : String) (d e : Expr) : Prop where
  use : d.mentionsStore = false → ∀ {p : Juncture} {env : Env} {m : Machine} {v : Value},
    Situation p env a → evaluate call env d p.left = .ok v m →
    Used p (usage e).use m (fun x ε => eval ε x) (Fits e) fun τ w => v.Realized τ w
  pass : (d.isAtomic = true ∨ d.mentionsStore = false) →
    ∀ {p : Juncture} {env : Env} {m : Machine} {v : Value} {kx : Expr},
    Situation p env a → evaluate call env d p.left = .ok v m → IsKont p.count p.env kx →
    Delivers p (((usage e).pass kx).run p.count).1 kx m v fun _ => p.env.Agrees p.count

section Atomic

variable {call : Caller} {a : String} {d e kx : Expr} {p : Juncture} {env : Env} {m : Machine}
  {v : Value}

theorem Prepared.used (h : Prepared a d e) (hatomic : d.isAtomic = true)
    (hstore : d.mentionsStore = false) (hp : Situation p env a)
    (hv : evaluate call env d p.left = .ok v m) :
    Used p (usage e).use m (fun x ε => eval ε x) (Fits e) fun τ w => v.Realized τ w := by
  have hatomic' := h.addressed.isAtomic_eq.trans hatomic
  have huse : (usage e).use = fun build => (usage e).keep >>= build :=
    funext (usage_use hatomic')
  have hkept := keep_kept call hp.scope h hatomic p.count
  rw [hstore] at hkept
  rw [huse]
  exact .kept (usage_counts e).keep hp.state (hkept.settles hv) (hkept.mirrored hv)
    ((usage_meets e).keep hatomic' p.count).1

theorem Prepared.evaluable (h : Prepared a d e)
    (huse : d.mentionsStore = false →
      Used p (usage e).use m (fun x ε => eval ε x) (Fits e) fun τ w => v.Realized τ w)
    (hfull : d.isAtomic = true ∨ d.mentionsStore = false) (hp : Situation p env a)
    (hv : evaluate call env d p.left = .ok v m) (build : Build Expr)
    (hbuild : ∀ x, (build x).Counts) :
    ∃ q x, Arrives (evalTail p.env (((usage e).use build).run p.count).1) p.right
        (evalTail q.env ((build x).run q.count).1) q.right ∧
      Advance p q ∧ Evaluable p q m x v (d.writes = false) := by
  rcases hfull with hatomic | hstore
  · have hatomic' := h.addressed.isAtomic_eq.trans hatomic
    have hkept := keep_kept call hp.scope h hatomic p.count
    rw [usage_use hatomic']
    refine ⟨{ p with count := ((usage e).keep.run p.count).2 }, ((usage e).keep.run p.count).1,
      .of_eq rfl, ⟨(usage_counts e).keep p.count, .refl _ _, .refl hp.state⟩,
      (hkept.mirrored hv).evaluable hp.state (hkept.settles hv).nextId
        fun hcalm => eval_spares _ ?_⟩
    have hsame := anywhere_keep Form.isAssignment e p.count
    exact (hsame.trans (h.addressed.anywhere_eq Form.isAssignment hatomic)).trans hcalm
  · rcases huse hstore build hbuild with ⟨q, x, harrives, hpq, rfl, howed, _⟩
    exact ⟨q, x, harrives, hpq, howed.evaluable hpq _⟩

theorem Prepared.delivers (h : Prepared a d e) (huse : d.mentionsStore = false →
      Used p (usage e).use m (fun x ε => eval ε x) (Fits e) fun τ w => v.Realized τ w)
    (hfull : d.isAtomic = true ∨ d.mentionsStore = false) (hp : Situation p env a)
    (hv : evaluate call env d p.left = .ok v m) (hk : IsKont p.count p.env kx)
    (hpass : (usage e).pass kx = (usage e).use fun x => pure (resume kx x)) :
    Delivers p (((usage e).pass kx).run p.count).1 kx m v fun _ => p.env.Agrees p.count := by
  rcases h.evaluable huse hfull hp hv (fun x => pure (resume kx x)) fun _ => .pure _ with
    ⟨q, x, harrives, hpq, heval⟩
  rw [hpass]
  exact heval.delivers hpq hk le_rfl rfl harrives

theorem Prepared.delivers_kept (h : Prepared a d e) (hatomic : d.isAtomic = true)
    (hplain : e.isChoice = false) (hp : Situation p env a)
    (hv : evaluate call env d p.left = .ok v m) (hk : IsKont p.count p.env kx) :
    Delivers p (((usage e).pass kx).run p.count).1 kx m v fun _ => p.env.Agrees p.count := by
  have hatomic' := h.addressed.isAtomic_eq.trans hatomic
  refine h.delivers (fun hstore => h.used hatomic hstore hp hv) (.inl hatomic) hp hv hk ?_
  rw [pass_eq_resume kx hatomic' hplain, usage_use hatomic']

end Atomic

/-! ## Ways of making code -/

namespace Simulated

variable {call : Caller} {a : String} {d e : Expr}

theorem kept (h : Prepared a d e) (hatomic : d.isAtomic = true) (hplain : e.isChoice = false) :
    Simulated call a d e where
  use := fun hstore _ _ _ _ hp hv => h.used hatomic hstore hp hv
  pass := fun _ _ _ _ _ _ hp hv hk => h.delivers_kept hatomic hplain hp hv hk

theorem named (h : Prepared a d e) (hnamed : e.isAtomic = false → e.isNamed = true)
    (hpass : (d.isAtomic = true ∨ d.mentionsStore = false) →
      ∀ {p : Juncture} {env : Env} {m : Machine} {v : Value} {kx : Expr},
      Situation p env a → evaluate call env d p.left = .ok v m → IsKont p.count p.env kx →
      Delivers p (((usage e).pass kx).run p.count).1 kx m v fun _ => p.env.Agrees p.count) :
    Simulated call a d e where
  use := by
    intro hstore p env m v hp hv
    cases hatomic : d.isAtomic with
    | true => exact h.used hatomic hstore hp hv
    | false =>
      have hatomic' := h.addressed.isAtomic_eq.trans hatomic
      rw [use_of_isNamed (hnamed hatomic')]
      refine .named (fun c kx hk => ?_) fun x => .name (hnamed hatomic') x
      exact hpass (.inr hstore) (p := { p with count := c })
        ⟨hp.scope, hp.isAddress, hp.address, hp.state⟩ hv hk
  pass := hpass

theorem through {inner : Build Expr → Gen Expr} (hinner : Through e inner) (h : Prepared a d e)
    (hplain : e.isChoice = false)
    (huse : d.mentionsStore = false → ∀ {p : Juncture} {env : Env} {m : Machine} {v : Value},
      Situation p env a → evaluate call env d p.left = .ok v m →
      Used p inner m (fun x ε => eval ε x) (fun x => e.isNamed = false → Fits e x)
        fun τ w => v.Realized τ w) :
    Simulated call a d e := by
  cases hatomic : d.isAtomic with
  | true => exact kept h hatomic hplain
  | false =>
    have hpass (hfull : d.isAtomic = true ∨ d.mentionsStore = false) {p : Juncture} {env : Env}
        {m : Machine} {v : Value} {kx : Expr} (hp : Situation p env a)
        (hv : evaluate call env d p.left = .ok v m) (hk : IsKont p.count p.env kx) :
        Delivers p (((usage e).pass kx).run p.count).1 kx m v fun _ => p.env.Agrees p.count := by
      rw [hinner.pass]
      exact (huse (hfull.resolve_left (by simp [hatomic])) hp hv).delivers hk
    cases hnamed : e.isNamed with
    | true => exact named h (fun _ => hnamed) hpass
    | false =>
      refine ⟨fun hstore p env m v hp hv => ?_, hpass⟩
      rw [hinner.use hnamed]
      exact (huse hstore hp hv).map id id (fun _ _ _ => (bind_pure _).symm) (fun _ _ hw => hw)
        fun _ hx => hx hnamed

end Simulated

/-! ## Forms around operands -/

/-- Several expressions, from the left to the right. -/
def SimulatedAll (call : Caller) (a : String) (ds es : List Expr) : Prop :=
  anywhereIn (· == .name Expr.storeName) ds = false →
    ∀ {p : Juncture} {env : Env} {m : Machine} {vs : List Value},
    Situation p env a → evaluateAll call env ds p.left = .ok vs m →
    Used p (Usage.useAll (usageAll es)) m (fun xs ε => evalAll ε xs) (List.Forall₂ Fits es)
      fun τ ws => List.Forall₂ (Value.Realized τ) vs ws

section Operands

variable {call : Caller} {a : String} {d e : Expr} {ds es : List Expr} {wrap : List Expr → Expr}
  {make : List Value → Exec Value}

theorem simulatedAll_of (ih : ∀ d ∈ ds, ∀ {e}, Prepared a d e → Simulated call a d e)
    (h : List.Forall₂ (Prepared a) ds es) : SimulatedAll call a ds es := by
  induction h with
  | nil =>
    intro _ p env m vs hp hvs
    cases hvs
    exact .piece hp.state (fun _ => .pure fun _ _ => .nil) .nil
  | @cons d e ds es he _ ihs =>
    intro hstore p env m vs hp hvs
    rcases Bool.or_eq_false_iff.1 hstore with ⟨hstore, hstores⟩
    rcases Exec.exists_ok_of_bind hvs with ⟨u, m₁, hu, hvs⟩
    rcases Exec.exists_ok_of_bind hvs with ⟨us, m₂, hus, hvs⟩
    cases hvs
    have hrest (q : Juncture) (hpq : Advance p q) (hleft : q.left = m₁) :=
      ihs (fun d hmem => ih d (.tail _ hmem)) hstores (hp.advance hpq) (hleft ▸ hus)
    have hpair := ((ih d List.mem_cons_self he).use hstore hp hu).pair hrest
      (fun _ hbuild => Usage.useAll_counts (usageAll_counts es) hbuild) (persists_realized u)
    refine hpair.map (fun xs => xs.1 :: xs.2) (fun r => r.1 :: r.2) (fun xs ε _ => ?_)
      (fun _ _ hs => List.Forall₂.cons hs.1 hs.2) fun _ hxs =>
        List.Forall₂.cons hxs.1 hxs.2
    simp only [evalAll, bind_assoc, pure_bind]

theorem Formed.isChoice_eq (h : Formed e es wrap make) : e.isChoice = false := by
  cases h <;> rfl

theorem Formed.fits (h : Formed e es wrap make) (hnamed : e.isNamed = false) {xs : List Expr}
    (hs : List.Forall₂ Fits es xs) : Fits e (wrap xs) := by
  cases h with
  | member =>
    obtain _ | ⟨ho, _ | ⟨hp, ⟨⟩⟩⟩ := hs
    exact ho.member hp
  | array | object | unary => exact ⟨rfl, rfl, rfl⟩
  | binary | method => exact ⟨by rw [hnamed]; rfl, rfl, rfl⟩

theorem simulated_formed (hform : Formed d ds wrap make) (hform' : Formed e es wrap make)
    (h : Prepared a d e) (hds : SimulatedAll call a ds es) : Simulated call a d e := by
  refine .through hform'.through h hform'.isChoice_eq fun hstore p env m v hp hv => ?_
  rw [hform.evaluate] at hv
  rw [hform.mentionsStore_eq] at hstore
  rcases Exec.exists_ok_of_bind hv with ⟨vs, m₁, hvs, hv⟩
  exact (hds hstore hp hvs).inPlace wrap make (fun xs ε hs => (hform'.residue hs).eval ε)
    (fun ρ ws hs => (hform.inStep (realized_likeness ρ) hs).inPlace) hv
    ((hform.itself vs).spares _ _ _ hv) fun xs hs hnamed => hform'.fits hnamed hs

theorem simulated_assign {d' e' : Expr} (h : Prepared a (.assign d d') (.assign e e')) :
    Simulated call a (.assign d d') (.assign e e') := by
  refine .through (through_assign e e') h rfl fun hstore p env m v hp hv => ?_
  have htarget : d.isPlace = false := by
    cases d with
    | member o q =>
      cases o with
      | var x =>
        refine beq_eq_false_iff_ne.2 ?_
        rintro rfl
        simp [Expr.mentionsStore, Expr.anywhere] at hstore
      | _ => rfl
    | _ => rfl
  rw [evaluate_assign_other htarget] at hv
  cases hv

end Operands

/-! ## Calls -/

section Calls

variable {call : Caller} {a fragment : String} {ds es : List Expr} {env : Env} {f : Expr}

theorem extended_piece {c : Nat} {π : Matching} {V : View} {address : String}
    (ha : IsAddressName a) (h : env.lookup? a = some (.str address)) (s : String) :
    Piece c env π (fun ε => eval ε (extended a (.str s))) V V ∅
      fun _ w => w = .str (address ++ s) := by
  intro ε ρ n hagrees _ _ hV
  have hfound : ε.lookup? a = some (.str address) := by
    rw [hagrees a ha.not_isFresh, h]
  refine ⟨ρ, n, _, ?_, .refl _ ρ n, rfl, hV⟩
  simp only [extended, eval, Expr.isPrimitive, evalAll, if_neg ha.ne_storeName, hfound]
  rfl

theorem evaluate_call (h : f.isPrimitive = false) : evaluate call env (.call f ds) =
      evaluate call env f >>= fun g => evaluateAll call env ds >>= fun vs => call g vs := by
  cases f with
  | member o q => simp only [evaluate, h, Bool.false_eq_true, if_false, bind_assoc]
  | _ => rfl

theorem pass_call (h : f.isPrimitive = false) (kx : Expr) :
    (usage (.call f (extended a (.str fragment) :: es))).pass kx =
      (usage f).use fun x => Usage.useAll (usageAll es) fun xs =>
        pure (.call x (kx :: extended a (.str fragment) :: xs)) := by
  simp only [usage, Usage.call, Usage.make, h, Bool.false_eq_true, if_false, usageAll, Usage.useAll]
  rfl

theorem evalTail_call (env : Env) (h : f.isPrimitive = false) (kx x : Expr) (es : List Expr) :
    evalTail env (.call f (kx :: x :: es)) = (do
      let g ← eval env f
      let kv ← eval env kx
      let w ← eval env x
      let ws ← evalAll env es
      return .bounce (.call g (kv :: w :: ws))) := by
  simp only [evalTail, h, Bool.false_eq_true, if_false, evalAll, bind_assoc, pure_bind]

theorem simulated_call (hcall : CallsDeliver call) {f' : Expr}
    (h : Prepared a (.call f ds) (.call f' (extended a (.str fragment) :: es)))
    (hprimitive : f.isPrimitive = false) (hprimitive' : f'.isPrimitive = false)
    (hturns : f'.turnsPrimitive = false) (hf : Simulated call a f f')
    (hds : SimulatedAll call a ds es) :
    Simulated call a (.call f ds) (.call f' (extended a (.str fragment) :: es)) := by
  have hatomic : (Expr.call f ds).isAtomic = false := by
    rw [Expr.isAtomic, hprimitive, Bool.false_and, Bool.false_and]
  refine .named h (fun hatomic' => by simp [Expr.isNamed, hatomic'])
    fun hfull p env m v kx hp hv hk => ?_
  have hstore := hfull.resolve_left (by simp [hatomic])
  rcases Bool.or_eq_false_iff.1 hstore with ⟨hstore, hstores⟩
  rw [evaluate_call hprimitive] at hv
  rcases Exec.exists_ok_of_bind hv with ⟨g, m₁, hg, hv⟩
  rcases Exec.exists_ok_of_bind hv with ⟨vs, m₂, hvs, hv⟩
  rcases hp.address with ⟨address, haddress⟩
  -- After the callee come the continuation, the address and the arguments.
  have hkont (q : Juncture) (hpq : Advance p q) (hleft : q.left = m₁) :
      Used q (fun build => build kx) m₁ (fun x ε => eval ε x) (· = kx)
        fun _ kv => Kont p.env (p.env.Agrees p.count) kx kv := by
    rw [← hleft]
    exact .piece hpq.reaches.state
      (fun s => hk.piece.later hpq.agrees hpq.count (Matching.le_refl _)) rfl
  have haddressed (q : Juncture) (hpq : Advance p q) (hleft : q.left = m₁) :
      Used q (fun build => build (extended a (.str fragment))) m₁ (fun x ε => eval ε x)
        (· = extended a (.str fragment)) fun _ w => w = .str (address ++ fragment) := by
    rw [← hleft]
    refine .piece hpq.reaches.state (fun s => extended_piece hp.isAddress ?_ fragment) rfl
    rw [hpq.agrees a hp.isAddress.not_isFresh, haddress]
  have hargs (q : Juncture) (hpq : Advance p q) (hleft : q.left = m₁) :
      Used q (Usage.useAll (usageAll es)) m₂ (fun xs ε => evalAll ε xs)
        (List.Forall₂ Fits es) fun τ ws => List.Forall₂ (Value.Realized τ) vs ws :=
    hds hstores (hp.advance hpq) (hleft ▸ hvs)
  have hpersists := (persists_realized g).and
    (persists_const (Kont p.env (p.env.Agrees p.count) kx))
  have hcallee := (hf.use hstore hp hg).pair hkont (fun _ hbuild => hbuild kx) (persists_realized g)
  have hfirst := hcallee.pair haddressed (fun _ hbuild => hbuild _) hpersists
  have hparts := hfirst.pair hargs
    (fun _ hbuild => Usage.useAll_counts (usageAll_counts es) hbuild)
    (hpersists.and (persists_const fun w => w = Value.str (address ++ fragment)))
  rcases hparts (fun x => pure (.call x.1.1.1 (x.1.1.2 :: x.1.2 :: x.2))) fun _ => .pure _ with
    ⟨q, ⟨⟨⟨f'', kx'⟩, x⟩, xs⟩, harrives, hpq, rfl, howed, ⟨⟨hfits, hkx⟩, hx⟩, _⟩
  dsimp only at hkx hx
  subst kx' x
  rcases howed.answers hpq le_rfl rfl with
    ⟨π, n, ⟨⟨⟨g', kv⟩, w⟩, ws⟩, heval, hreaches, ⟨⟨⟨hg', hkv⟩, hw⟩, hws⟩, _⟩
  dsimp only at hg' hkv hw hws
  subst w
  have hprimitive'' : f''.isPrimitive = false := by
    rw [hfits.isPrimitive, hprimitive', hturns]
    rfl
  have hbounce : evalTail q.env (.call f'' (kx :: extended a (.str fragment) :: xs)) q.right =
      .ok (.bounce (.call g' (kv :: .str (address ++ fragment) :: ws))) n := by
    rw [evalTail_call q.env hprimitive'']
    refine Eq.trans ?_ (Exec.bind_ok heval fun r =>
      pure (Step.bounce (.call r.1.1.1 (r.1.1.2 :: r.1.2 :: r.2))))
    simp only [bind_assoc, pure_bind]
  rcases hcall (s := ⟨π, q.left, n⟩) hreaches.state hg' hws hv kv (address ++ fragment) with
    ⟨τ, n', w, harrives', hreaches', hw⟩
  rw [pass_call hprimitive']
  exact ⟨τ, n', kv, w, (harrives.trans (.of_bounce hbounce)).trans harrives', hkv,
    hreaches.trans hreaches', hw⟩

end Calls

/-! ## Choices -/

section Choices

variable {call : Caller} {a : String} {env : Env} {t t' x : Expr} {n n' : Machine} {w : Value}

theorem evalTail_cond (h : eval env x n = .ok w n') (c c' : Expr) :
    evalTail env (.cond x c c') n = evalTail env (if w.truthy then c else c') n' := by
  rw [evalTail, Exec.bind_ok h]
  split_ifs <;> rfl

theorem Prepared.tested (h : Prepared a t t') (ht : Simulated call a t t')
    (hfull : t.isAtomic = true ∨ t.mentionsStore = false) {p : Juncture} {u : Value} {m : Machine}
    (hp : Situation p env a) (hu : evaluate call env t p.left = .ok u m) {yes no : Gen Expr}
    (hyes : yes.Counts) (hno : no.Counts) : ∃ q, Arrives
        (evalTail p.env (((usage t').use fun x => do
          let c ← yes
          let c' ← no
          return .cond x c c').run p.count).1) p.right
        (evalTail q.env ((if u.truthy then yes else no).run q.count).1) q.right ∧
      Advance p q ∧ q.left = m := by
  rcases h.evaluable (fun hstore => ht.use hstore hp hu) hfull hp hu
    (fun x => yes >>= fun c => no >>= fun c' => pure (.cond x c c'))
    fun _ => .bind hyes fun _ => .bind hno fun _ => .pure _ with ⟨q, x, harrives, hpq, heval⟩
  rcases heval q.right le_rfl rfl with ⟨π, n, w, hw, hreaches, huw, _⟩
  have htail := evalTail_cond hw (yes.run q.count).1 (no.run (yes.run q.count).2).1
  rw [← (realized_likeness π).truthy_eq huw] at htail
  cases htruthy : u.truthy with
  | true =>
    rw [htruthy, if_pos rfl] at htail
    exact ⟨⟨⟨π, m, n⟩, q.count, q.env⟩, harrives.trans (.of_eq htail),
      ⟨hpq.count, hpq.agrees, hreaches⟩, rfl⟩
  | false =>
    rw [htruthy, if_neg Bool.false_ne_true] at htail
    exact ⟨⟨⟨π, m, n⟩, (yes.run q.count).2, q.env⟩, harrives.trans (.of_eq htail),
      ⟨hpq.count.trans (hyes q.count), hpq.agrees, hreaches⟩, rfl⟩

theorem simulated_cond {c c' e e' : Expr} (h : Prepared a (.cond t c e) (.cond t' c' e'))
    (ht' : Prepared a t t') (ht : Simulated call a t t') (hc : Simulated call a c c')
    (he : Simulated call a e e') : Simulated call a (.cond t c e) (.cond t' c' e') := by
  refine .named h (fun hatomic => by simp [Expr.isNamed, hatomic])
    fun hfull p env m v kx hp hv hk => ?_
  have hparts : (t.isAtomic = true ∨ t.mentionsStore = false) ∧
      (c.isAtomic = true ∨ c.mentionsStore = false) ∧
      (e.isAtomic = true ∨ e.mentionsStore = false) := by
    rcases hfull with hatomic | hstore
    · simp only [Expr.isAtomic, Bool.and_eq_true] at hatomic
      exact ⟨.inl hatomic.1.1, .inl hatomic.1.2, .inl hatomic.2⟩
    · rcases Bool.or_eq_false_iff.1 hstore with ⟨hstore, hstoree⟩
      rcases Bool.or_eq_false_iff.1 hstore with ⟨hstoret, hstorec⟩
      exact ⟨.inr hstoret, .inr hstorec, .inr hstoree⟩
  rcases Exec.exists_ok_of_bind hv with ⟨u, m₁, hu, hv⟩
  refine nameContinuation_delivers (fun q _ => q.env.Agrees q.count) hp.state hk
    fun q k hpq hleft hk' => ?_
  rcases ht'.tested ht hparts.1 (hp.advance hpq) (hleft ▸ hu) ((usage_counts c').pass (.var k))
    ((usage_counts e').pass (.var k)) with ⟨r, harrives, hqr, rfl⟩
  have hr := (hp.advance hpq).advance hqr
  have hkr := hk'.mono hqr.agrees.keeps hqr.count
  have hdelivers : Delivers r ((if u.truthy then (usage c').pass (.var k) else
      (usage e').pass (.var k)).run r.count).1 (.var k) m v fun _ => r.env.Agrees r.count := by
    split_ifs at hv ⊢
    · exact hc.pass hparts.2.1 hr hv hkr
    · exact he.pass hparts.2.2 hr hv hkr
  exact hdelivers.after harrives hqr.onward hk' fun _ _ he => hqr.agrees.trans he hqr.count

/-- Code for a short way and a long way. -/
def LogicOp.choice (op : LogicOp) (x short long : Expr) : Expr :=
  match op with
  | .or => .cond x short long
  | .and => .cond x long short

theorem evalTail_choice (op : LogicOp) (h : eval env x n = .ok w n') (short long : Expr) :
    evalTail env (op.choice x short long) n =
      evalTail env (if op.decidedBy w then short else long) n' := by
  cases op <;> cases htruthy : w.truthy <;>
    simp [LogicOp.choice, LogicOp.decidedBy, evalTail_cond h, htruthy]

theorem pass_logic (op : LogicOp) (l r kx : Expr) :
    (usage (.logic l r op)).pass kx = nameContinuation kx fun k => (usage l).use fun x =>
      (usage r).pass k >>= fun long => pure (op.choice x (resume k x) long) := by
  cases op <;> rfl

/-- The left operand is tested, and evaluated once more if its value is that of the whole. -/
theorem simulated_logic {l l' r r' : Expr} {op : LogicOp}
    (h : Prepared a (.logic l r op) (.logic l' r' op)) (hl' : Prepared a l l')
    (hcalm : l.writes = false) (hl : Simulated call a l l') (hr : Simulated call a r r') :
    Simulated call a (.logic l r op) (.logic l' r' op) := by
  refine .named h (fun hatomic => by simp [Expr.isNamed, hatomic])
    fun hfull p env m v kx hp hv hk => ?_
  have hparts : (l.isAtomic = true ∨ l.mentionsStore = false) ∧
      (r.isAtomic = true ∨ r.mentionsStore = false) := by
    rcases hfull with hatomic | hstore
    · simp only [Expr.isAtomic, Bool.and_eq_true] at hatomic
      exact ⟨.inl hatomic.1, .inl hatomic.2⟩
    · rcases Bool.or_eq_false_iff.1 hstore with ⟨hstorel, hstorer⟩
      exact ⟨.inr hstorel, .inr hstorer⟩
  rw [evaluate_logic] at hv
  rcases Exec.exists_ok_of_bind hv with ⟨u, m₁, hu, hv⟩
  rw [pass_logic]
  refine nameContinuation_delivers (fun q _ => q.env.Agrees q.count) hp.state hk
    fun q k hpq hleft hk' => ?_
  have hq := hp.advance hpq
  rw [← hleft] at hu
  rcases hl'.evaluable (fun hstore => hl.use hstore hq hu) hparts.1 hq hu
    (fun x => (usage r').pass (.var k) >>= fun long =>
      pure (op.choice x (resume (.var k) x) long))
    (fun _ => .bind ((usage_counts r').pass _) fun _ => .pure _) with
    ⟨s, x, harrives, hqs, heval⟩
  -- The test evaluates the left operand in place, which writes nothing.
  rcases heval s.right le_rfl rfl with ⟨π, n, w, hw, hreaches, huw, hn, hstore⟩
  have hdecided := (op.decidedBy_eq ((realized_likeness π).truthy_eq huw)).symm
  have htail := evalTail_choice op hw (resume (.var k) x)
    (((usage r').pass (.var k)).run s.count).1
  rw [hdecided] at htail
  split_ifs at hv htail
  · cases hv
    -- The left operand decides. It is evaluated again and its value is handed on.
    exact heval.delivers hqs hk' hn (hstore hcalm) (harrives.trans (.of_eq htail))
  · let t : Juncture := ⟨⟨π, m₁, n⟩, s.count, s.env⟩
    have hqt : Advance q t := ⟨hqs.count, hqs.agrees, hreaches⟩
    have hdelivers := hr.pass (p := t) hparts.2 (hq.advance hqt) hv
      (hk'.mono hqt.agrees.keeps hqt.count)
    exact hdelivers.after (q := t) (harrives.trans (.of_eq htail)) hqt.onward hk'
      fun _ _ he => hqt.agrees.trans he hqt.count

end Choices

/-! ## All expressions -/

/-- The code of an expression that keeps to the rules does what it was made for. -/
theorem simulated {call : Caller} (hcall : CallsDeliver call) {a : String} {d e : Expr}
    (h : Prepared a d e) : Simulated call a d e := by
  induction d using Expr.form_induction generalizing e with
  | num | str | bool | null | undefined | var | func =>
    cases h.addressed
    exact .kept h rfl rfl
  | formed hform ih =>
    obtain ⟨es, hform', hes⟩ := h.formed hform
    exact simulated_formed hform hform' h (simulatedAll_of ih hes)
  | logic op ihl ihr =>
    cases h.addressed with
    | logic _ hl hr =>
      rcases Bool.and_eq_true_iff.1 h.steady with ⟨hsteadyl, hsteadyr⟩
      have hl : Prepared _ _ _ := ⟨hl, h.tame.2.1, hsteadyl⟩
      exact simulated_logic h hl h.tame.1 (ihl hl) (ihr ⟨hr, h.tame.2.2, hsteadyr⟩)
  | cond iht ihc iha =>
    cases h.addressed with
    | cond ht hc ha =>
      rcases Bool.and_eq_true_iff.1 h.steady with ⟨hsteady, hsteadya⟩
      rcases Bool.and_eq_true_iff.1 hsteady with ⟨hsteadyt, hsteadyc⟩
      have ht : Prepared _ _ _ := ⟨ht, h.tame.1, hsteadyt⟩
      exact simulated_cond h ht (iht ht) (ihc ⟨hc, h.tame.2.1, hsteadyc⟩)
        (iha ⟨ha, h.tame.2.2, hsteadya⟩)
  | call_other ds hprimitive ihf ihs =>
    cases h.addressed with
    | method hprimitive' => exact absurd (hprimitive.symm.trans hprimitive') Bool.false_ne_true
    | call fragment _ hf hes =>
      rcases Bool.and_eq_true_iff.1 h.steady with ⟨hsteady, hsteadyes⟩
      rcases Bool.and_eq_true_iff.1 hsteady with ⟨hturns, hsteadyf⟩
      exact simulated_call hcall h hprimitive (hf.isPrimitive_eq.trans hprimitive)
        (Bool.not_eq_true' _ ▸ hturns) (ihf ⟨hf, h.tame.1, hsteadyf⟩)
        (simulatedAll_of ihs (prepared_all hes h.tame.2 (Bool.and_eq_true_iff.1 hsteadyes).2))
  | assign | assign_other =>
    cases h.addressed
    exact simulated_assign h

end Chance
