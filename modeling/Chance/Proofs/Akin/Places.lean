import Chance.Proofs.Akin.Indexed
import Chance.Proofs.Renaming.Syntax

/-!
# Code side by side

While two runs do the same they are at a `Place`: each is about to evaluate code that was made from
some count on, in a scope of its own. A place comes later than another if only names were bound
since that code made earlier does not mention, and perhaps names that the program declares.

- `Place.Later`: places that come later,
- `Scope`: the names of the program have the same values in both scopes,
- `Kont`: code for continuations that do the same,
- `Code`: code that is made at a place leads to runs that end alike,
- `Atom`, `Uses`: the same for expressions that are evaluated in place, and for ways of making them
  available to whatever is built next.
-/

namespace Chance

open Compile

/-! ## Places -/

variable {P : Place} {a a' : Expr}

/-- Where two runs are: functions can be relied on for so many tasks, the identities correspond, and
code that was made from the counts on is evaluated in the scopes. -/
structure Place where
  fuel : Nat
  ids : Matching
  left : Nat
  right : Nat
  env : Env
  env' : Env

/-- Names whose values matter to code that was made before the count, unless the program declares
them meanwhile. -/
def Stays (D : Set String) (count : Nat) (x : String) : Prop :=
  ¬ IsFresh count x ∧ (x ∈ D → IsFresh 0 x)

/-- Places that come later; the program may have declared names of the set meanwhile. -/
structure Place.Later (D : Set String) (P Q : Place) : Prop where
  fuel : Q.fuel ≤ P.fuel
  ids : P.ids ≤ Q.ids
  left : P.left ≤ Q.left
  right : P.right ≤ Q.right
  env : ∀ x, Stays D P.left x → Q.env.lookup? x = P.env.lookup? x
  env' : ∀ x, Stays D P.right x → Q.env'.lookup? x = P.env'.lookup? x

/-- The names of the program have values that do the same, apart from those of a set. -/
def Place.Scope (P : Place) (X : Set String) : Prop :=
  ∀ x, ¬ IsFresh 0 x → x ∉ X →
    Option.Rel (Value.Akin (ties P.fuel) P.ids) (P.env.lookup? x) (P.env'.lookup? x)

/-- The place after names were bound, for code that was made from other counts on. -/
def Place.bind (P : Place) (c c' : Nat) (x x' : String) (v w : Value) : Place :=
  ⟨P.fuel, P.ids, c, c', [(x, v)] :: P.env, [(x', w)] :: P.env'⟩

section Places

variable {D D' X Y : Set String} {P Q R : Place} {c : Nat} {x : String}

theorem Stays.mono {d : Nat} (h : Stays D c x) (hD : D' ⊆ D) (hcd : c ≤ d) : Stays D' d x :=
  ⟨fun hfresh => h.1 (hfresh.mono hcd), fun hx => h.2 (hD hx)⟩

theorem IsFresh.stays (h : IsFresh 0 x) (hc : ¬ IsFresh c x) : Stays D c x :=
  ⟨hc, fun _ => h⟩

theorem stays_of_not_mem (h : ¬ IsFresh 0 x) (hx : x ∉ D) : Stays D c x :=
  ⟨fun hfresh => h (hfresh.mono (Nat.zero_le c)), fun hD => absurd hD hx⟩

namespace Place.Later

variable {c' : Nat}

theorem refl (P : Place) : P.Later D P :=
  ⟨le_rfl, Matching.le_refl _, le_rfl, le_rfl, fun _ _ => rfl, fun _ _ => rfl⟩

theorem trans (h : P.Later D Q) (h' : Q.Later D' R) (hD : D' ⊆ D) : P.Later D R where
  fuel := h'.fuel.trans h.fuel
  ids := Matching.le_trans h.ids h'.ids
  left := h.left.trans h'.left
  right := h.right.trans h'.right
  env x hx := (h'.env x (hx.mono hD h.left)).trans (h.env x hx)
  env' x hx := (h'.env' x (hx.mono hD h.right)).trans (h.env' x hx)

theorem mono (h : P.Later D' Q) (hD : D' ⊆ D) : P.Later D Q :=
  { h with
    env := fun x hx => h.env x (hx.mono hD le_rfl)
    env' := fun x hx => h.env' x (hx.mono hD le_rfl) }

theorem counts (hc : P.left ≤ c) (hc' : P.right ≤ c') :
    P.Later D { P with left := c, right := c' } :=
  ⟨le_rfl, Matching.le_refl _, hc, hc', fun _ _ => rfl, fun _ _ => rfl⟩

theorem tasks {n : Nat} {ρ : Matching} (hn : n ≤ P.fuel) (hρ : P.ids ≤ ρ) :
    P.Later D { P with fuel := n, ids := ρ } :=
  ⟨hn, hρ, le_rfl, le_rfl, fun _ _ => rfl, fun _ _ => rfl⟩

/-- Names were bound that code made before does not mention, or that may be declared. -/
theorem bind {x x' : String} (h : P.Later D Q) (hc : P.left ≤ c) (hc' : P.right ≤ c')
    (hx : ¬ Stays D P.left x) (hx' : ¬ Stays D P.right x') (v w : Value) :
    P.Later D (Q.bind c c' x x' v w) where
  fuel := h.fuel
  ids := h.ids
  left := hc
  right := hc'
  env y hy := by
    have hne : x ≠ y := by
      rintro rfl
      exact hx hy
    exact (lookup?_outside (List.forall_mem_singleton.2 hne)).trans (h.env y hy)
  env' y hy := by
    have hne : x' ≠ y := by
      rintro rfl
      exact hx' hy
    exact (lookup?_outside (List.forall_mem_singleton.2 hne)).trans (h.env' y hy)

end Place.Later

theorem not_stays_generated {hint : String} (h : hint ∈ ["k", "result", "dummy"]) {n : Nat}
    (hn : c ≤ n) : ¬ Stays D c (generated hint n) :=
  fun hstays => hstays.1 (isFresh_generated h hn)

theorem not_stays_declared (hx : x ∈ D) (hfresh : ¬ IsFresh 0 x) : ¬ Stays D c x :=
  fun hstays => hfresh (hstays.2 hx)

theorem Place.Scope.anti (h : P.Scope X) (hX : X ⊆ Y) : P.Scope Y :=
  fun x hfresh hx => h x hfresh fun hX' => hx (hX hX')

theorem Place.Scope.univ (P : Place) : P.Scope Set.univ :=
  fun x _ hx => absurd (Set.mem_univ x) hx

theorem Place.Scope.later (h : P.Scope X) (hPQ : P.Later D Q) (hD : D ⊆ X) : Q.Scope X := by
  intro x hfresh hx
  have hstays {c : Nat} : Stays D c x := stays_of_not_mem hfresh fun hx' => hx (hD hx')
  rw [hPQ.env x hstays, hPQ.env' x hstays]
  exact optionRel_imp (h x hfresh hx) fun _ _ _ hv => hv.mono (ties_anti hPQ.fuel) hPQ.ids

/-- A name that was declared has a value of which more is known. -/
theorem Place.Scope.bind (h : P.Scope X) (c c' : Nat) (x : String) {v w : Value}
    (hv : v.Akin (ties P.fuel) P.ids w) : (P.bind c c' x x v w).Scope (X \ {x}) := by
  intro y hfresh hy
  rw [Place.bind, lookup?_cons, lookup?_cons, frameLookup_singleton, frameLookup_singleton]
  split_ifs with hxy
  · exact .some hv
  · exact h y hfresh fun hX => hy ⟨hX, fun heq => hxy heq.symm⟩

end Places

/-! ## Code -/

/-- The code that is made at the place leads to runs that end alike. -/
def Place.Code (P : Place) (g g' : Gen Expr) : Prop :=
  ∀ m m' : Machine, m.Akin (ties P.fuel) P.ids m' →
    Sim P.fuel (evalTail P.env (g.run P.left).1) m (evalTail P.env' (g'.run P.right).1) m'

/-- The expressions have values that do the same, at the place and whenever they are evaluated
later. -/
def Place.Atom (P : Place) (a a' : Expr) : Prop :=
  ∀ Q, P.Later ∅ Q → ∀ m m' : Machine, m.Akin (ties Q.fuel) Q.ids m' →
    Abreast (ties Q.fuel) Q.ids (Value.Akin (ties Q.fuel)) (eval Q.env a) (eval Q.env' a') m m'

/-- Whatever is built next is built from parts that are related, at a later place. -/
def Place.Uses {α : Type} (P : Place) (u u' : Build α → Gen Expr)
    (A : Place → α → α → Prop) : Prop :=
  ∀ b b' : Build α, (∀ a, (b a).Counts) → (∀ a, (b' a).Counts) →
    (∀ Q a a', P.Later ∅ Q → A Q a a' → Q.Code (b a) (b' a')) → P.Code (u b) (u' b')

theorem Place.Atom.later {Q : Place} (h : P.Atom a a') (hPQ : P.Later ∅ Q) : Q.Atom a a' :=
  fun R hQR => h R (hPQ.trans hQR subset_rfl)

theorem Place.Atom.here (h : P.Atom a a') {m m' : Machine}
    (hm : m.Akin (ties P.fuel) P.ids m') :
    Abreast (ties P.fuel) P.ids (Value.Akin (ties P.fuel)) (eval P.env a) (eval P.env' a')
      m m' :=
  h P (.refl P) m m' hm

/-! ## Continuations -/

/-- Making a value takes nothing but identities. -/
def Makes (x : Exec Value) (m : Machine) (v : Value) : Prop :=
  ∃ i, x m = .ok v { m with nextId := m.nextId + i }

/-- Code for continuations that do the same, at the place and at all later ones up to the end of
what declares names of the set. -/
structure Place.Kont (P : Place) (D A : Set String) (k k' : Expr) : Prop where
  left : IsKont P.left P.env k
  right : IsKont P.right P.env' k'
  value : ∀ Q, P.Later D Q → Q.Scope A → ∀ m m', ∃ kv kv', Makes (eval Q.env k) m kv ∧
    Makes (eval Q.env' k') m' kv' ∧ kv.Receives (ties Q.fuel) Q.ids kv'

/-- Names for continuations that do the same. -/
structure Place.Named (P : Place) (x x' : String) : Prop where
  left : ∃ i < P.left, x = generated "k" i
  right : ∃ i < P.right, x' = generated "k" i
  value : ∃ kv kv', P.env.lookup? x = some kv ∧ P.env'.lookup? x' = some kv' ∧
    kv.Receives (ties P.fuel) P.ids kv'

section Continuations

variable {D D' A A' : Set String} {P Q : Place} {k k' : Expr} {x x' : String}
  {c c' : Nat} {env : Env}

theorem stays_k {i : Nat} (hi : i < c) : Stays D c (generated "k" i) :=
  (isFresh_generated (by decide) (Nat.zero_le i)).stays (not_isFresh_of_lt (by decide) hi)

theorem isKont_later {env' : Env} (h : IsKont c env k) (hc : c ≤ c')
    (henv : ∀ x, Stays D c x → env'.lookup? x = env.lookup? x) : IsKont c' env' k := by
  cases h with
  | var hi hlookup => exact .var (hi.trans_le hc) ((henv _ (stays_k hi)).trans hlookup)
  | lambda x body => exact .lambda x body

theorem Place.Kont.onward (h : P.Kont D A k k') (hPQ : P.Later D Q) (hQ : Q.Scope A)
    (hD : D' ⊆ D) (hA : D' ⊆ A) : Q.Kont D' A' k k' where
  left := isKont_later h.left hPQ.left hPQ.env
  right := isKont_later h.right hPQ.right hPQ.env'
  value R hQR _ := h.value R (hPQ.trans hQR hD) (hQ.later hQR hA)

theorem Place.Kont.here (h : P.Kont D A k k') (hPQ : P.Later D Q) (hQ : Q.Scope A) :
    Q.Kont ∅ Set.univ k k' :=
  h.onward hPQ hQ (Set.empty_subset D) (Set.empty_subset A)

theorem Place.Kont.later (h : P.Kont ∅ Set.univ k k') (hPQ : P.Later ∅ Q) :
    Q.Kont ∅ Set.univ k k' :=
  h.here hPQ (.univ Q)

theorem Place.Named.later (h : P.Named x x') (hPQ : P.Later D Q) : Q.Named x x' := by
  obtain ⟨⟨i, hi, rfl⟩, ⟨i', hi', rfl⟩, kv, kv', hlookup, hlookup', hkv⟩ := h
  refine ⟨⟨i, hi.trans_le hPQ.left, rfl⟩, ⟨i', hi'.trans_le hPQ.right, rfl⟩, kv, kv', ?_, ?_, ?_⟩
  · rw [hPQ.env _ (stays_k hi), hlookup]
  · rw [hPQ.env' _ (stays_k hi'), hlookup']
  · exact hkv.mono (ties_anti hPQ.fuel) hPQ.ids

theorem makes_var {v : Value} (hx : x ≠ Expr.storeName) (h : env.lookup? x = some v) (m : Machine) :
    Makes (eval env (.var x)) m v :=
  ⟨0, eval_var hx h⟩

theorem Place.Named.kont (h : P.Named x x') : P.Kont D A (.var x) (.var x') where
  left := by
    obtain ⟨⟨i, hi, rfl⟩, _, kv, _, hlookup, _⟩ := h
    exact .var hi hlookup
  right := by
    obtain ⟨_, ⟨i, hi, rfl⟩, _, kv', _, hlookup, _⟩ := h
    exact .var hi hlookup
  value Q hPQ _ m m' := by
    obtain ⟨⟨i, -, rfl⟩, ⟨i', -, rfl⟩, kv, kv', hlookup, hlookup', hkv⟩ := h.later hPQ
    exact ⟨kv, kv', makes_var (generated_ne_storeName _ _) hlookup m,
      makes_var (generated_ne_storeName _ _) hlookup' m', hkv⟩

theorem makes_lambda (env : Env) (x : String) (body : Expr) (m : Machine) :
    Makes (eval env (.lambda [x] body)) m (.closure m.nextId none [x] [.expr body] env) :=
  ⟨1, rfl⟩

theorem Place.Kont.lambda {g g' : Gen Expr}
    (h : ∀ Q, P.Later D Q → Q.Scope A → ∀ v w, v.Akin (ties Q.fuel) Q.ids w →
      (Q.bind c c' x x' v w).Code g g') :
    P.Kont D A (.lambda [x] (g.run c).1) (.lambda [x'] (g'.run c').1) where
  left := .lambda x _
  right := .lambda x' _
  value Q hPQ hQ m m' := by
    refine ⟨_, _, makes_lambda Q.env x _ m, makes_lambda Q.env' x' _ m', .closure ?_⟩
    refine resume_tie fun n hn ρ hρ v w l l' hv hl => ?_
    have hlater : Q.Later ∅ { Q with fuel := n, ids := ρ } := .tasks hn.le hρ
    exact h _ (hPQ.trans hlater (Set.empty_subset D)) (hQ.later hlater (Set.empty_subset A)) v w hv
      l l' hl

end Continuations

/-! ## Handing values on -/

section Handing

variable {P : Place} {k k' a a' : Expr}

theorem Place.Kont.bind_abreast {α : Type} {Q : Matching → α → α → Prop} {f f' : Value → Exec α}
    (hk : P.Kont ∅ Set.univ k k') {m m' : Machine} (hm : m.Akin (ties P.fuel) P.ids m')
    (h : ∀ kv kv' l l', kv.Receives (ties P.fuel) P.ids kv' →
      l.Akin (ties P.fuel) P.ids l' → Abreast (ties P.fuel) P.ids Q (f kv) (f' kv') l l') :
    Abreast (ties P.fuel) P.ids Q (eval P.env k >>= f) (eval P.env' k' >>= f') m m' := by
  obtain ⟨kv, kv', ⟨i, hi⟩, ⟨j, hj⟩, hkv⟩ := hk.value P (.refl P) (.univ P) m m'
  unfold Abreast
  rw [Exec.bind_ok hi, Exec.bind_ok hj]
  exact SameResult.grow (h kv kv' _ _ hkv (hm.skip i j)) (.refl _ _ _) (Nat.le_add_right _ _)
    (Nat.le_add_right _ _)

theorem evalTail_handing (env : Env) (hk : k.isPrimitive = false) (a : Expr) :
    evalTail env (resume k a) = eval env k >>= fun g => eval env a >>= fun v =>
      pure (.resume g v) := by
  simp only [resume, evalTail, hk, evalAll, bind_assoc, pure_bind]
  rfl

theorem Place.Kont.resume (hk : P.Kont ∅ Set.univ k k') (ha : P.Atom a a') :
    P.Code (pure (Compile.resume k a)) (pure (Compile.resume k' a')) := by
  intro m m' hm
  refine .of_abreast (π := P.ids) ?_
  change Abreast _ _ _ (evalTail P.env (Compile.resume k a))
    (evalTail P.env' (Compile.resume k' a')) m m'
  rw [evalTail_handing _ hk.left.isPrimitive, evalTail_handing _ hk.right.isPrimitive]
  refine hk.bind_abreast hm fun kv kv' l l' hkv hl => .bind (ha.here hl) ?_
  intro ρ v w n n' hρ hv hn
  exact .pure hn (.bounce (.resume (hkv.mono (Ties.le_refl _) hρ) hv))

end Handing

/-! ## Naming continuations -/

section Naming

variable {P : Place} {k k' : Expr}

/-- Where a continuation is named, the run goes on in a scope with a name for it. The name stands
for what the continuation is after so many identities were given out. -/
theorem nameContinuation_runs {c : Nat} {env : Env} (h : IsKont c env k) (build : Build Expr) :
    ∃ j, ∀ m kv, Makes (eval env k) { m with nextId := m.nextId + j } kv →
      ∃ i d x env₁, Arrives (evalTail env ((nameContinuation k build).run c).1) m
          (evalTail env₁ ((build (.var x)).run d).1) { m with nextId := m.nextId + i } ∧
        c ≤ d ∧ (∀ y, ¬ IsFresh c y → env₁.lookup? y = env.lookup? y) ∧
        (∃ n < d, x = generated "k" n) ∧ env₁.lookup? x = some kv := by
  cases h with
  | @var n kv₀ hn hlookup =>
    -- A variable needs no other name.
    refine ⟨0, fun m kv ⟨i, hi⟩ => ?_⟩
    rw [eval_var (generated_ne_storeName _ _) hlookup] at hi
    obtain ⟨rfl, -⟩ := EStateM.Result.ok.inj hi
    exact ⟨0, c, generated "k" n, env, .of_eq rfl, le_rfl, fun _ _ => rfl, ⟨n, hn, rfl⟩, hlookup⟩
  | lambda x body =>
    refine ⟨1, fun m kv ⟨i, hi⟩ => ?_⟩
    let κ := generated "k" c
    have hbounce : evalTail env ((nameContinuation (.lambda [x] body) build).run c).1 m =
        .ok (.bounce (.call (.closure m.nextId none [κ]
          [.expr ((build (.var κ)).run (c + 1)).1] env) [kv]))
          { m with nextId := m.nextId + (1 + i) } := by
      have hkont : evalAll env [.lambda [x] body] { m with nextId := m.nextId + 1 } =
          .ok [kv] { m with nextId := m.nextId + 1 + i } := by
        rw [evalAll, Exec.bind_ok hi]
        rfl
      rw [← Nat.add_assoc]
      exact Exec.bind_ok hkont fun values => pure (Step.bounce (.call (.closure m.nextId none [κ]
        [.expr ((build (.var κ)).run (c + 1)).1] env) values))
    refine ⟨1 + i, c + 1, κ, [(κ, kv)] :: env, ?_, Nat.le_succ c, fun y hy => ?_,
      ⟨c, Nat.lt_succ_self c, rfl⟩, lookup?_bound env κ kv⟩
    · exact (Arrives.of_bounce hbounce).trans (.of_eq rfl)
    · have hne : κ ≠ y := by
        rintro rfl
        exact hy (isFresh_generated (by decide) le_rfl)
      exact lookup?_outside (List.forall_mem_singleton.2 hne)

/-- Code that goes on with names for the continuations. -/
theorem Place.Kont.name (hk : P.Kont ∅ Set.univ k k') {b b' : Build Expr}
    (h : ∀ Q x x', P.Later ∅ Q → Q.Named x x' → Q.Code (b (.var x)) (b' (.var x'))) :
    P.Code (nameContinuation k b) (nameContinuation k' b') := by
  intro m m' hm
  obtain ⟨j, hj⟩ := nameContinuation_runs hk.left b
  obtain ⟨j', hj'⟩ := nameContinuation_runs hk.right b'
  obtain ⟨kv, kv', hkv, hkv', hreceives⟩ := hk.value P (.refl P) (.univ P)
    { m with nextId := m.nextId + j } { m' with nextId := m'.nextId + j' }
  obtain ⟨i, c, x, env, harrives, hc, henv, hx, hlookup⟩ := hj m kv hkv
  obtain ⟨i', c', x', env', harrives', hc', henv', hx', hlookup'⟩ := hj' m' kv' hkv'
  let Q : Place := ⟨P.fuel, P.ids, c, c', env, env'⟩
  have hPQ : P.Later ∅ Q :=
    ⟨le_rfl, Matching.le_refl _, hc, hc', fun y hy => henv y hy.1, fun y hy => henv' y hy.1⟩
  have hnamed : Q.Named x x' := ⟨hx, hx', kv, kv', hlookup, hlookup', hreceives⟩
  exact (h Q x x' hPQ hnamed _ _ (hm.skip i i')).after harrives harrives'

end Naming

/-! ## Using values -/

namespace Place.Uses

variable {α β : Type} {P : Place} {u u' : Build α → Gen Expr}
  {A : Place → α → α → Prop} {B : Place → β → β → Prop}

theorem leaf {a a' : α} (h : A P a a') : P.Uses (fun b => b a) (fun b => b a') A :=
  fun _ _ _ _ hb => hb P a a' (.refl P) h

/-- One after the other. -/
theorem pair {w w' : Build β → Gen Expr} (h : P.Uses u u' A)
    (h' : ∀ Q, P.Later ∅ Q → Q.Uses w w' B)
    (hcounts : ∀ b : Build β, (∀ x, (b x).Counts) → (w b).Counts)
    (hcounts' : ∀ b : Build β, (∀ x, (b x).Counts) → (w' b).Counts)
    (hA : ∀ Q R a a', Q.Later ∅ R → A Q a a' → A R a a') :
    P.Uses (fun b => u fun x => w fun y => b (x, y)) (fun b => u' fun x => w' fun y => b (x, y))
      fun Q x x' => A Q x.1 x'.1 ∧ B Q x.2 x'.2 := by
  intro b b' hb hb' hnext
  refine h _ _ (fun x => hcounts _ fun y => hb (x, y)) (fun x => hcounts' _ fun y => hb' (x, y)) ?_
  intro Q x x' hPQ hx
  refine h' Q hPQ _ _ (fun y => hb (x, y)) (fun y => hb' (x', y)) ?_
  intro R y y' hQR hy
  exact hnext R _ _ (hPQ.trans hQR subset_rfl) ⟨hA Q R x x' hQR hx, hy⟩

theorem map (wrap wrap' : α → β) (h : P.Uses u u' A)
    (hwrap : ∀ Q a a', A Q a a' → B Q (wrap a) (wrap' a')) :
    P.Uses (fun b => u fun a => b (wrap a)) (fun b => u' fun a => b (wrap' a)) B :=
  fun _ _ hb hb' hnext => h _ _ (fun a => hb (wrap a)) (fun a => hb' (wrap' a))
    fun Q a a' hPQ ha => hnext Q _ _ hPQ (hwrap Q a a' ha)

theorem weaken {A' : Place → α → α → Prop} (h : P.Uses u u' A)
    (hA : ∀ Q a a', A Q a a' → A' Q a a') : P.Uses u u' A' :=
  h.map id id hA

theorem resume {u u' : Build Expr → Gen Expr} {A : Place → Expr → Expr → Prop} {k k' : Expr}
    (h : P.Uses u u' A) (hA : ∀ Q a a', A Q a a' → Q.Atom a a')
    (hk : P.Kont ∅ Set.univ k k') :
    P.Code (u fun a => pure (Compile.resume k a)) (u' fun a => pure (Compile.resume k' a)) :=
  h _ _ (fun _ => .pure _) (fun _ => .pure _) fun Q a a' hPQ ha =>
    (hk.later hPQ).resume (hA Q a a' ha)

theorem named {pass pass' : Build Expr} {A : Place → Expr → Expr → Prop}
    (hpass : ∀ Q, P.Later ∅ Q → ∀ k k', Q.Kont ∅ Set.univ k k' → Q.Code (pass k) (pass' k'))
    (hA : ∀ Q x x', Q.Atom (.var (generated "result" x)) (.var (generated "result" x')) →
      A Q (.var (generated "result" x)) (.var (generated "result" x'))) :
    P.Uses (useResult pass) (useResult pass') A := by
  intro b b' hb hb' hnext
  let x := generated "result" P.left
  let x' := generated "result" P.right
  let c := ((b (.var x)).run (P.left + 1)).2
  let c' := ((b' (.var x')).run (P.right + 1)).2
  let Q : Place := { P with left := c, right := c' }
  have hc : P.left + 1 ≤ c := hb (.var x) (P.left + 1)
  have hc' : P.right + 1 ≤ c' := hb' (.var x') (P.right + 1)
  have hPQ : P.Later ∅ Q := .counts ((Nat.le_succ _).trans hc) ((Nat.le_succ _).trans hc')
  refine hpass Q hPQ _ _ (Place.Kont.lambda fun R hQR _ v w hv => ?_)
  -- What goes on with the name was made before the code that hands over the value.
  let N := R.bind (P.left + 1) (P.right + 1) x x' v w
  have hPN : P.Later ∅ N := (hPQ.trans hQR subset_rfl).bind (Nat.le_succ _) (Nat.le_succ _)
    (not_stays_generated (by decide) le_rfl) (not_stays_generated (by decide) le_rfl) v w
  refine hnext N _ _ hPN (hA N _ _ fun M hNM m m' hm => ?_)
  have hlookup : M.env.lookup? x = some v := by
    rw [hNM.env x ⟨not_isFresh_of_lt (by decide) (Nat.lt_succ_self _), nofun⟩]
    exact lookup?_bound _ x v
  have hlookup' : M.env'.lookup? x' = some w := by
    rw [hNM.env' x' ⟨not_isFresh_of_lt (by decide) (Nat.lt_succ_self _), nofun⟩]
    exact lookup?_bound _ x' w
  unfold Abreast
  rw [eval_var (generated_ne_storeName _ _) hlookup, eval_var (generated_ne_storeName _ _) hlookup']
  exact .ok (.refl _ _ _) le_rfl le_rfl (hv.mono (ties_anti hNM.fuel) hNM.ids) hm

end Place.Uses

end Chance
