import Chance.Proofs.Meaning.Keeping

/-!
# Handing values on

Converted code runs task by task, until it hands a value to the continuation that it was made for.
Between tasks the run is at a `Juncture`: code that was made from some count on is about to be
evaluated in some scope, while direct evaluation is in a state that the state of the run realizes.

- `Arrives`: one computation of a step comes to another after some tasks,
- `Juncture`, `Advance`: where both evaluations are, and how they go on,
- `Owed`: code for a value that direct evaluation has and the run has not,
- `Kont`: the values of code for a continuation,
- `Delivers`: code hands what realizes a value to its continuation.
-/

namespace Chance

open Compile

/-! ## Tasks -/

/-- After some tasks the run that begins with `x` goes on as the one that begins with `y`. -/
def Arrives (x : Exec Step) (m : Machine) (y : Exec Step) (n : Machine) : Prop :=
  ∃ tasks, ∀ fuel, (x >>= Step.drive (tasks + fuel)) m = (y >>= Step.drive fuel) n

namespace Arrives

variable {x y z : Exec Step} {m n l : Machine}

theorem of_eq (h : x m = y n) : Arrives x m y n :=
  ⟨0, fun fuel => by rw [Nat.zero_add]; simp only [bind, EStateM.bind, h]⟩

theorem trans (h : Arrives x m y n) (h' : Arrives y n z l) : Arrives x m z l := by
  rcases h with ⟨i, hi⟩
  rcases h' with ⟨j, hj⟩
  refine ⟨i + j, fun fuel => ?_⟩
  rw [Nat.add_assoc, hi, hj]

theorem of_bounce {t : Task} (h : x m = .ok (.bounce t) n) : Arrives x m t.perform n := by
  refine ⟨1, fun fuel => ?_⟩
  rw [Exec.bind_ok h, Nat.add_comm, Step.drive, Task.drive_succ]
  simp only [bind, EStateM.bind]
  cases t.perform n <;> rfl

theorem resume (i : Nat) (x : String) (body : Expr) (env : Env) (v : Value) (m : Machine) :
    Arrives (pure (.resume (.closure i none [x] [.expr body] env) v)) m
      (evalTail ([(x, v)] :: env) body) m :=
  (of_bounce rfl).trans (of_eq rfl)

end Arrives

/-! ## Junctures -/

/-- The state of direct evaluation and that of the run. -/
structure Sides where
  matching : Matching
  left : Machine
  right : Machine

/-- Where a run is: code that was made from the count on is evaluated in the scope. -/
structure Juncture extends Sides where
  count : Nat
  env : Env

/-- From there the states `m` and `n` were reached. -/
structure Reaches (s : Sides) (π : Matching) (m n : Machine) : Prop where
  growth : Growth (Set.Ico s.left.nextId m.nextId) s.matching π s.right n
  left : s.left.nextId ≤ m.nextId
  state : m.Realized π n

/-- The second juncture comes after the first; meanwhile only names were bound that code made
earlier does not mention. -/
structure Advance (p q : Juncture) : Prop where
  count : p.count ≤ q.count
  agrees : p.env.Agrees p.count q.env
  reaches : Reaches p.toSides q.matching q.left q.right

/-- The scope of direct evaluation at the juncture, and the address of the function that the code is
part of. -/
structure Situation (p : Juncture) (env : Env) (a : String) : Prop where
  scope : EnvRealized p.matching env p.env
  isAddress : IsAddressName a
  address : ∃ s, p.env.lookup? a = some (.str s)
  state : p.left.Realized p.matching p.right

section Junctures

variable {p q r : Juncture} {env : Env} {a : String} {R : Set Nat} {π ρ : Matching}
  {m n n' : Machine} {s : Sides}

theorem Growth.earlier {l : Machine} (h : Growth R π ρ n n') (hl : l.nextId ≤ n.nextId) :
    Growth R π ρ l n' where
  le := h.le
  new := fun i j hij => (h.new i j hij).imp_right fun ⟨hi, hlo, hhi⟩ => ⟨hi, hl.trans hlo, hhi⟩
  nextId := hl.trans h.nextId

theorem Machine.Realized.grow {m' : Machine} (h : m.Realized π n) (hg : Growth R π ρ n n')
    (hR : ∀ i ∈ R, i < m'.nextId) (hm : m.nextId ≤ m'.nextId)
    (hstore : StoreRealized ρ m'.store n'.store) : m'.Realized ρ n' where
  store := hstore
  left := by
    intro i j hij
    rcases hg.new i j hij with hij | ⟨hi, _⟩
    · exact (h.left i j hij).trans_le hm
    · exact hR i hi
  right := by
    intro i j hij
    rcases hg.new i j hij with hij | ⟨_, _, hj⟩
    · exact (h.right i j hij).trans_le hg.nextId
    · exact hj

theorem Reaches.trans {t : Sides} (h : Reaches s t.matching t.left t.right) (h' : Reaches t π m n) :
    Reaches s π m n where
  growth := by
    rw [← Set.Ico_union_Ico_eq_Ico h.left h'.left]
    exact h.growth.trans h'.growth
  left := h.left.trans h'.left
  state := h'.state

theorem Reaches.refl (h : s.left.Realized s.matching s.right) :
    Reaches s s.matching s.left s.right :=
  ⟨.refl _ _ _, le_rfl, h⟩

theorem Advance.trans (h : Advance p q) (h' : Advance q r) : Advance p r where
  count := h.count.trans h'.count
  agrees := h.agrees.trans h'.agrees h.count
  reaches := h.reaches.trans h'.reaches

theorem Situation.advance (h : Situation p env a) (hpq : Advance p q) : Situation q env a where
  scope := (h.scope.mono hpq.reaches.growth.le).agrees hpq.agrees
  isAddress := h.isAddress
  address := by
    rcases h.address with ⟨s, hs⟩
    exact ⟨s, by rw [hpq.agrees a h.isAddress.not_isFresh, hs]⟩
  state := hpq.reaches.state

end Junctures

/-! ## Owed pieces -/

/-- A piece for what was evaluated directly between the two junctures, and not yet in the run. -/
def Owed {α : Type} (p q : Juncture) (x : Env → Exec α) (Q : Matching → α → Prop) : Prop :=
  ∃ R ⊆ Set.Ico p.left.nextId q.left.nextId, (∀ i ∈ R, ∀ j, ¬ q.matching.ids i j) ∧
    ∀ s, Piece q.count q.env q.matching x (.exactly s) (.exactly s) R Q

section Owed

variable {α β : Type} {p q r : Juncture} {x : Env → Exec α} {y : Env → Exec β}
  {Q : Matching → α → Prop} {P : Matching → β → Prop} {m : Machine}

/-- The juncture after direct evaluation went on alone. -/
abbrev Juncture.leftTo (p : Juncture) (m : Machine) : Juncture :=
  { p with left := m }

theorem advance_leftTo (hstate : p.left.Realized p.matching p.right)
    (hnext : p.left.nextId ≤ m.nextId) (hstore : m.store = p.left.store) :
    Advance p (p.leftTo m) where
  count := le_rfl
  agrees := .refl _ _
  reaches :=
    { growth := .refl _ _ _
      left := hnext
      state := ⟨hstore ▸ hstate.store, fun i j hij => (hstate.left i j hij).trans_le hnext,
        hstate.right⟩ }

theorem Mirrored.owed (h : Mirrored false p.env p.matching p.left m x Q)
    (hstate : p.left.Realized p.matching p.right) : Owed p (p.leftTo m) x Q := by
  refine ⟨Set.Ico p.left.nextId m.nextId, subset_rfl, fun i hi j hij => ?_,
    fun s => h p.count false s fun hkept => absurd hkept Bool.false_ne_true⟩
  exact absurd (hstate.left i j hij) (not_lt.2 hi.1)

theorem Owed.later (h : Owed p q x Q) (hqr : Advance q r) : Owed p r x Q := by
  rcases h with ⟨R, hR, hunmatched, hpiece⟩
  refine ⟨R, hR.trans (Set.Ico_subset_Ico_right hqr.reaches.left), fun i hi j hij => ?_,
    fun s => (hpiece s).later hqr.agrees hqr.count hqr.reaches.growth.le⟩
  rcases hqr.reaches.growth.new i j hij with hij | ⟨hi', _⟩
  · exact hunmatched i hi j hij
  · exact absurd hi'.1 (not_le.2 (hR hi).2)

theorem Owed.map {f : α → β} (h : Owed p q x Q) (hf : ∀ ρ a, Q ρ a → P ρ (f a)) :
    Owed p q (fun e => x e >>= fun a => pure (f a)) P := by
  rcases h with ⟨R, hR, hunmatched, hpiece⟩
  exact ⟨R, hR, hunmatched, fun s => (hpiece s).map hf⟩

theorem Owed.congr {z : Env → Exec α} (h : Owed p q x Q) (hz : ∀ e, z e = x e) :
    Owed p q z Q := by
  rcases h with ⟨R, hR, hunmatched, hpiece⟩
  exact ⟨R, hR, hunmatched, fun s => (hpiece s).congr hz⟩

/-- What is pending from before and what is pending since. -/
theorem Owed.pair (hx : Owed p q x Q) (hy : Owed q r y P) (hpq : Advance p q)
    (hqr : Advance q r) (hQ : Persists Q) :
    Owed p r (fun e => x e >>= fun a => y e >>= fun b => pure (a, b))
      fun τ ab => Q τ ab.1 ∧ P τ ab.2 := by
  have hdisjoint {R S : Set Nat} (hR : R ⊆ Set.Ico p.left.nextId q.left.nextId)
      (hS : S ⊆ Set.Ico q.left.nextId r.left.nextId) : Disjoint R S :=
    (disjoint_ico _ _ _).mono hR hS
  rcases hx with ⟨R, hR, hfree, hpiece⟩
  rcases hy with ⟨S, hS, hfree', hpiece'⟩
  refine ⟨R ∪ S, Set.union_subset ?_ ?_, ?_, fun s =>
    ((hpiece s).later hqr.agrees hqr.count hqr.reaches.growth.le).pair (hpiece' s) hQ
      (hdisjoint hR hS)⟩
  · exact hR.trans (Set.Ico_subset_Ico_right hqr.reaches.left)
  · exact hS.trans (Set.Ico_subset_Ico_left hpq.reaches.left)
  · rintro i (hi | hi) j hij
    · rcases hqr.reaches.growth.new i j hij with hij | ⟨hi', _⟩
      · exact hfree i hi j hij
      · exact absurd hi'.1 (not_le.2 (hR hi).2)
    · exact hfree' i hi j hij

/-- What direct evaluation computes in place stays pending. -/
theorem Owed.inPlace {f : α → Exec Value} {direct : Exec Value} {v : Value} (h : Owed p q x Q)
    (hf : ∀ ρ a, Q ρ a → InPlace (Value.Realized ρ) direct (f a))
    (hdirect : direct q.left = .ok v m) (hspared : q.left.Spared m)
    (hpq : p.left.nextId ≤ q.left.nextId) (hstate : q.left.Realized q.matching q.right) :
    Owed p (q.leftTo m) (fun e => x e >>= f) fun τ w => v.Realized τ w := by
  rcases h with ⟨R, hR, hfree, hpiece⟩
  refine ⟨R ∪ Set.Ico q.left.nextId m.nextId, Set.union_subset ?_ ?_, ?_, fun s =>
    (hpiece s).inPlace hf hdirect ((disjoint_ico _ _ _).mono_left hR)⟩
  · exact hR.trans (Set.Ico_subset_Ico_right hspared.nextId)
  · exact Set.Ico_subset_Ico_left hpq
  · rintro i (hi | hi) j hij
    · exact hfree i hi j hij
    · exact absurd (hstate.left i j hij) (not_lt.2 hi.1)

theorem Owed.answers (h : Owed p q x Q) (hpq : Advance p q) {n : Machine}
    (hn : q.right.nextId ≤ n.nextId) (hstore : n.store = q.right.store) :
    ∃ π n' a, x q.env n = .ok a n' ∧ Reaches p.toSides π q.left n' ∧ Q π a ∧
      n.nextId ≤ n'.nextId ∧ n'.store = n.store := by
  rcases h with ⟨R, hR, hfree, hpiece⟩
  have hstate := hpq.reaches.state
  have hroom : Room R q.matching n := ⟨hfree, fun i j hij => (hstate.right i j hij).trans_le hn⟩
  rcases hpiece n.store q.env q.matching n (.refl _ _) (Matching.le_refl _) hroom rfl with
    ⟨π, n', a, hx, hg, hQ, hstore'⟩
  have hg' := hg.earlier hn
  have hstore'' : StoreRealized π q.left.store n'.store := by
    rw [hstore', hstore]
    exact fieldsRealized_mono hg.le hstate.store
  refine ⟨π, n', a, hx, ⟨?_, hpq.reaches.left, ?_⟩, hQ, hg.nextId, hstore'⟩
  · exact (hpq.reaches.growth.trans hg').mono (Set.union_subset subset_rfl hR)
  · exact hstate.grow hg' (fun i hi => (hR hi).2) le_rfl hstore''

end Owed

/-! ## Continuations -/

/-- The second scope has the same values for names that were made up before. -/
def Env.Keeps (count : Nat) (env env' : Env) : Prop :=
  ∀ x, IsGenerated x → ¬ IsFresh count x → env'.lookup? x = env.lookup? x

theorem Env.Agrees.keeps {c : Nat} {env env' : Env} (h : env.Agrees c env') : env.Keeps c env' :=
  fun x _ hx => h x hx

/-- Code for a continuation: a name that has a value, or a function of one parameter. -/
inductive IsKont (count : Nat) (env : Env) : Expr → Prop
  | var {i : Nat} {kv : Value} :
      i < count → env.lookup? (generated "k" i) = some kv →
      IsKont count env (.var (generated "k" i))
  | lambda (x : String) (body : Expr) : IsKont count env (.lambda [x] body)

/-- The value of code for a continuation; a function is made in one of the scopes. -/
inductive Kont (env : Env) (scopes : Env → Prop) : Expr → Value → Prop
  | var {k : String} {kv : Value} : env.lookup? k = some kv → Kont env scopes (.var k) kv
  | lambda {x : String} {body : Expr} {env' : Env} (i : Nat) :
      scopes env' → Kont env scopes (.lambda [x] body) (.closure i none [x] [.expr body] env')

/-- The second juncture comes after the first, and the names that were made up are still there. -/
structure Onward (p q : Juncture) : Prop where
  count : p.count ≤ q.count
  keeps : p.env.Keeps p.count q.env
  reaches : Reaches p.toSides q.matching q.left q.right

theorem Advance.onward {p q : Juncture} (h : Advance p q) : Onward p q :=
  ⟨h.count, h.agrees.keeps, h.reaches⟩

section Continuations

variable {c c' : Nat} {env env' : Env} {kx : Expr} {kv : Value} {scopes scopes' : Env → Prop}

theorem generated_k_kept {i : Nat} (hi : i < c) (h : env.Keeps c env') :
    env'.lookup? (generated "k" i) = env.lookup? (generated "k" i) :=
  h _ (isFresh_generated (by decide) le_rfl).isGenerated (not_isFresh_of_lt (by decide) hi)

theorem IsKont.mono (h : IsKont c env kx) (henv : env.Keeps c env') (hc : c ≤ c') :
    IsKont c' env' kx := by
  cases h with
  | var hi hlookup => exact .var (hi.trans_le hc) ((generated_k_kept hi henv).trans hlookup)
  | lambda x body => exact .lambda x body

theorem Kont.earlier (h : Kont env' scopes kx kv) (hk : IsKont c env kx)
    (henv : env.Keeps c env') (hscopes : ∀ e, scopes e → scopes' e) : Kont env scopes' kx kv := by
  cases hk with
  | var hi _ =>
    cases h with
    | var hlookup => exact .var ((generated_k_kept hi henv).symm.trans hlookup)
  | lambda x body =>
    cases h with
    | lambda i hscope => exact .lambda i (hscopes _ hscope)

theorem IsKont.piece {π : Matching} {V : View} (h : IsKont c env kx) :
    Piece c env π (fun ε => eval ε kx) V V ∅ fun _ kv => Kont env (env.Agrees c) kx kv := by
  intro ε ρ n hagrees _ _ hV
  cases h with
  | @var i kv hi hlookup =>
    have hfound := (generated_k_kept hi hagrees.keeps).trans hlookup
    exact ⟨ρ, n, kv, eval_var (generated_ne_storeName _ _) hfound, .refl _ ρ n, .var hlookup, hV⟩
  | lambda x body =>
    exact ⟨ρ, { n with nextId := n.nextId + 1 }, _, rfl,
      ⟨Matching.le_refl ρ, fun _ _ hij => .inl hij, Nat.le_succ _⟩, .lambda _ hagrees, hV⟩

theorem IsKont.eval (h : IsKont c env kx) (n : Machine) :
    ∃ kv n', eval env kx n = .ok kv n' ∧ Kont env (env.Agrees c) kx kv ∧
      n.nextId ≤ n'.nextId ∧ n'.store = n.store := by
  rcases h.piece (π := .empty) (V := .exactly n.store) env .empty n (.refl c env)
    (Matching.le_refl _) ⟨nofun, nofun⟩ rfl with ⟨_, n', kv, heval, hg, hkv, hstore⟩
  exact ⟨kv, n', heval, hkv, hg.nextId, hstore⟩

theorem IsKont.isPrimitive (h : IsKont c env kx) : kx.isPrimitive = false := by
  cases h <;> rfl

end Continuations

/-! ## Delivering values -/

/-- The code runs until it hands what realizes the value to its continuation. -/
def Delivers (p : Juncture) (code kx : Expr) (m : Machine) (v : Value)
    (scopes : Matching → Env → Prop) : Prop :=
  ∃ π n kv w, Arrives (evalTail p.env code) p.right (pure (.resume kv w)) n ∧
    Kont p.env (scopes π) kx kv ∧ Reaches p.toSides π m n ∧ v.Realized π w

/-- The expression has a value as soon as it is evaluated, which may be later, but before the store
changes. If it is calm, evaluating it does not change the store. -/
def Evaluable (p q : Juncture) (m : Machine) (x : Expr) (v : Value) (calm : Prop) : Prop :=
  ∀ n, q.right.nextId ≤ n.nextId → n.store = q.right.store →
    ∃ π n' w, eval q.env x n = .ok w n' ∧ Reaches p.toSides π m n' ∧ v.Realized π w ∧
      n.nextId ≤ n'.nextId ∧ (calm → n'.store = n.store)

section Delivering

variable {p q : Juncture} {x code code' kx : Expr} {m : Machine} {v : Value} {calm : Prop}

theorem Owed.evaluable (h : Owed p q (fun ε => eval ε x) fun τ w => v.Realized τ w)
    (hpq : Advance p q) (calm : Prop) : Evaluable p q q.left x v calm := by
  intro n hn hstore
  rcases h.answers hpq hn hstore with ⟨π, n', w, hw, hreaches, hvw, hn', hstore'⟩
  exact ⟨π, n', w, hw, hreaches, hvw, hn', fun _ => hstore'⟩

theorem Mirrored.evaluable {b : Bool} {c : Nat}
    (h : Mirrored b p.env p.matching p.left m (fun ε => eval ε x) fun τ w => v.Realized τ w)
    (hstate : p.left.Realized p.matching p.right) (hm : p.left.nextId ≤ m.nextId)
    (hcalm : calm → (eval p.env x).Spares) : Evaluable p { p with count := c } m x v calm := by
  intro n hn hstore
  have hroom : Room (Set.Ico p.left.nextId m.nextId) p.matching n :=
    ⟨fun i hi j hij => absurd (hstate.left i j hij) (not_lt.2 hi.1),
      fun i j hij => (hstate.right i j hij).trans_le hn⟩
  have hview : StoreRealized p.matching p.left.store n.store := hstore ▸ hstate.store
  rcases h p.count true n.store (fun _ => rfl) p.env p.matching n (.refl _ _)
    (Matching.le_refl _) hroom hview with ⟨π, n', w, hw, hg, hvw, hstore'⟩
  have hg' := hg.earlier hn
  exact ⟨π, n', w, hw, ⟨hg', hm, hstate.grow hg' (fun i hi => hi.2) hm hstore'⟩, hvw,
    hg.nextId, fun h => (hcalm h _ _ _ hw).store⟩

theorem Delivers.after {scopes scopes' : Matching → Env → Prop}
    (harrives : Arrives (evalTail p.env code) p.right (evalTail q.env code') q.right)
    (hpq : Onward p q) (hk : IsKont p.count p.env kx) (h : Delivers q code' kx m v scopes)
    (hscopes : ∀ π e, scopes π e → scopes' π e) : Delivers p code kx m v scopes' := by
  rcases h with ⟨π, n, kv, w, harrives', hkv, hreaches, hvw⟩
  exact ⟨π, n, kv, w, harrives.trans harrives', hkv.earlier hk hpq.keeps (hscopes π),
    hpq.reaches.trans hreaches, hvw⟩

theorem Evaluable.delivers (h : Evaluable p q m x v calm) (hpq : Advance p q)
    (hk : IsKont p.count p.env kx) {n : Machine} (hn : q.right.nextId ≤ n.nextId)
    (hstore : n.store = q.right.store)
    (harrives : Arrives (evalTail p.env code) p.right (evalTail q.env (resume kx x)) n) :
    Delivers p code kx m v fun _ => p.env.Agrees p.count := by
  have hk' := hk.mono hpq.agrees.keeps hpq.count
  rcases hk'.eval n with ⟨kv, n₁, heval, hkv, hn₁, hstore₁⟩
  rcases h n₁ (hn.trans hn₁) (hstore₁.trans hstore) with ⟨π, n', w, hw, hreaches, hvw, _⟩
  have htail : evalTail q.env (resume kx x) = eval q.env kx >>= fun g =>
      eval q.env x >>= fun w => pure (.resume g w) := by
    simp only [resume, evalTail, hk.isPrimitive, evalAll, bind_assoc, pure_bind]
    rfl
  have hresume : evalTail q.env (resume kx x) n = .ok (.resume kv w) n' := by
    rw [htail, Exec.bind_ok heval, Exec.bind_ok hw]
    rfl
  exact ⟨π, n', kv, w, harrives.trans (.of_eq hresume),
    hkv.earlier hk hpq.agrees.keeps fun e he => hpq.agrees.trans he hpq.count, hreaches, hvw⟩

theorem nameContinuation_arrives (hstate : p.left.Realized p.matching p.right)
    (hk : IsKont p.count p.env kx) (build : Build Expr) :
    ∃ q k, Arrives (evalTail p.env ((nameContinuation kx build).run p.count).1) p.right
        (evalTail q.env ((build (.var k)).run q.count).1) q.right ∧
      Advance p q ∧ q.left = p.left ∧ IsKont q.count q.env (.var k) ∧
      ∀ scopes kv, Kont q.env scopes (.var k) kv → Kont p.env (p.env.Agrees p.count) kx kv := by
  cases hk with
  | @var i kv hi hlookup =>
    refine ⟨p, generated "k" i, .of_eq rfl, ⟨le_rfl, .refl _ _, .refl hstate⟩, rfl,
      .var hi hlookup, ?_⟩
    rintro scopes kv ⟨⟩
    exact .var ‹_›
  | lambda x body =>
    let kv : Value := .closure (p.right.nextId + 1) none [x] [.expr body] p.env
    let right : Machine := { p.right with nextId := p.right.nextId + 2 }
    let k := generated "k" p.count
    let q : Juncture := ⟨⟨p.matching, p.left, right⟩, p.count + 1, [(k, kv)] :: p.env⟩
    have hreaches : Reaches p.toSides q.matching q.left q.right :=
      ⟨⟨Matching.le_refl _, fun _ _ hij => .inl hij, Nat.le_add_right _ 2⟩, le_rfl,
        ⟨hstate.store, hstate.left,
          fun i j hij => (hstate.right i j hij).trans_le (Nat.le_add_right _ 2)⟩⟩
    have hagrees : p.env.Agrees p.count q.env :=
      (Env.Agrees.refl _ _).bind (isFresh_generated (by decide) le_rfl) kv
    have hlookup : q.env.lookup? k = some kv := lookup?_bound _ k kv
    refine ⟨q, k, (Arrives.of_bounce rfl).trans (.of_eq rfl), ⟨Nat.le_succ _, hagrees, hreaches⟩,
      rfl, .var (Nat.lt_succ_self _) hlookup, ?_⟩
    rintro scopes kv' ⟨hlookup'⟩
    obtain rfl : kv = kv' := Option.some.inj (hlookup.symm.trans hlookup')
    exact .lambda _ (.refl _ _)

theorem nameContinuation_delivers {build : Build Expr} (scopes : Juncture → Matching → Env → Prop)
    (hstate : p.left.Realized p.matching p.right) (hk : IsKont p.count p.env kx)
    (h : ∀ q k, Advance p q → q.left = p.left → IsKont q.count q.env (.var k) →
      Delivers q ((build (.var k)).run q.count).1 (.var k) m v (scopes q)) :
    Delivers p ((nameContinuation kx build).run p.count).1 kx m v
      fun _ => p.env.Agrees p.count := by
  rcases nameContinuation_arrives hstate hk build with ⟨q, k, harrives, hpq, hleft, hk', hback⟩
  rcases h q k hpq hleft hk' with ⟨π, n, kv, w, harrives', hkv, hreaches, hvw⟩
  exact ⟨π, n, kv, w, harrives.trans harrives', hback _ kv hkv, hpq.reaches.trans hreaches, hvw⟩

end Delivering

/-! ## Using values -/

/-- Whatever is built next is reached, with code for what was evaluated directly. -/
def Used {α β : Type} (p : Juncture) (use : Build α → Gen Expr) (m : Machine)
    (code : α → Env → Exec β) (fit : α → Prop) (Q : Matching → β → Prop) : Prop :=
  ∀ build : Build α, (∀ x, (build x).Counts) → ∃ q x,
    Arrives (evalTail p.env ((use build).run p.count).1) p.right
      (evalTail q.env ((build x).run q.count).1) q.right ∧
    Advance p q ∧ q.left = m ∧ Owed p q (code x) Q ∧ fit x

namespace Used

variable {α β γ δ : Type} {p : Juncture} {use : Build α → Gen Expr} {m m' : Machine}
  {code : α → Env → Exec β} {fit : α → Prop} {Q : Matching → β → Prop} {code' : γ → Env → Exec δ}
  {fit' : γ → Prop} {P : Matching → δ → Prop} {v : Value}

theorem kept {keep : Gen Expr} {fit : Expr → Prop} {Q : Matching → Value → Prop}
    (hcounts : keep.Counts) (hstate : p.left.Realized p.matching p.right)
    (hsettles : Settles false p.left m)
    (h : Mirrored false p.env p.matching p.left m (fun ε => eval ε (keep.run p.count).1) Q)
    (hfit : fit (keep.run p.count).1) :
    Used p (fun build => keep >>= build) m (fun x ε => eval ε x) fit Q := by
  intro build _
  have hleft := advance_leftTo hstate hsettles.nextId (hsettles.store rfl)
  have hcount : Advance (p.leftTo m) { p.leftTo m with count := (keep.run p.count).2 } :=
    ⟨hcounts p.count, .refl _ _, .refl hleft.reaches.state⟩
  exact ⟨{ p.leftTo m with count := (keep.run p.count).2 }, (keep.run p.count).1, .of_eq rfl,
    hleft.trans hcount, rfl, (h.owed hstate).later hcount, hfit⟩

theorem piece {x : α} (hstate : p.left.Realized p.matching p.right)
    (h : ∀ s, Piece p.count p.env p.matching (code x) (.exactly s) (.exactly s) ∅ Q)
    (hfit : fit x) : Used p (fun build => build x) p.left code fit Q := by
  intro build _
  exact ⟨p, x, .of_eq rfl, ⟨le_rfl, .refl _ _, .refl hstate⟩, rfl,
    ⟨∅, Set.empty_subset _, nofun, h⟩, hfit⟩

/-- One after the other. -/
theorem pair {use' : Build γ → Gen Expr} (h : Used p use m code fit Q)
    (h' : ∀ q, Advance p q → q.left = m → Used q use' m' code' fit' P)
    (hcounts : ∀ build : Build γ, (∀ x, (build x).Counts) → (use' build).Counts) (hQ : Persists Q) :
    Used p (fun build => use fun a => use' fun b => build (a, b)) m'
      (fun ab ε => code ab.1 ε >>= fun u => code' ab.2 ε >>= fun w => Pure.pure (u, w))
      (fun ab => fit ab.1 ∧ fit' ab.2) fun τ r => Q τ r.1 ∧ P τ r.2 := by
  intro build hbuild
  rcases h (fun a => use' fun b => build (a, b)) fun a => hcounts _ fun b => hbuild (a, b) with
    ⟨q, x, harrives, hpq, hleft, howed, hfit⟩
  rcases h' q hpq hleft (fun b => build (x, b)) fun b => hbuild (x, b) with
    ⟨r, y, harrives', hqr, hleft', howed', hfit'⟩
  exact ⟨r, (x, y), harrives.trans harrives', hpq.trans hqr, hleft',
    howed.pair howed' hpq hqr hQ, hfit, hfit'⟩

theorem map (wrap : α → γ) (f : β → δ) (h : Used p use m code fit Q)
    (hcode : ∀ x ε, fit x → code' (wrap x) ε = code x ε >>= fun u => Pure.pure (f u))
    (hf : ∀ ρ u, Q ρ u → P ρ (f u)) (hfit : ∀ x, fit x → fit' (wrap x)) :
    Used p (fun build => use fun x => build (wrap x)) m code' fit' P := by
  intro build hbuild
  rcases h (fun x => build (wrap x)) fun x => hbuild (wrap x) with
    ⟨q, x, harrives, hpq, hleft, howed, hx⟩
  exact ⟨q, wrap x, harrives, hpq, hleft, (howed.map hf).congr fun ε => hcode x ε hx, hfit x hx⟩

/-- What is computed in place from the values. -/
theorem inPlace (wrap : α → Expr) (f : β → Exec Value) {fit' : Expr → Prop} {direct : Exec Value}
    (h : Used p use m code fit Q) (hcode : ∀ x ε, fit x → eval ε (wrap x) = code x ε >>= f)
    (hf : ∀ ρ u, Q ρ u → InPlace (Value.Realized ρ) direct (f u)) (hdirect : direct m = .ok v m')
    (hspared : m.Spared m') (hfit : ∀ x, fit x → fit' (wrap x)) :
    Used p (fun build => use fun x => build (wrap x)) m' (fun x ε => eval ε x) fit'
      fun τ w => v.Realized τ w := by
  intro build hbuild
  rcases h (fun x => build (wrap x)) fun x => hbuild (wrap x) with
    ⟨q, x, harrives, hpq, rfl, howed, hx⟩
  have hleft := advance_leftTo hpq.reaches.state hspared.nextId hspared.store
  exact ⟨q.leftTo m', wrap x, harrives, hpq.trans hleft, rfl,
    (howed.inPlace hf hdirect hspared hpq.reaches.left hpq.reaches.state).congr
      fun ε => hcode x ε hx, hfit x hx⟩

theorem delivers {use : Build Expr → Gen Expr} {fit : Expr → Prop} {kx : Expr}
    (h : Used p use m (fun x ε => eval ε x) fit fun τ w => v.Realized τ w)
    (hk : IsKont p.count p.env kx) :
    Delivers p ((use fun x => Pure.pure (resume kx x)).run p.count).1 kx m v
      fun _ => p.env.Agrees p.count := by
  rcases h (fun x => Pure.pure (resume kx x)) fun _ => .pure _ with
    ⟨q, x, harrives, hpq, rfl, howed, _⟩
  exact (howed.evaluable hpq True).delivers hpq hk le_rfl rfl harrives

theorem named {pass : Build Expr} {fit : Expr → Prop} (h : ∀ c kx, IsKont c p.env kx →
      Delivers { p with count := c } ((pass kx).run c).1 kx m v fun _ => p.env.Agrees c)
    (hfit : ∀ x, fit (.var x)) :
    Used p (useResult pass) m (fun x ε => eval ε x) fit fun τ w => v.Realized τ w := by
  intro build hbuild
  let x := generated "result" p.count
  have hcount := hbuild (.var x) (p.count + 1)
  let body := ((build (.var x)).run (p.count + 1)).1
  let c := ((build (.var x)).run (p.count + 1)).2
  rcases h c (.lambda [x] body) (.lambda x body) with ⟨π, n, kv, w, harrives, hkv, hreaches, hvw⟩
  have hfresh : IsFresh p.count x := isFresh_generated (by decide) le_rfl
  -- The body was made before the code that delivers, so none of its names are bound meanwhile.
  generalize hkx : Expr.lambda [x] body = kx at hkv
  cases hkv with
  | var _ => cases hkx
  | @lambda y body' env' i hagrees =>
    cases hkx
    let q : Juncture := ⟨⟨π, m, n⟩, p.count + 1, [(x, w)] :: env'⟩
    have hpq : Advance p q :=
      ⟨Nat.le_succ _, (hagrees.mono ((Nat.le_succ _).trans hcount)).bind hfresh w, hreaches⟩
    refine ⟨q, .var x, harrives.trans (.resume i x body env' w n), hpq, rfl, ?_, hfit x⟩
    refine ⟨∅, Set.empty_subset _, nofun, fun s ε ρ l hagrees' hρ _ hV => ?_⟩
    have hlookup : ε.lookup? x = some w := by
      rw [hagrees' x (not_isFresh_of_lt (by decide) (Nat.lt_succ_self _))]
      exact lookup?_bound _ x w
    exact ⟨ρ, l, w, eval_var (generated_ne_storeName _ _) hlookup, .refl _ ρ l, hvw.mono hρ, hV⟩

end Used

end Chance
