import Chance.Proofs.Akin.Usages

/-!
# What follows a statement

The code of a statement goes on with the code of the statements after it. In one of two programs
what follows may be a continuation that was made before, while in the other the statements that
follow have been moved to the end of each path. So what has to be known of two continuations depends
on the statements that are still to come in the second program.

- `Place.Resumes`: a continuation goes on as the statements that are still to come,
- `Place.After`: what is known of what follows,
- `Place.After.preceded`, `Place.After.name`: statements before, and a name for the continuation.
-/

namespace Chance

open Compile

/-! ## The continuation of a statement -/

theorem sequence_lastChoice (t : Expr) (c a : List Stmt) {k : Expr} (h : k.isVar = true) :
    sequence [.ifElse t c a] k = choosing t c a k := by
  cases k with
  | var x => rfl
  | _ => cases h

/-! ## Statements that are still to come -/

/-- Wherever the continuation is made, giving it a value leads to the same as the statements that
are still to come in the second program. -/
structure Place.Resumes (P : Place) (D A : Set String) (k : Expr) (onto : List Stmt)
    (k' : Expr) : Prop where
  left : IsKont P.left P.env k
  value : ∀ Q, P.Later D Q → Q.Scope A → ∀ m, ∃ kv, Makes (eval Q.env k) m kv ∧
    kv.isClosure = true ∧ ∀ R, P.Later D R → R.env = Q.env → R.Scope A → ∀ v l l',
      l.Akin (ties R.fuel) R.ids l' →
      Sim R.fuel (applyValue kv [v]) l
        (evalTail R.env' ((sequence onto k').run R.right).1) l'

/-- What is known of what follows: continuations that do the same, unless in the second program
statements are still to come. -/
structure Place.After (P : Place) (D A : Set String) (k : Expr) (onto : List Stmt)
    (k' : Expr) : Prop where
  kont : onto = [] → P.Kont D A k k'
  resumes : onto ≠ [] → P.Resumes D A k onto k'

namespace Place

variable {D D' A A' X : Set String} {P Q : Place} {k k' : Expr} {onto : List Stmt}
  {g g' : Gen Expr} {f : Build Expr}

/-- Code that is made from what was made before. -/
theorem Code.bind {f' : Build Expr}
    (h : Place.Code { P with left := (g.run P.left).2, right := (g'.run P.right).2 }
      (f (g.run P.left).1) (f' (g'.run P.right).1)) : P.Code (g >>= f) (g' >>= f') :=
  h

theorem Code.bindLeft
    (h : Place.Code { P with left := (g.run P.left).2 } (f (g.run P.left).1) g') :
    P.Code (g >>= f) g' :=
  h

theorem Kont.since (h : P.Kont D A k k') (hPQ : P.Later D Q) : Q.Kont D A k k' where
  left := isKont_later h.left hPQ.left hPQ.env
  right := isKont_later h.right hPQ.right hPQ.env'
  value R hQR hR := h.value R (hPQ.trans hQR subset_rfl) hR

theorem Kont.anti (h : P.Kont D A k k') (hA : A' ⊆ A) : P.Kont D A' k k' :=
  { h with value := fun Q hPQ hQ => h.value Q hPQ (hQ.anti hA) }

theorem Resumes.since (h : P.Resumes D A k onto k') (hPQ : P.Later D Q) :
    Q.Resumes D A k onto k' where
  left := isKont_later h.left hPQ.left hPQ.env
  value R hQR hR m := by
    obtain ⟨kv, hkv, hclosure, hresume⟩ := h.value R (hPQ.trans hQR subset_rfl) hR m
    exact ⟨kv, hkv, hclosure, fun M hQM => hresume M (hPQ.trans hQM subset_rfl)⟩

theorem Resumes.anti (h : P.Resumes D A k onto k') (hA : A' ⊆ A) :
    P.Resumes D A' k onto k' where
  left := h.left
  value Q hPQ hQ m := by
    obtain ⟨kv, hkv, hclosure, hresume⟩ := h.value Q hPQ (hQ.anti hA) m
    exact ⟨kv, hkv, hclosure, fun R hPR henv hR => hresume R hPR henv (hR.anti hA)⟩

theorem After.since (h : P.After D A k onto k') (hPQ : P.Later D Q) : Q.After D A k onto k' :=
  ⟨fun hnil => (h.kont hnil).since hPQ, fun hne => (h.resumes hne).since hPQ⟩

theorem After.anti (h : P.After D A k onto k') (hA : A' ⊆ A) : P.After D A' k onto k' :=
  ⟨fun hnil => (h.kont hnil).anti hA, fun hne => (h.resumes hne).anti hA⟩

theorem After.left (h : P.After D A k onto k') : IsKont P.left P.env k := by
  by_cases hnil : onto = []
  · exact (h.kont hnil).left
  · exact (h.resumes hnil).left

theorem Named.after {x x' : String} (h : P.Named x x') :
    P.After D A (.var x) [] (.var x') :=
  ⟨fun _ => h.kont, fun hne => absurd rfl hne⟩

/-! ## Statements before -/

section Before

variable {ss R : List Stmt} {x : String} {c : Nat}

theorem following_lambda (h : ss ≠ []) (k : Expr) (c : Nat) : (following ss k).run c =
    (.lambda [generated "dummy" c] ((sequence ss k).run (c + 1)).1,
      ((sequence ss k).run (c + 1)).2) := by
  rw [following, if_neg (by simpa using h)]
  rfl

theorem Later.bindLeft (h : P.Later D Q) (hc : P.left ≤ c) (hx : ¬ Stays D P.left x) (v : Value) :
    P.Later D { Q with left := c, env := [(x, v)] :: Q.env } :=
  { h with
    left := hc
    env := fun y hy => by
      have hne : x ≠ y := by
        rintro rfl
        exact hx hy
      exact (lookup?_outside (List.forall_mem_singleton.2 hne)).trans (h.env y hy) }

theorem Later.bindRight (h : P.Later D Q) (hc : P.right ≤ c) (hx : ¬ Stays D P.right x)
    (v : Value) : P.Later D { Q with right := c, env' := [(x, v)] :: Q.env' } :=
  { h with
    right := hc
    env' := fun y hy => by
      have hne : x ≠ y := by
        rintro rfl
        exact hx hy
      exact (lookup?_outside (List.forall_mem_singleton.2 hne)).trans (h.env' y hy) }

theorem Scope.bindLeft (h : P.Scope X) (hx : IsFresh 0 x) (c : Nat) (v : Value) :
    Scope { P with left := c, env := [(x, v)] :: P.env } X := by
  intro y hfresh hy
  have hne : x ≠ y := by
    rintro rfl
    exact hfresh hx
  dsimp only
  rw [lookup?_outside (List.forall_mem_singleton.2 hne)]
  exact h y hfresh hy

theorem Scope.bindRight (h : P.Scope X) (hx : IsFresh 0 x) (c : Nat) (v : Value) :
    Scope { P with right := c, env' := [(x, v)] :: P.env' } X := by
  intro y hfresh hy
  have hne : x ≠ y := by
    rintro rfl
    exact hfresh hx
  dsimp only
  rw [lookup?_outside (List.forall_mem_singleton.2 hne)]
  exact h y hfresh hy

theorem isFresh_dummy (n : Nat) : IsFresh 0 (generated "dummy" n) :=
  isFresh_generated (by decide) (Nat.zero_le n)

theorem not_stays_dummy (n : Nat) : ¬ Stays D n (generated "dummy" n) :=
  not_stays_generated (by decide) le_rfl

variable {A₁ : Set String} {κ : Expr}

/-- The statements of the first program are put before what follows; in the second program they are
still to come. -/
theorem After.preceded (h : P.After D A κ onto k') (hnil : ss = [] → R = onto ∧ A₁ ⊆ A)
    (hempty : ss ≠ [] → R ≠ [])
    (hcode : ∀ Q, P.Later D Q → Q.Scope A₁ → Q.Code (sequence ss κ) (sequence R k')) :
    Place.After { P with left := ((following ss κ).run P.left).2 } D A₁
      ((following ss κ).run P.left).1 R k' := by
  by_cases hss : ss = []
  · obtain ⟨rfl, hA⟩ := hnil hss
    subst hss
    exact h.anti hA
  · refine ⟨fun hR => absurd hR (hempty hss), fun _ => ?_⟩
    rw [following_lambda hss]
    refine ⟨.lambda _ _, fun Q hPQ hQ m => ⟨_, makes_lambda Q.env _ _ m, rfl, ?_⟩⟩
    intro M hPM henv hM v l l' hl
    have hlater : P.Later D
        { M with left := P.left + 1, env := [(generated "dummy" P.left, v)] :: M.env } :=
      Later.bindLeft (Later.trans (.counts ?_ le_rfl) hPM subset_rfl) (Nat.le_succ _)
        (not_stays_dummy _) v
    · rw [← henv]
      exact hcode _ hlater (hM.bindLeft (isFresh_dummy _) _ v) l l' hl
    · exact (Nat.le_succ _).trans (sequence_counts ss κ _)

end Before

/-! ## Going on -/

section Onward

variable {kv : Value}

theorem arrives_resume (h : kv.isClosure = true) (v : Value) (m : Machine) :
    Arrives (pure (.resume kv v)) m (applyValue kv [v]) m := by
  cases kv with
  | closure => exact .of_bounce rfl
  | _ => cases h

theorem After.resume (h : P.After D A k onto k') (hP : P.Scope A) :
    P.Code (sequence [] k) (sequence onto k') := by
  by_cases hnil : onto = []
  · subst hnil
    exact ((h.kont rfl).here (.refl P) hP).resume
      (.const (fun _ => rfl) (fun _ => rfl) fun _ _ => .undefined)
  · intro m m' hm
    have hresumes := h.resumes hnil
    obtain ⟨kv, ⟨i, hi⟩, hclosure, hresume⟩ := hresumes.value P (.refl P) hP m
    have harrives : Arrives (evalTail P.env (Compile.resume k .undefined)) m
        (pure (.resume kv .undefined)) { m with nextId := m.nextId + i } := by
      refine .of_eq ?_
      rw [evalTail_handing _ hresumes.left.isPrimitive, Exec.bind_ok hi]
      rfl
    exact (hresume P (.refl P) rfl hP .undefined _ _ (hm.skip i 0)).after_left
      (harrives.trans (arrives_resume hclosure _ _))

theorem After.handed (h : P.After D A k onto k') :
    Place.Kont { P with right := ((following onto k').run P.right).2 } D A k
      ((following onto k').run P.right).1 := by
  by_cases hnil : onto = []
  · subst hnil
    exact h.kont rfl
  · have hresumes := h.resumes hnil
    have hcounts : P.right + 1 ≤ ((sequence onto k').run (P.right + 1)).2 :=
      sequence_counts onto k' _
    rw [following_lambda hnil]
    refine ⟨hresumes.left, .lambda _ _, fun Q hPQ hQ m m' => ?_⟩
    have hlater : P.Later D Q :=
      Later.trans (.counts le_rfl ((Nat.le_succ _).trans hcounts)) hPQ subset_rfl
    obtain ⟨kv, hkv, hclosure, hresume⟩ := hresumes.value Q hlater hQ m
    refine ⟨kv, _, hkv, makes_lambda Q.env' _ _ m', ?_⟩
    cases kv with
    | closure => ?_
    | _ => cases hclosure
    -- The continuation of the first is tied to a new function of the second that runs the rest.
    refine .closure (resume_tie fun n hn ρ hρ v w l l' hv hl => ?_)
    let R : Place := { Q with
      fuel := n, ids := ρ, right := P.right + 1,
      env' := [(generated "dummy" P.right, w)] :: Q.env' }
    have hQ' : Place.Scope { Q with fuel := n, ids := ρ } A :=
      hQ.later (.tasks hn.le hρ) (Set.empty_subset A)
    refine hresume R ?_ rfl (hQ'.bindRight (isFresh_dummy _) _ w) v l l' hl
    have hlater' : P.Later D { Q with fuel := n, ids := ρ } :=
      hlater.trans (.tasks hn.le hρ) (Set.empty_subset D)
    exact hlater'.bindRight (Nat.le_succ _) (not_stays_dummy _) w

/-- A name for a continuation that goes on as the statements that are still to come. What it does
was settled when it was made, so that arms may declare names on which it does not depend. -/
theorem Resumes.named {x : String} (hPQ : P.Later ∅ Q) (hx : ∃ i < Q.left, x = generated "k" i)
    (hlookup : Q.env.lookup? x = some kv) (hclosure : kv.isClosure = true) (hP : P.Scope A)
    (hA : D ⊆ A) (h : ∀ R, P.Later D R → R.env = P.env → R.Scope A → ∀ v l l',
      l.Akin (ties R.fuel) R.ids l' →
      Sim R.fuel (applyValue kv [v]) l
        (evalTail R.env' ((sequence onto k').run R.right).1) l') :
    Q.Resumes D A (.var x) onto k' := by
  obtain ⟨i, hi, rfl⟩ := hx
  refine ⟨.var hi hlookup, fun M hQM _ m =>
    ⟨kv, makes_var (generated_ne_storeName _ _) ?_ m, hclosure, ?_⟩⟩
  · rw [hQM.env _ (stays_k hi), hlookup]
  · intro R hQR _ _ v l l' hl
    have hPR : P.Later D R := (hPQ.mono (Set.empty_subset D)).trans hQR subset_rfl
    have hback : P.Later D { R with left := P.left, env := P.env } :=
      { hPR with left := le_rfl, env := fun _ _ => rfl }
    exact h _ hback rfl (hP.later hback hA) v l l' hl

/-- The continuation of the first program is named, before arms that may declare some names. -/
theorem After.name (h : P.After D A k onto k') (hP : P.Scope A) (hD : D' ⊆ D) (hA : D' ⊆ A)
    (hvar : k'.isVar = true) {b : Build Expr} {g' : Gen Expr}
    (hb : ∀ Q x, P.Later ∅ Q → Q.After D' A (.var x) onto k' → Q.Code (b (.var x)) g') :
    P.Code (nameContinuation k b) g' := by
  intro m m' hm
  obtain ⟨j, hj⟩ := nameContinuation_runs h.left b
  -- The first run goes on under the name, the second stays where it is.
  have hgo {kv : Value} (hkv : Makes (eval P.env k) { m with nextId := m.nextId + j } kv)
      (hafter : ∀ c env x, P.Later ∅ { P with left := c, env := env } →
        (∃ i < c, x = generated "k" i) → env.lookup? x = some kv →
        Place.After { P with left := c, env := env } D' A (.var x) onto k') :
      Sim P.fuel (evalTail P.env ((nameContinuation k b).run P.left).1) m
        (evalTail P.env' (g'.run P.right).1) m' := by
    obtain ⟨i, c, x, env, harrives, hc, henv, hx, hlookup⟩ := hj m kv hkv
    have hlater : P.Later ∅ { P with left := c, env := env } :=
      ⟨le_rfl, Matching.le_refl _, hc, le_rfl, fun y hy => henv y hy.1, fun _ _ => rfl⟩
    exact (hb _ x hlater (hafter c env x hlater hx hlookup) _ _ (hm.skip i 0)).after_left harrives
  by_cases hnil : onto = []
  · have hkont := h.kont hnil
    obtain ⟨kv, kv', hkv, ⟨i', hi'⟩, hreceives⟩ := hkont.value P (.refl P) hP
      { m with nextId := m.nextId + j } m'
    have hright := hkont.right
    cases hright with
    | lambda => cases hvar
    | @var n w hn hlookup' =>
      rw [eval_var (generated_ne_storeName _ _) hlookup'] at hi'
      obtain ⟨rfl, -⟩ := EStateM.Result.ok.inj hi'
      refine hgo hkv fun c env x _ hx hlookup => ?_
      subst hnil
      exact Named.after ⟨hx, ⟨n, hn, rfl⟩, kv, w, hlookup, hlookup', hreceives⟩
  · obtain ⟨kv, hkv, hclosure, hresume⟩ := (h.resumes hnil).value P (.refl P) hP
      { m with nextId := m.nextId + j }
    refine hgo hkv fun c env x hlater hx hlookup => ⟨fun heq => absurd heq hnil, fun _ => ?_⟩
    exact .named hlater hx hlookup hclosure hP hA fun R hPR => hresume R (hPR.mono hD)

end Onward

end Place

end Chance
