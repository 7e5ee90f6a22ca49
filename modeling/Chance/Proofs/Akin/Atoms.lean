import Chance.Proofs.Akin.Places
import Chance.Proofs.Meaning.Expressions
import Chance.Proofs.Renaming.Evaluation

/-!
# Expressions in place, side by side

Expressions that are evaluated in place have values that do the same if their parts do. Functions do
the same if their bodies lead to runs that end alike, from whatever place they are called.

- `Place.Atom.formed`: forms around operands,
- `Place.Atom.function`: functions,
- `Place.Scope.enter`: the scopes in which their bodies are evaluated.
-/

namespace Chance

open Compile

namespace Place

variable {P Q : Place} {a a' b b' c c' : Expr} {as as' : List Expr}

/-! ## Values of expressions -/

namespace Atom

theorem evals (h : P.Atom a a') (hPQ : P.Later ∅ Q) {ρ : Matching} (hρ : Q.ids ≤ ρ) {m m' : Machine}
    (hm : m.Akin (ties Q.fuel) ρ m') :
    Abreast (ties Q.fuel) ρ (Value.Akin (ties Q.fuel)) (eval Q.env a) (eval Q.env' a') m m' :=
  h { Q with ids := ρ } (hPQ.trans (.tasks le_rfl hρ) subset_rfl) m m' hm

theorem evalsAll (h : List.Forall₂ P.Atom as as') (hPQ : P.Later ∅ Q) {ρ : Matching}
    (hρ : Q.ids ≤ ρ) {m m' : Machine} (hm : m.Akin (ties Q.fuel) ρ m') :
    Abreast (ties Q.fuel) ρ (fun τ => List.Forall₂ (Value.Akin (ties Q.fuel) τ))
      (evalAll Q.env as) (evalAll Q.env' as') m m' := by
  induction h generalizing ρ m m' with
  | nil => exact .pure hm .nil
  | cons ha _ ih =>
    refine .bind (ha.evals hPQ hρ hm) ?_
    intro τ v w l l' hτ hv hl
    refine .bind (ih (Matching.le_trans hρ hτ) hl) ?_
    intro υ vs ws n n' hυ hs hn
    exact .pure hn (.cons (hv.mono (Ties.le_refl _) hυ) hs)

theorem const {v w : Value} (ha : ∀ env, eval env a = pure v) (ha' : ∀ env, eval env a' = pure w)
    (hv : ∀ T π, v.Akin T π w) : P.Atom a a' := by
  intro Q _ m m' hm
  rw [ha, ha']
  exact .pure hm (hv _ _)

theorem formed {wrap : List Expr → Expr} {make : List Value → Exec Value}
    (h : Formed a as wrap make)
    (h' : Formed a' as' wrap make) (hs : List.Forall₂ P.Atom as as') : P.Atom a a' := by
  intro Q hPQ m m' hm
  rw [h.eval, h'.eval]
  refine .bind (evalsAll hs hPQ (Matching.le_refl _) hm) ?_
  intro ρ vs ws l l' _ hs hl
  exact (h.inStep (akin_likeness _ ρ) hs).abreast hl

theorem logic (op : LogicOp) (ha : P.Atom a a') (hb : P.Atom b b') :
    P.Atom (.logic a b op) (.logic a' b' op) := by
  intro Q hPQ m m' hm
  refine .bind (ha.evals hPQ (Matching.le_refl _) hm) ?_
  intro ρ v w l l' hρ hv hl
  have hright := hb.evals hPQ hρ hl
  rw [(akin_likeness _ ρ).semblance.truthy_eq hv]
  cases op <;> cases w.truthy
  · exact .pure hl hv
  · exact hright
  · exact hright
  · exact .pure hl hv

theorem cond (ha : P.Atom a a') (hb : P.Atom b b') (hc : P.Atom c c') :
    P.Atom (.cond a b c) (.cond a' b' c') := by
  intro Q hPQ m m' hm
  refine .bind (ha.evals hPQ (Matching.le_refl _) hm) ?_
  intro ρ v w l l' hρ hv hl
  rw [(akin_likeness _ ρ).semblance.truthy_eq hv]
  split_ifs
  · exact hb.evals hPQ hρ hl
  · exact hc.evals hPQ hρ hl

theorem assign (hb : P.Atom b b') (ha : P.Atom a a') :
    P.Atom (.assign (.member (.var Expr.storeName) b) a)
      (.assign (.member (.var Expr.storeName) b') a') := by
  intro Q hPQ m m' hm
  simp only [eval, if_true]
  refine .bind (hb.evals hPQ (Matching.le_refl _) hm) ?_
  intro ρ v w l l' hρ hv hl
  refine .bind (ha.evals hPQ hρ hl) ?_
  intro τ v' w' n n' hτ hv' hn
  rw [(akin_likeness _ ρ).key_eq hv]
  exact .modify_bind rfl rfl (.pure (hn.withStore (Semblance.setField hn.store _ hv')) hv')

end Atom

/-! ## Names and functions -/

theorem Scope.var {X : Set String} (h : P.Scope X) {x : String} (hfresh : ¬ IsFresh 0 x)
    (hx : x ∉ X) : P.Atom (.var x) (.var x) := by
  intro Q hPQ m m' hm
  simp only [eval]
  split_ifs
  · exact .pure hm (.object hm.store)
  · have hlookup := (h.later hPQ (Set.empty_subset X)) x hfresh hx
    generalize Q.env.lookup? x = v at hlookup ⊢
    generalize Q.env'.lookup? x = w at hlookup ⊢
    cases hlookup with
    | none => exact .throw _ hm
    | some hv => exact .pure hm hv

/-- The place in the bodies of functions. -/
def enter (P : Place) (c c' : Nat) (frame frame' : Frame) : Place :=
  ⟨P.fuel, P.ids, c, c', frame :: P.env, frame' :: P.env'⟩

/-- Functions whose bodies do the same do the same. -/
theorem Atom.function {name : Option String} {params : List String} {κ κ' : String} {c c' : Nat}
    {g g' : Gen Expr}
    (h : ∀ Q, P.Later ∅ Q → ∀ self self' k k' vs ws, self.Akin (ties Q.fuel) Q.ids self' →
      k.Receives (ties Q.fuel) Q.ids k' →
      List.Forall₂ (Value.Akin (ties Q.fuel) Q.ids) vs ws →
      (Q.enter c c' (bindParams self name (κ :: params) (k :: vs))
        (bindParams self' name (κ' :: params) (k' :: ws))).Code g g') :
    P.Atom (.func name (κ :: params) [.expr (g.run c).1])
      (.func name (κ' :: params) [.expr (g'.run c').1]) := by
  intro Q hPQ m m' hm
  refine .freshId_bind hm fun ρ i j n n' hρ hij hn => .pure hn (.closure hij ?_)
  refine call_tie fun k hk htie τ hτ κv κv' vs ws l l' hκ hs hl => ?_
  -- The function goes by its own name in its body, for the tasks that are left.
  have hself := Value.Akin.closure (hτ _ _ hij) ((ties k).call_mono hτ htie)
  have hlater : P.Later ∅ { Q with fuel := k, ids := τ } :=
    hPQ.trans (.tasks hk.le (Matching.le_trans hρ hτ)) subset_rfl
  exact h _ hlater _ _ κv κv' vs ws hself hκ hs l l' hl

section Entering

variable {name : Option String} {params : List String} {self self' k k' : Value}
  {vs ws : List Value} {κ κ' : String} {X : Set String}

theorem bindParams_continuation (self : Value) (name : Option String) (params : List String)
    (κ : String) (k : Value) (vs : List Value) :
    bindParams self name (κ :: params) (k :: vs) =
      bindParams self name [] [] ++ (κ, k) ::
        params.zipIdx.map fun (x, i) => (x, argument vs i) := by
  simp only [bindParams, List.zipIdx_cons', List.map_cons, List.map_map, List.zipIdx_nil,
    List.map_nil, List.append_nil, Function.comp_def, Prod.map]
  rfl

theorem bindParams_split (self : Value) (name : Option String) (params : List String)
    (vs : List Value) : bindParams self name params vs =
      bindParams self name [] [] ++ params.zipIdx.map fun (x, i) => (x, argument vs i) := by
  simp only [bindParams, List.zipIdx_nil, List.map_nil, List.append_nil]

theorem frameLookup_continuation {x : String} (hne : κ ≠ x) :
    frameLookup (bindParams self name (κ :: params) (k :: vs)) x =
      frameLookup (bindParams self name params vs) x := by
  rw [bindParams_continuation, bindParams_split self name params vs, List.append_cons,
    frameLookup_append, frameLookup_append, frameLookup_append, frameLookup_singleton, if_neg hne,
    Option.none_or]

theorem Scope.enter (h : P.Scope X) (c c' : Nat) (hself : self.Akin (ties P.fuel) P.ids self')
    (hs : List.Forall₂ (Value.Akin (ties P.fuel) P.ids) vs ws) (hκ : IsFresh 0 κ)
    (hκ' : IsFresh 0 κ') :
    (P.enter c c' (bindParams self name (κ :: params) (k :: vs))
      (bindParams self' name (κ' :: params) (k' :: ws))).Scope (X \ boundBy name params) := by
  intro x hfresh hx
  have hne {y : String} (hy : IsFresh 0 y) : y ≠ x := by
    rintro rfl
    exact hfresh hy
  have hframe := frameLookup_rel ((akin_likeness _ _).bindParams name params hself hs) x
  rw [Place.enter, lookup?_cons, lookup?_cons, frameLookup_continuation (hne hκ),
    frameLookup_continuation (hne hκ')]
  by_cases hbound : x ∈ boundBy name params
  · -- Parameters, and the function itself, are found in the scope of the call.
    rw [← bindParams_names self name params vs] at hbound
    obtain ⟨v, hv⟩ := frameLookup_isSome hbound
    rw [hv] at hframe ⊢
    generalize frameLookup (bindParams self' name params ws) x = o at hframe ⊢
    cases hframe with
    | some hvw => exact .some hvw
  · exact optionOr_rel hframe (h x hfresh fun hX => hx ⟨hX, hbound⟩)

theorem lookup?_entered (self : Value) (name : Option String) (k : Value) (vs : List Value)
    (env : Env) (hparams : ∀ x ∈ params, x ≠ κ) :
    Env.lookup? (bindParams self name (κ :: params) (k :: vs) :: env) κ = some k := by
  rw [bindParams_continuation]
  refine lookup?_here (List.forall_mem_map.2 fun x hx => ?_)
  exact hparams _ (List.fst_mem_of_mem_zipIdx hx)

theorem named_enter {i i' c c' : Nat} (hi : i < c) (hi' : i' < c')
    (hparams : ∀ x ∈ params, ¬ IsFresh 0 x) (hk : k.Receives (ties P.fuel) P.ids k') :
    (P.enter c c' (bindParams self name (generated "k" i :: params) (k :: vs))
      (bindParams self' name (generated "k" i' :: params) (k' :: ws))).Named (generated "k" i)
      (generated "k" i') := by
  have hne (j : Nat) (x : String) (hx : x ∈ params) : x ≠ generated "k" j := by
    rintro rfl
    exact hparams _ hx (isFresh_generated (by decide) (Nat.zero_le j))
  exact ⟨⟨i, hi, rfl⟩, ⟨i', hi', rfl⟩, k, k', lookup?_entered self name k vs P.env (hne i),
    lookup?_entered self' name k' ws P.env' (hne i'), hk⟩

end Entering

end Place

end Chance
