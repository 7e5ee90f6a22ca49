import Chance.Proofs.Akin.Atoms

/-!
# Usages side by side

The code of two expressions does the same if the code of their parts does: it hands values that do
the same to continuations that do the same, and it goes on alike with what is left of the
expressions.

- `Leaves`: what is left of an expression where it is used,
- `Place.Converts`: two expressions with code that does the same,
- `Through`: expressions that are handed over as their parts are used,
- `Place.Converts.formed`: forms around operands; there is one rule for each of the others.
-/

namespace Chance

open Compile

/-! ## What is left of an expression -/

/-- Neither a name nor a text nor a member. -/
def Expr.isBare : Expr → Bool
  | .var _ | .str _ | .member .. => false
  | _ => true

/-- What is left of an expression, as far as its form matters to what is around it. -/
structure Leaves (e a : Expr) : Prop where
  fits : Fits e a
  isStore : a.isStore = e.isStore
  isPlace : a.isPlace = e.isPlace

namespace Leaves

theorem refl {e : Expr} (h : e.isAtomic = true) : Leaves e e := ⟨.refl h, rfl, rfl⟩

theorem name {e : Expr} (h : e.isNamed = true) (n : Nat) :
    Leaves e (.var (generated "result" n)) where
  fits := .name h _
  isStore := by
    have hne : (generated "result" n == Expr.storeName) = false :=
      beq_eq_false_iff_ne.2 (generated_ne_storeName _ _)
    cases e with
    | binary | logic | cond | call | assign => exact hne
    | _ => cases h
  isPlace := by
    cases e with
    | binary | logic | cond | call | assign => rfl
    | _ => cases h

theorem member {o p x y : Expr} (ho : Leaves o x) (hp : Leaves p y) :
    Leaves (.member o p) (.member x y) :=
  ⟨ho.fits.member hp.fits, rfl, ho.isStore⟩

theorem bare {e a : Expr} (he : e.isBare = true) (ha : a.isBare = true)
    (hnamed : e.isNamed = false) : Leaves e a := by
  have hform {x : Expr} (hx : x.isBare = true) : x.isVar = false ∧ x.isStr = false ∧
      x.isPrimitive = false ∧ x.turnsPrimitive = false ∧ x.isStore = false ∧ x.isPlace = false := by
    cases x with
    | var | str | member => cases hx
    | _ => exact ⟨rfl, rfl, rfl, rfl, rfl, rfl⟩
  obtain ⟨hvar, hstr, hprimitive, hturns, hstore, hplace⟩ := hform he
  obtain ⟨hvar', hstr', hprimitive', -, hstore', hplace'⟩ := hform ha
  exact ⟨⟨by rw [hvar, hvar', hnamed]; rfl, by rw [hstr, hstr'],
    by rw [hprimitive, hprimitive', hturns]; rfl⟩, by rw [hstore, hstore'], by rw [hplace, hplace']⟩

end Leaves

/-! ## Usages in general -/

/-- What is left of two expressions has values that do the same. -/
abbrev Residue (e e' : Expr) (Q : Place) (a a' : Expr) : Prop :=
  Q.Atom a a' ∧ Leaves e a ∧ Leaves e' a'

/-- The code of two expressions does the same. -/
structure Place.Converts (P : Place) (e e' : Expr) : Prop where
  use : ∀ Q, P.Later ∅ Q → Q.Uses (usage e).use (usage e').use (Residue e e')
  pass : ∀ Q, P.Later ∅ Q → ∀ k k', Q.Kont ∅ Set.univ k k' →
    Q.Code ((usage e).pass k) ((usage e').pass k')

/-- What is left of several expressions. -/
structure Residues (es es' : List Expr) (Q : Place) (as as' : List Expr) : Prop where
  atoms : List.Forall₂ Q.Atom as as'
  left : List.Forall₂ Leaves es as
  right : List.Forall₂ Leaves es' as'

/-- The same of several expressions. -/
def Place.ConvertsAll (P : Place) (es es' : List Expr) : Prop :=
  ∀ Q, P.Later ∅ Q → Q.Uses (Usage.useAll (usageAll es)) (Usage.useAll (usageAll es'))
    (Residues es es')

namespace Place

variable {P Q : Place} {e e' f f' : Expr} {u w : Build Expr → Gen Expr}

theorem Converts.later (h : P.Converts e e') (hPQ : P.Later ∅ Q) : Q.Converts e e' where
  use R hQR := h.use R (hPQ.trans hQR subset_rfl)
  pass R hQR := h.pass R (hPQ.trans hQR subset_rfl)

theorem residue_later {R : Place} {a a' : Expr} (hQR : Q.Later ∅ R) (h : Residue e e' Q a a') :
    Residue e e' R a a' :=
  ⟨h.1.later hQR, h.2⟩

theorem Converts.after {α : Type} {A : Place → α → α → Prop} {v v' : Build α → Gen Expr}
    (h : P.Converts e e') (hv : P.Uses v v' A)
    (hA : ∀ Q R a a', Q.Later ∅ R → A Q a a' → A R a a') :
    P.Uses (fun b => v fun x => (usage e).use fun y => b (x, y))
      (fun b => v' fun x => (usage e').use fun y => b (x, y)) fun R x x' =>
        A R x.1 x'.1 ∧ Residue e e' R x.2 x'.2 :=
  hv.pair (fun Q hPQ => h.use Q hPQ) (fun _ hb => (usage_counts e).use hb)
    (fun _ hb => (usage_counts e').use hb) hA

theorem Converts.pair (h : P.Converts e e') (h' : P.Converts f f') :
    P.Uses (fun b => (usage e).use fun x => (usage f).use fun y => b (x, y))
      (fun b => (usage e').use fun x => (usage f').use fun y => b (x, y)) fun R x x' =>
        Residue e e' R x.1 x'.1 ∧ Residue f f' R x.2 x'.2 :=
  h'.after (h.use P (.refl P)) fun _ _ _ _ => residue_later

theorem ConvertsAll.after {α : Type} {A : Place → α → α → Prop} {v v' : Build α → Gen Expr}
    {es es' : List Expr} (hs : P.ConvertsAll es es') (hv : P.Uses v v' A)
    (hA : ∀ Q R a a', Q.Later ∅ R → A Q a a' → A R a a') :
    P.Uses (fun b => v fun x => Usage.useAll (usageAll es) fun xs => b (x, xs))
      (fun b => v' fun x => Usage.useAll (usageAll es') fun xs => b (x, xs)) fun R x x' =>
        A R x.1 x'.1 ∧ Residues es es' R x.2 x'.2 :=
  hv.pair (fun Q hPQ => hs Q hPQ) (fun _ hb => Usage.useAll_counts (usageAll_counts es) hb)
    (fun _ hb => Usage.useAll_counts (usageAll_counts es') hb) hA

theorem Converts.made (hnamed : e'.isNamed = e.isNamed)
    (hu : e.isNamed = false → (usage e).use = u) (hw : e'.isNamed = false → (usage e').use = w)
    (huse : e.isNamed = false → ∀ Q, P.Later ∅ Q → Q.Uses u w (Residue e e'))
    (hpass : ∀ Q, P.Later ∅ Q → ∀ k k', Q.Kont ∅ Set.univ k k' →
      Q.Code ((usage e).pass k) ((usage e').pass k')) : P.Converts e e' where
  use Q hPQ := by
    cases hflag : e.isNamed with
    | false =>
      rw [hu hflag, hw (hnamed.trans hflag)]
      exact huse hflag Q hPQ
    | true =>
      have hflag' := hnamed.trans hflag
      rw [use_of_isNamed hflag, use_of_isNamed hflag']
      exact .named (fun R hQR => hpass R (hPQ.trans hQR subset_rfl))
        fun _ x x' hatom => ⟨hatom, .name hflag x, .name hflag' x'⟩
  pass := hpass

theorem Converts.through (hu : Through e u) (hw : Through e' w) (hnamed : e'.isNamed = e.isNamed)
    (h : ∀ Q, P.Later ∅ Q → Q.Uses u w fun R a a' =>
      R.Atom a a' ∧ (e.isNamed = false → Leaves e a ∧ Leaves e' a')) : P.Converts e e' := by
  refine .made hnamed hu.use hw.use
    (fun hflag Q hPQ => (h Q hPQ).weaken fun _ _ _ ha => ⟨ha.1, ha.2 hflag⟩) fun Q hPQ k k' hk => ?_
  rw [hu.pass, hw.pass]
  exact (h Q hPQ).resume (fun _ _ _ ha => ha.1) hk

theorem Converts.leaf (hatomic : e.isAtomic = true) (hatomic' : e'.isAtomic = true)
    (hleaf : usage e = .leaf e) (hleaf' : usage e' = .leaf e') (h : P.Atom e e') :
    P.Converts e e' := by
  have hthrough {x : Expr} (hx : usage x = .leaf x) : Through x fun b => b x := by
    refine ⟨fun _ => ?_, fun k => ?_⟩ <;> rw [hx] <;> rfl
  refine .through (hthrough hleaf) (hthrough hleaf') ?_ fun _ hPQ =>
    .leaf ⟨h.later hPQ, fun _ => ⟨.refl hatomic, .refl hatomic'⟩⟩
  rw [Expr.isNamed_of_isAtomic hatomic, Expr.isNamed_of_isAtomic hatomic']

/-! ## Lists and fields -/

section Lists

variable {es es' : List Expr}

theorem ConvertsAll.nil : P.ConvertsAll [] [] := fun _ _ => .leaf ⟨.nil, .nil, .nil⟩

theorem ConvertsAll.later (hs : P.ConvertsAll es es') (hPQ : P.Later ∅ Q) :
    Q.ConvertsAll es es' :=
  fun R hQR => hs R (hPQ.trans hQR subset_rfl)

theorem ConvertsAll.cons (h : P.Converts e e') (hs : P.ConvertsAll es es') :
    P.ConvertsAll (e :: es) (e' :: es') := by
  intro Q hPQ
  have hpair := (hs.later hPQ).after (h.use Q hPQ) fun _ _ _ _ => residue_later
  refine hpair.map (fun x => x.1 :: x.2) (fun x => x.1 :: x.2) ?_
  rintro R x x' ⟨hx, hxs⟩
  exact ⟨.cons hx.1 hxs.atoms, .cons hx.2.1 hxs.left, .cons hx.2.2 hxs.right⟩

end Lists

end Place

/-! ## Forms -/

namespace Place

variable {P Q : Place} {e e' f f' : Expr}

theorem leaves_formed {es xs : List Expr} {wrap : List Expr → Expr} {make : List Value → Exec Value}
    (h : Formed e es wrap make) (hnamed : e.isNamed = false) (hs : List.Forall₂ Leaves es xs) :
    Leaves e (wrap xs) := by
  cases h with
  | member =>
    obtain _ | ⟨ho, _ | ⟨hp, ⟨⟩⟩⟩ := hs
    exact ho.member hp
  | _ => exact .bare rfl rfl hnamed

theorem Converts.formed {es es' : List Expr} {wrap : List Expr → Expr}
    {make : List Value → Exec Value} (h : Formed e es wrap make) (h' : Formed e' es' wrap make)
    (hnamed : e'.isNamed = e.isNamed) (hs : P.ConvertsAll es es') : P.Converts e e' := by
  refine .through h.through h'.through hnamed fun Q hPQ => (hs Q hPQ).map wrap wrap ?_
  intro R xs xs' hxs
  have hfits {ds as : List Expr} (hleaves : List.Forall₂ Leaves ds as) : List.Forall₂ Fits ds as :=
    hleaves.imp fun _ _ hleaf => hleaf.fits
  exact ⟨.formed (h.residue (hfits hxs.left)) (h'.residue (hfits hxs.right)) hxs.atoms,
    fun hflag => ⟨leaves_formed h hflag hxs.left, leaves_formed h' (hnamed.trans hflag) hxs.right⟩⟩

theorem leaves_both {a a' : Expr} (he : e.isBare = true) (he' : e'.isBare = true)
    (ha : a.isBare = true) (ha' : a'.isBare = true) (hnamed : e'.isNamed = e.isNamed)
    (hflag : e.isNamed = false) : Leaves e a ∧ Leaves e' a' :=
  ⟨.bare he ha hflag, .bare he' ha' (hnamed.trans hflag)⟩

/-! ### Assignments -/

section Assignments

theorem Converts.assign
    (hnamed : (Expr.assign (.member (.var Expr.storeName) e') f').isNamed =
      (Expr.assign (.member (.var Expr.storeName) e) f).isNamed)
    (h : P.Converts e e') (h' : P.Converts f f') :
    P.Converts (.assign (.member (.var Expr.storeName) e) f)
      (.assign (.member (.var Expr.storeName) e') f') := by
  refine .through (through_assign _ f) (through_assign _ f') hnamed fun Q hPQ => ?_
  simp only [use_member]
  refine ((h.later hPQ).pair (h'.later hPQ)).map
    (fun x => Expr.assign (.member (.var Expr.storeName) x.1) x.2)
    (fun x => Expr.assign (.member (.var Expr.storeName) x.1) x.2) ?_
  intro R x x' hx
  exact ⟨hx.1.1.assign hx.2.1, leaves_both rfl rfl rfl rfl hnamed⟩

theorem Converts.assign_other (hplace : e.isPlace = false) (hplace' : e'.isPlace = false)
    (hnamed : (Expr.assign e' f').isNamed = (Expr.assign e f).isNamed)
    (h : P.Converts e e') (h' : P.Converts f f') :
    P.Converts (.assign e f) (.assign e' f') := by
  refine .through (through_assign e f) (through_assign e' f') hnamed fun Q hPQ => ?_
  refine ((h.later hPQ).pair (h'.later hPQ)).map (fun x => Expr.assign x.1 x.2)
    (fun x => Expr.assign x.1 x.2) ?_
  intro R x x' hx
  refine ⟨fun M _ m m' hm => ?_, leaves_both rfl rfl rfl rfl hnamed⟩
  rw [eval_assign_other (hx.1.2.1.isPlace.trans hplace),
    eval_assign_other (hx.1.2.2.isPlace.trans hplace')]
  exact .throw _ hm

end Assignments

/-! ### Calls -/

section Calls

variable {es es' : List Expr}

theorem call_code {a a' k k' : Expr} {as as' : List Expr} (hprimitive : a.isPrimitive = false)
    (hprimitive' : a'.isPrimitive = false) (ha : P.Atom a a') (hk : P.Kont ∅ Set.univ k k')
    (has : List.Forall₂ P.Atom as as') :
    P.Code (pure (.call a (k :: as))) (pure (.call a' (k' :: as'))) := by
  have htail {a : Expr} (ha : a.isPrimitive = false) (env : Env) (k : Expr) (as : List Expr) :
      evalTail env (.call a (k :: as)) = eval env a >>= fun g => eval env k >>= fun kv =>
        evalAll env as >>= fun vs => pure (.bounce (.call g (kv :: vs))) := by
    simp only [evalTail, ha, Bool.false_eq_true, if_false, evalAll, bind_assoc, pure_bind]
  intro m m' hm
  refine .of_abreast (π := P.ids) ?_
  change Abreast _ _ _ (evalTail P.env (.call a (k :: as))) (evalTail P.env' (.call a' (k' :: as')))
    m m'
  rw [htail hprimitive, htail hprimitive']
  refine .bind (ha.here hm) ?_
  intro ρ v w l l' hρ hv hl
  have hlater : P.Later ∅ { P with ids := ρ } := .tasks le_rfl hρ
  refine (hk.later hlater).bind_abreast hl fun kv kv' n n' hkv hn => ?_
  refine .bind (Atom.evalsAll has (.refl P) hρ hn) ?_
  intro τ vs ws o o' hτ hvs ho
  exact .pure ho (.bounce (.call (hv.mono (Ties.le_refl _) hτ) (hkv.mono (Ties.le_refl _) hτ) hvs))

theorem Converts.call (hprimitive : e.isPrimitive = false) (hprimitive' : e'.isPrimitive = false)
    (hturns : e.turnsPrimitive = false) (hturns' : e'.turnsPrimitive = false)
    (h : P.Converts e e') (hs : P.ConvertsAll es es') :
    P.Converts (.call e es) (.call e' es') := by
  have hnamed {f : Expr} {fs : List Expr} (hf : f.isPrimitive = false) :
      (Expr.call f fs).isNamed = true := by
    simp only [Expr.isNamed, Expr.isAtomic, hf, Bool.false_and, Bool.not_false]
  refine .made ((hnamed hprimitive').trans (hnamed hprimitive).symm)
    (u := (usage (.call e es)).use) (w := (usage (.call e' es')).use) (fun _ => rfl) (fun _ => rfl)
    (fun hflag => absurd (hnamed hprimitive) (Bool.eq_false_iff.1 hflag)) fun Q hPQ k k' hk => ?_
  have hoperands := (hs.later hPQ).after (h.use Q hPQ) fun _ _ _ _ => residue_later
  have hcode := hoperands (fun x => pure (.call x.1 (k :: x.2)))
    (fun x => pure (.call x.1 (k' :: x.2))) (fun _ => .pure _) (fun _ => .pure _)
    fun R x x' hQR hx => by
      have hcallee := hx.1.2.1.fits.isPrimitive
      have hcallee' := hx.1.2.2.fits.isPrimitive
      rw [hprimitive, hturns] at hcallee
      rw [hprimitive', hturns'] at hcallee'
      exact call_code hcallee hcallee' hx.1.1 (hk.later hQR) hx.2.atoms
  simpa only [usage, Usage.call, Usage.make, hprimitive, hprimitive', Bool.false_eq_true, if_false]
    using hcode

end Calls

/-! ### Choices -/

section Choices

variable {a a' : Expr} {yes yes' no no' : Gen Expr}

theorem evalTail_cond_error {env : Env} {x : Expr} {n n' : Machine} {err : Error}
    (h : eval env x n = .error err n') (c c' : Expr) :
    evalTail env (.cond x c c') n = .error err n' := by
  rw [evalTail, Exec.bind_error h]

theorem cond_code (ha : P.Atom a a') (hcounts : yes.Counts) (hcounts' : yes'.Counts)
    (hyes : ∀ Q, P.Later ∅ Q → Q.Code yes yes') (hno : ∀ Q, P.Later ∅ Q → Q.Code no no') :
    P.Code (do return .cond a (← yes) (← no)) (do return .cond a' (← yes') (← no')) := by
  intro m m' hm
  have heval := ha.here hm
  unfold Abreast at heval
  generalize hv : eval P.env a m = r at heval
  generalize hw : eval P.env' a' m' = r' at heval
  cases heval with
  | error _ hl =>
    exact .of_errors (evalTail_cond_error hv _ _) (evalTail_cond_error hw _ _)
      (hl.weaken (ties_le_none _))
  | @ok ρ v w l l' hgrows _ _ hvw hl =>
    have hρ : P.ids ≤ ρ := hgrows.le
    refine Sim.after ?_ (.of_eq (evalTail_cond hv _ _)) (.of_eq (evalTail_cond hw _ _))
    rw [(akin_likeness _ ρ).semblance.truthy_eq hvw]
    split_ifs
    · exact hyes { P with ids := ρ } (.tasks le_rfl hρ) l l' hl
    · have hlater : P.Later ∅ { P with
          ids := ρ, left := (yes.run P.left).2, right := (yes'.run P.right).2 } :=
        ⟨le_rfl, hρ, hcounts P.left, hcounts' P.right, fun _ _ => rfl, fun _ _ => rfl⟩
      exact hno _ hlater l l' hl

theorem Converts.cond {g g' : Expr}
    (hnamed : (Expr.cond e' f' g').isNamed = (Expr.cond e f g).isNamed)
    (ht : P.Converts e e') (hc : P.Converts f f') (ha : P.Converts g g') :
    P.Converts (.cond e f g) (.cond e' f' g') := by
  have hkept {x y z : Expr} (hflag : (Expr.cond x y z).isNamed = false) :
      (usage (.cond x y z)).use = fun b => (usage x).use fun i => (usage y).use fun j =>
        (usage z).use fun k => b (.cond i j k) := by
    refine use_make_named hflag fun hatomic b => ?_
    obtain ⟨hxy, hz⟩ := Bool.and_eq_true_iff.1 hatomic
    obtain ⟨hx, hy⟩ := Bool.and_eq_true_iff.1 hxy
    simp only [usage_use hx, usage_use hy, usage_use hz, bind_assoc, pure_bind]
  -- Either the whole is used in place, or a continuation is named and each arm goes on with it.
  refine .made hnamed hkept hkept (fun hflag Q hPQ => ?_) fun Q hPQ k k' hk => ?_
  · have htriple := (ha.later hPQ).after ((ht.later hPQ).pair (hc.later hPQ))
      fun _ _ _ _ hQR hx => ⟨residue_later hQR hx.1, residue_later hQR hx.2⟩
    refine htriple.map (fun x => Expr.cond x.1.1 x.1.2 x.2) (fun x => Expr.cond x.1.1 x.1.2 x.2) ?_
    intro R x x' hx
    exact ⟨.cond hx.1.1.1 hx.1.2.1 hx.2.1, leaves_both rfl rfl rfl rfl hnamed hflag⟩
  · refine hk.name fun R x x' hQR hnamed => ?_
    refine ht.use R (hPQ.trans hQR subset_rfl) _ _
      (fun _ => .bind ((usage_counts f).pass _) fun _ => .bind ((usage_counts g).pass _) fun _ =>
        .pure _)
      (fun _ => .bind ((usage_counts f').pass _) fun _ => .bind ((usage_counts g').pass _) fun _ =>
        .pure _) ?_
    intro M y y' hRM hy
    have hlater {N : Place} (hMN : M.Later ∅ N) : P.Later ∅ N :=
      hPQ.trans (hQR.trans (hRM.trans hMN subset_rfl) subset_rfl) subset_rfl
    refine cond_code hy.1 ((usage_counts f).pass _) ((usage_counts f').pass _) (fun N hMN => ?_)
      fun N hMN => ?_
    · exact hc.pass N (hlater hMN) _ _ (hnamed.later (hRM.trans hMN subset_rfl)).kont
    · exact ha.pass N (hlater hMN) _ _ (hnamed.later (hRM.trans hMN subset_rfl)).kont

/-- A left operand is tested, and evaluated once more if its value is that of the whole. -/
theorem Converts.logic {op : LogicOp}
    (hnamed : (Expr.logic e' f' op).isNamed = (Expr.logic e f op).isNamed)
    (hl : P.Converts e e') (hr : P.Converts f f') :
    P.Converts (.logic e f op) (.logic e' f' op) := by
  have hkept {x y : Expr} (hflag : (Expr.logic x y op).isNamed = false) :
      (usage (.logic x y op)).use =
        fun b => (usage x).use fun i => (usage y).use fun j => b (.logic i j op) := by
    refine use_make_named hflag fun hatomic b => ?_
    obtain ⟨hx, hy⟩ := Bool.and_eq_true_iff.1 hatomic
    simp only [usage_use hx, usage_use hy, bind_assoc, pure_bind]
  refine .made hnamed hkept hkept (fun hflag Q hPQ => ?_) fun Q hPQ k k' hk => ?_
  · refine ((hl.later hPQ).pair (hr.later hPQ)).map (fun x => Expr.logic x.1 x.2 op)
      (fun x => Expr.logic x.1 x.2 op) ?_
    intro R x x' hx
    exact ⟨hx.1.1.logic op hx.2.1, leaves_both rfl rfl rfl rfl hnamed hflag⟩
  · refine hk.name fun R x x' hQR hnamed => ?_
    refine hl.use R (hPQ.trans hQR subset_rfl) _ _
      (fun _ => .bind ((usage_counts f).pass _) fun _ => ?_)
      (fun _ => .bind ((usage_counts f').pass _) fun _ => ?_) fun M y y' hRM hy => ?_
    · cases op <;> exact .pure _
    · cases op <;> exact .pure _
    -- The short way hands on the value of the left operand, the long way goes on to the right.
    have hshort {N : Place} (hMN : M.Later ∅ N) :
        N.Code (pure (resume (.var x) y)) (pure (resume (.var x') y')) :=
      (hnamed.later (hRM.trans hMN subset_rfl)).kont.resume (hy.1.later hMN)
    have hlong {N : Place} (hMN : M.Later ∅ N) :
        N.Code ((usage f).pass (.var x)) ((usage f').pass (.var x')) :=
      hr.pass N (hPQ.trans (hQR.trans (hRM.trans hMN subset_rfl) subset_rfl) subset_rfl) _ _
        (hnamed.later (hRM.trans hMN subset_rfl)).kont
    cases op with
    | or =>
      exact cond_code hy.1 (.pure _) (.pure _) (fun N hMN => hshort hMN) fun N hMN => hlong hMN
    | and =>
      exact cond_code hy.1 ((usage_counts f).pass _) ((usage_counts f').pass _)
        (fun N hMN => hlong hMN) fun N hMN => hshort hMN

end Choices

/-! ### Functions -/

section Functions

variable {α : Type} {keep keep' : Gen α} {A : Place → α → α → Prop}

theorem Uses.kept (hcounts : keep.Counts) (hcounts' : keep'.Counts)
    (h : A { P with left := (keep.run P.left).2, right := (keep'.run P.right).2 }
      (keep.run P.left).1 (keep'.run P.right).1) :
    P.Uses (fun b => keep >>= b) (fun b => keep' >>= b) A := by
  intro b b' _ _ hnext
  exact hnext _ _ _ (.counts (hcounts P.left) (hcounts' P.right)) h

theorem Converts.func {name : Option String} {params : List String} {body body' : List Stmt}
    (h : ∀ Q, P.Later ∅ Q → ∀ c c' self self' k k' vs ws,
      self.Akin (ties Q.fuel) Q.ids self' → k.Receives (ties Q.fuel) Q.ids k' →
      List.Forall₂ (Value.Akin (ties Q.fuel) Q.ids) vs ws →
      (Q.enter (c + 1) (c' + 1) (bindParams self name (generated "k" c :: params) (k :: vs))
        (bindParams self' name (generated "k" c' :: params) (k' :: ws))).Code
        (sequence body (.var (generated "k" c))) (sequence body' (.var (generated "k" c')))) :
    P.Converts (.func name params body) (.func name params body') := by
  have hthrough (ss : List Stmt) : Through (.func name params ss) fun b =>
      (usage (.func name params ss)).keep >>= b :=
    ⟨fun _ => rfl, fun _ => rfl⟩
  have hcounts (ss : List Stmt) := (usage_counts (.func name params ss)).keep
  refine .through (hthrough body) (hthrough body') rfl fun Q hPQ =>
    .kept (hcounts body) (hcounts body') ?_
  refine ⟨Atom.function fun R hQR => ?_, fun _ => ⟨.bare rfl rfl rfl, .bare rfl rfl rfl⟩⟩
  refine h R (hPQ.trans ?_ subset_rfl) Q.left Q.right
  exact Place.Later.trans (.counts (hcounts body Q.left) (hcounts body' Q.right)) hQR subset_rfl

end Functions

end Place

end Chance
