import Chance.Proofs.Likeness.Layers

/-!
# Computations on values that look alike

Distributions over related values have related supports and equal scores. Primitive functions and
methods take related arguments to computations that go alike (`InStep`), as long as the texts that
they take are the same: they compute a value, make a new distribution or print the same line.
-/

namespace Chance

/-- Distributions that find values by their texts. -/
def Dist.readsText : Dist → Bool
  | .marginal _ => true
  | _ => false

/-- Computations in place that go alike. Besides computing, such a computation may make a
distribution or print. -/
inductive InStep (R : Value → Value → Prop) : Exec Value → Exec Value → Prop
  | pure {v w : Value} : R v w → InStep R (pure v) (pure w)
  | throw {e e' : Error} : e.SameFault R e' → InStep R (throw e) (throw e')
  | lift {x y : Except Error Value} : Agrees R R x y → InStep R (liftM x) (liftM y)
  | bind {α β : Type} {Q : α → β → Prop} {x : Except Error α} {y : Except Error β}
      {f : α → Exec Value} {g : β → Exec Value} :
      Agrees R Q x y → (∀ a b, Q a b → InStep R (f a) (g b)) →
      InStep R (liftM x >>= f) (liftM y >>= g)
  | newDist {d e : Dist} : DistAlike R d e → InStep R (Exec.newDist d) (Exec.newDist e)
  | print {vs ws : List Value} : List.Forall₂ R vs ws → vs.map Value.key = ws.map Value.key →
      InStep R (printLine vs) (printLine ws)

/-- The methods that values of the kind have, where these are the same for all of them. -/
def Value.methodNames : Value → List String
  | .array _ | .str _ => ["concat", "slice", "indexOf"]
  | .dist .. => ["score", "support"]
  | _ => []

theorem callMethod_missing (v : Value) {name : String} {args : List Value}
    (hobject : ∀ fs, v ≠ .object fs) (hname : name ∉ v.methodNames) :
    callMethod v name args = throw (.type (.noMethodOf v.typeName v.text name)) := by
  unfold callMethod
  split
  case h_9 => exact absurd rfl (hobject _)
  case h_10 => rfl
  all_goals exact absurd hname (by simp [Value.methodNames])

namespace Semblance

variable {R : Value → Value → Prop}

/-! ## Outlines -/

section Outlines

mutual

theorem outline_eq (L : Semblance R) (htext : ∀ {v w : Value}, R v w → v.text = w.text) :
    ∀ v w : Value, R v w → v.outline = w.outline
  | .dist _ d, _, h => by
    cases L.layer h with
    | dist hd => exact L.distOutline_eq htext d _ hd
  | .undefined, _, h | .null, _, h | .bool _, _, h | .num _, _, h | .str _, _, h | .array _, _, h
  | .object _, _, h | .primitive _, _, h | .builtin _, _, h | .closure .., _, h | .cached .., _, h
  | .cont .., _, h => by
    have heq := htext h
    cases L.layer h
    exact heq
termination_by structural v => v

theorem distOutline_eq (L : Semblance R) (htext : ∀ {v w : Value}, R v w → v.text = w.text) :
    ∀ d e : Dist, DistLike R d e → d.outline = e.outline
  | .categorical ps vs, _, h => by
    cases h with
    | categorical _ hs => rw [Dist.outline, Dist.outline, L.valueOutlines_eq htext vs _ hs]
  | .delta v, _, h => by
    cases h with
    | delta hv => rw [Dist.outline, Dist.outline, L.outline_eq htext v _ hv]
  | .marginal es, _, h => by
    cases h with
    | marginal hs => rw [Dist.outline, Dist.outline, L.marginalOutlines_eq htext es _ hs]
  | .bernoulli _, _, h | .randomInteger _, _, h | .discrete _, _, h | .binomial .., _, h
  | .uniform .., _, h | .gaussian .., _, h => by
    cases h
    rfl
termination_by structural d => d

theorem valueOutlines_eq (L : Semblance R) (htext : ∀ {v w : Value}, R v w → v.text = w.text) :
    ∀ vs ws : List Value, List.Forall₂ R vs ws → valueOutlines vs = valueOutlines ws
  | [], _, h => by
    cases h
    rfl
  | v :: vs, _, h => by
    cases h with
    | cons hv hs =>
      rw [valueOutlines, valueOutlines, L.outline_eq htext v _ hv, L.valueOutlines_eq htext vs _ hs]
termination_by structural vs => vs

theorem marginalOutlines_eq (L : Semblance R) (htext : ∀ {v w : Value}, R v w → v.text = w.text) :
    ∀ es fs : List (String × Value × Float), List.Forall₂ (ShareLike R) es fs →
      marginalOutlines es = marginalOutlines fs
  | [], _, h => by
    cases h
    rfl
  | (_, v, _) :: es, _, h => by
    cases h with
    | cons he hs =>
      obtain ⟨hv⟩ := he
      rw [marginalOutlines, marginalOutlines, L.outline_eq htext v _ hv,
        L.marginalOutlines_eq htext es _ hs]
termination_by structural es => es

end

end Outlines

section Distributions

variable (L : Semblance R) {v w : Value} {d e : Dist}
include L

/-! ## Parameters of distributions -/

theorem parameter (h : R v w) (who key : String) :
    Agrees R Eq (Dist.parameter v who key) (Dist.parameter w who key) := by
  have hget := L.get h key
  rw [Dist.parameter, Dist.parameter]
  generalize v.get key = p at hget ⊢
  generalize w.get key = q at hget ⊢
  have hfault := Error.SameFault.text hget (fun s => .type (.parameterType who key s))
    (fun _ _ => rfl) fun _ => rfl
  cases L.layer hget <;> first | exact .ok rfl | exact .error hfault

theorem probability (h : R v w) (who key : String) :
    Agrees R Eq (Dist.probability v who key) (Dist.probability w who key) := by
  refine (L.parameter h who key).bind ?_
  rintro p _ rfl
  split_ifs
  · exact .ok rfl
  · exact .error (.refl rfl)

theorem count (h : R v w) (who key : String) :
    Agrees R Eq (Dist.count v who key) (Dist.count w who key) := by
  refine (L.parameter h who key).bind ?_
  rintro n _ rfl
  split_ifs
  · exact .ok rfl
  · exact .error (.refl rfl)

theorem weights (h : R v w) (who : String) :
    Agrees R Eq (Dist.weights v who) (Dist.weights w who) := by
  refine (L.toItems (L.get h "ps")).bind fun vs ws hs => ?_
  refine (Agree.mapM hs fun a b hab => L.toNumber hab).bind fun ps qs hps => ?_
  obtain rfl := List.forall₂_eq_eq_eq ▸ hps
  dsimp only
  split_ifs
  · exact .error (.refl rfl)
  · exact .ok rfl

theorem make (kind : Dist.Kind) {v w : Value} (h : R v w) :
    Agrees R (DistAlike R) (Dist.make kind v) (Dist.make kind w) := by
  cases kind with
  | bernoulli =>
    refine (L.probability h _ _).bind ?_
    rintro p _ rfl
    exact .ok ⟨.bernoulli p, rfl⟩
  | randomInteger =>
    refine (L.count h _ _).bind ?_
    rintro n _ rfl
    exact .ok ⟨.randomInteger n, rfl⟩
  | categorical =>
    refine (L.weights h _).bind ?_
    rintro ps _ rfl
    refine (L.toItems (L.get h "vs")).bind fun vs ws hs => ?_
    rw [hs.length_eq]
    split_ifs
    · exact .ok ⟨.categorical ps hs, rfl⟩
    · exact .error (.refl rfl)
  | discrete =>
    refine (L.weights h _).bind ?_
    rintro ps _ rfl
    exact .ok ⟨.discrete ps, rfl⟩
  | binomial =>
    refine (L.probability h _ _).bind ?_
    rintro p _ rfl
    refine (L.count h _ _).bind ?_
    rintro n _ rfl
    exact .ok ⟨.binomial p n, rfl⟩
  | delta => exact .ok ⟨.delta (L.get h "v"), rfl⟩
  | uniform =>
    refine (L.parameter h _ _).bind ?_
    rintro a _ rfl
    refine (L.parameter h _ _).bind ?_
    rintro b _ rfl
    split_ifs
    · exact .ok ⟨.uniform a b, rfl⟩
    · exact .error (.refl rfl)
  | gaussian =>
    refine (L.parameter h _ _).bind ?_
    rintro mu _ rfl
    refine (L.parameter h _ _).bind ?_
    rintro sigma _ rfl
    split_ifs
    · exact .ok ⟨.gaussian mu sigma, rfl⟩
    · exact .error (.refl rfl)

/-! ## Supports, scores and draws -/

theorem indices (n : Nat) : List.Forall₂ R (Dist.indices n) (Dist.indices n) := by
  rw [Dist.indices, List.forall₂_map_left_iff, List.forall₂_map_right_iff, List.forall₂_same]
  intro i _
  exact L.num _

theorem pooled {qs rs : List (Float × Value)} {seen seen' : List Value}
    (h : List.Forall₂ (fun q r => q.1 = r.1 ∧ R q.2 r.2) qs rs) (hs : List.Forall₂ R seen seen') :
    List.Forall₂ R (Dist.pooled qs seen) (Dist.pooled rs seen') := by
  induction h generalizing seen seen' with
  | nil => exact hs
  | @cons q r qs rs hqr _ ih =>
    obtain ⟨p, v⟩ := q
    obtain ⟨p', w⟩ := r
    obtain ⟨rfl, hv⟩ : p = p' ∧ R v w := hqr
    have hany : (seen.any fun u => u.same v) = seen'.any fun u => u.same w := by
      clear ih
      induction hs with
      | nil => rfl
      | cons hu _ ih => rw [List.any_cons, List.any_cons, ih, L.same_eq _ _ _ _ hu hv]
    simp only [Dist.pooled, hany]
    split_ifs
    · exact ih (List.rel_append hs (.cons hv .nil))
    · exact ih hs

omit L in
theorem zip_rel {vs ws : List Value} (ps : List Float) (h : List.Forall₂ R vs ws) :
    List.Forall₂ (fun q r => q.1 = r.1 ∧ R q.2 r.2) (ps.zip vs) (ps.zip ws) := by
  induction h generalizing ps with
  | nil => simp
  | cons hv _ ih =>
    cases ps with
    | nil => exact .nil
    | cons p ps => exact .cons ⟨rfl, hv⟩ (ih ps)

theorem support {d e : Dist} (h : DistLike R d e) :
    Option.Rel (List.Forall₂ R) d.support e.support := by
  cases h with
  | bernoulli p => exact .some (.cons (L.bool _) (.cons (L.bool _) .nil))
  | randomInteger n => exact .some (L.indices n)
  | categorical ps hs => exact .some (L.pooled (zip_rel ps hs) .nil)
  | discrete ps =>
    refine .some ?_
    have hzip := zip_rel (R := R) ps (L.indices ps.length)
    have hfilter := filter_rel (p := fun q => decide (q.1 > 0)) (q := fun q => decide (q.1 > 0))
      hzip fun q r hqr => by rw [hqr.1]
    rw [List.forall₂_map_left_iff, List.forall₂_map_right_iff]
    exact hfilter.imp fun q r hqr => hqr.2
  | binomial p n => exact .some (L.indices (n + 1))
  | delta hv => exact .some (.cons hv .nil)
  | uniform | gaussian => exact .none
  | marginal hs =>
    refine .some ?_
    rw [List.forall₂_map_left_iff, List.forall₂_map_right_iff]
    exact hs.imp fun e f hef => hef.value

theorem index?_eq (h : R v w) (n : Nat) : Dist.index? v n = Dist.index? w n := by
  cases L.layer h <;> rfl

/-- A marginal finds a value by its text; all other scores depend on what looks alike only. -/
theorem score_eq (hd : DistLike R d e) (h : R v w) (htext : d.readsText = true → v.text = w.text) :
    d.score v = e.score w := by
  cases hd with
  | bernoulli p => cases L.layer h <;> rfl
  | randomInteger n => rw [Dist.score, Dist.score, L.index?_eq h]
  | @categorical ps vs ws hs =>
    have hweights : ((vs.zip ps).filter fun q => q.1.same v).map Prod.snd =
        ((ws.zip ps).filter fun q => q.1.same w).map Prod.snd := by
      clear htext
      induction hs generalizing ps with
      | nil => simp
      | cons hu _ ih =>
        cases ps with
        | nil => simp
        | cons p ps =>
          rw [List.zip_cons_cons, List.zip_cons_cons, List.filter_cons, List.filter_cons,
            L.same_eq _ _ _ _ hu h]
          split_ifs
          · rw [List.map_cons, List.map_cons, ih]
          · exact ih ps
    rw [Dist.score, Dist.score, hweights]
  | discrete ps => rw [Dist.score, Dist.score, L.index?_eq h]
  | binomial p n => rw [Dist.score, Dist.score, L.index?_eq h]
  | delta hu => rw [Dist.score, Dist.score, L.same_eq _ _ _ _ h hu]
  | uniform a b => cases L.layer h <;> rfl
  | gaussian mu sigma => cases L.layer h <;> rfl
  | @marginal es fs hs =>
    have hfind := find?_rel (p := fun e => e.1 == v.text) (q := fun e => e.1 == w.text) hs
      fun e f hef => by rw [hef.key, htext rfl]
    have hprob : Dist.marginalProb es v = Dist.marginalProb fs w := by
      simp only [Dist.marginalProb]
      generalize es.find? _ = x at hfind ⊢
      generalize fs.find? _ = y at hfind ⊢
      cases hfind with
      | none => rfl
      | some hef => exact hef.prob
    rw [Dist.score, Dist.score, hprob]

theorem support_scored (h : DistAlike R d e) :
    Option.Rel (List.Forall₂ fun v w => R v w ∧ d.score v = e.score w) d.support e.support := by
  cases hread : d.readsText with
  | false =>
    have hsupport := L.support h.like
    generalize d.support = x at hsupport ⊢
    generalize e.support = y at hsupport ⊢
    cases hsupport with
    | none => exact .none
    | some hs =>
      refine .some (hs.imp fun v w hv => ⟨hv, L.score_eq h.like hv fun htrue => ?_⟩)
      rw [hread] at htrue
      cases htrue
  | true =>
    obtain ⟨hd, htexts⟩ := h
    have hscore {v w : Value} (hv : R v w) (htext : v.text = w.text) : d.score v = e.score w :=
      L.score_eq hd hv fun _ => htext
    generalize d.score = f at hscore ⊢
    generalize e.score = g at hscore ⊢
    cases hd with
    | marginal hs =>
      refine .some ?_
      rw [List.forall₂_map_left_iff, List.forall₂_map_right_iff]
      simp only [Dist.texts] at htexts
      induction hs with
      | nil => exact .nil
      | cons hef _ ih =>
        rw [List.map_cons, List.map_cons, List.cons.injEq] at htexts
        exact .cons ⟨hef.value, hscore hef.value htexts.1⟩ (ih rfl htexts.2)
    | _ => cases hread

omit L in
theorem pick {qs rs : List (Float × Value)} {last last' : Option Value} (u acc : Float)
    (h : List.Forall₂ (fun q r => q.1 = r.1 ∧ R q.2 r.2) qs rs) (hl : Option.Rel R last last') :
    Option.Rel R (Dist.pick u qs acc last) (Dist.pick u rs acc last') := by
  induction h generalizing acc last last' with
  | nil => exact hl
  | @cons q r qs rs hqr _ ih =>
    obtain ⟨p, v⟩ := q
    obtain ⟨p', w⟩ := r
    obtain ⟨rfl, hv⟩ : p = p' ∧ R v w := hqr
    simp only [Dist.pick]
    split_ifs
    · exact .some hv
    · exact ih _ (.some hv)

theorem draw {qs rs : List (Float × Value)} (s : Supply)
    (h : List.Forall₂ (fun q r => q.1 = r.1 ∧ R q.2 r.2) qs rs) :
    R (Dist.draw qs s).1 (Dist.draw rs s).1 ∧ (Dist.draw qs s).2 = (Dist.draw rs s).2 :=
  ⟨optionGetD_rel (pick _ _ h .none) L.undefined, rfl⟩

theorem sample {d e : Dist} (h : DistLike R d e) (s : Supply) :
    R (d.sample s).1 (e.sample s).1 ∧ (d.sample s).2 = (e.sample s).2 := by
  cases h with
  | bernoulli p => exact ⟨L.bool _, rfl⟩
  | randomInteger n => exact ⟨L.num _, rfl⟩
  | categorical ps hs => exact L.draw s (zip_rel ps hs)
  | discrete ps => exact L.draw s (zip_rel ps (L.indices ps.length))
  | binomial p n => exact ⟨L.num _, rfl⟩
  | delta hv => exact ⟨hv, rfl⟩
  | uniform a b => exact ⟨L.num _, rfl⟩
  | gaussian mu sigma =>
    refine ⟨?_, rfl⟩
    rw [Dist.sample]
    split_ifs
    · exact L.num _
    · exact L.num _
  | marginal hs =>
    refine L.draw s ?_
    rw [List.forall₂_map_left_iff, List.forall₂_map_right_iff]
    exact hs.imp fun e f hef => ⟨hef.prob, hef.value⟩

end Distributions

section Calls

variable (L : Semblance R) {us us' vs ws : List Value} {v w : Value}
include L

/-! ## Arguments, members and slices -/

theorem argument (h : List.Forall₂ R vs ws) (i : Nat) : R (argument vs i) (argument ws i) :=
  optionGetD_rel (getElem?_rel h i) L.undefined

theorem numberArgument (h : List.Forall₂ R vs ws) (i : Nat) :
    Agrees R Eq (numberArgument vs i) (numberArgument ws i) :=
  L.toNumber (L.argument h i)

theorem member {v w v' w' : Value} (h : R v w) (h' : R v' w')
    (hkey : ∀ fs, v = .object fs → v'.key = w'.key) : Agrees R R (member v v') (member w w') := by
  have hget := L.get h w'.key
  cases L.layer h with
  | undefined | null =>
    exact .error (.text h' (fun s => .type (.noProperty s _)) (fun _ _ => rfl) fun _ => rfl)
  | object hs =>
    -- Only objects look at the text of the key.
    have hproperty := hkey _ rfl
    cases L.layer h' <;>
      (simp only [Chance.member, hproperty]
       exact .ok hget)
  | array hs =>
    cases L.layer h' with
    | num x =>
      refine .ok (optionGetD_rel ?_ L.undefined)
      cases position? x with
      | none => exact .none
      | some i => exact getElem?_rel hs i
    | str s =>
      by_cases hlength : s = "length"
      · subst hlength
        simp only [Chance.member, hs.length_eq]
        exact .ok (L.num _)
      · have hother (us : List Value) : Chance.member (.array us) (.str s) = .ok .undefined := by
          simp [Chance.member, hlength]
        rw [hother, hother]
        exact .ok L.undefined
    | _ => exact .ok L.undefined
  | str s =>
    cases L.layer h' with
    | num x =>
      simp only [Chance.member]
      split
      · exact .ok (L.str _)
      · exact .ok L.undefined
    | str t =>
      by_cases hlength : t = "length"
      · subst hlength
        exact .ok (L.num _)
      · have hother : Chance.member (.str s) (.str t) = .ok .undefined := by
          simp [Chance.member, hlength]
        rw [hother]
        exact .ok L.undefined
    | _ => exact .ok L.undefined
  | dist hd =>
    cases L.layer h' with
    | str t =>
      by_cases hname : t = "name"
      · subst hname
        cases hd <;> exact .ok (L.str _)
      · have hother (i : Nat) (d : Dist) : Chance.member (.dist i d) (.str t) = .ok .undefined := by
          simp [Chance.member, hname]
        rw [hother, hother]
        exact .ok L.undefined
    | _ => exact .ok L.undefined
  | _ => exact .ok L.undefined

theorem sliceEnd {v w : Value} (h : R v w) (length default : Nat) :
    Agrees R Eq (sliceEnd length v default) (sliceEnd length w default) := by
  have hnumber := L.toNumber h
  have hends {x y : Except Error Float} (hxy : Agrees R Eq x y) : Agrees R Eq
      (do let n ← x
          let n := if n < 0 then Float.ofNat length + n else n
          return Number.toCount (Number.min (Number.max n 0) (Float.ofNat length)))
      (do let n ← y
          let n := if n < 0 then Float.ofNat length + n else n
          return Number.toCount (Number.min (Number.max n 0) (Float.ofNat length))) := by
    refine hxy.bind ?_
    rintro n _ rfl
    exact .ok rfl
  cases L.layer h with
  | undefined => exact .ok rfl
  | _ => exact hends hnumber

theorem slice {α β : Type} {Q : α → β → Prop} {xs : List α} {ys : List β}
    (hxy : List.Forall₂ Q xs ys) (h : List.Forall₂ R vs ws) :
    Agrees R (List.Forall₂ Q) (slice xs vs) (slice ys ws) := by
  have hlength := hxy.length_eq
  rw [Chance.slice, Chance.slice, hlength]
  refine (L.sliceEnd (L.argument h 0) _ _).bind ?_
  rintro start _ rfl
  refine (L.sliceEnd (L.argument h 1) _ _).bind ?_
  rintro stop _ rfl
  exact .ok (List.forall₂_take _ (List.forall₂_drop _ hxy))

theorem concatItems {us us' vs ws : List Value} (hu : List.Forall₂ R us us')
    (h : List.Forall₂ R vs ws) : List.Forall₂ R (concatItems us vs) (concatItems us' ws) := by
  refine List.rel_append hu ?_
  induction h with
  | nil => exact .nil
  | cons hv _ ih =>
    rw [List.flatMap_cons, List.flatMap_cons]
    refine List.rel_append ?_ ih
    have hv' := hv
    cases L.layer hv with
    | array hs => exact hs
    | _ => exact .cons hv' .nil

theorem positionOf_same (hu : List.Forall₂ R us us') (h : R v w) :
    R (positionOf (fun u => u.same v) us) (positionOf (fun u => u.same w) us') := by
  have hindex : us.findIdx? (fun u => u.same v) = us'.findIdx? fun u => u.same w := by
    induction hu with
    | nil => rfl
    | cons hab _ ih => rw [List.findIdx?_cons, List.findIdx?_cons, ih, L.same_eq _ _ _ _ hab h]
  rw [positionOf, positionOf, hindex]
  split
  · exact L.num _
  · exact L.num _

/-! ## Primitive functions and methods -/

theorem onNumber (f : Float → Float) (h : List.Forall₂ R vs ws) :
    Agrees R R (onNumber f vs) (onNumber f ws) := by
  refine (L.numberArgument h 0).bind ?_
  rintro x _ rfl
  exact .ok (L.num _)

theorem onNumbers (f : Float → Float → Float) (start : Float) (h : List.Forall₂ R vs ws) :
    Agrees R R (onNumbers f start vs) (onNumbers f start ws) := by
  have hfold : Agrees R Eq (vs.foldlM (fun m a => do return f m (← a.toNumber)) start)
      (ws.foldlM (fun m a => do return f m (← a.toNumber)) start) := by
    refine Agree.foldlM h rfl ?_
    rintro c _ v w rfl hv
    refine (L.toNumber hv).bind ?_
    rintro x _ rfl
    exact .ok rfl
  refine hfold.bind ?_
  rintro m _ rfl
  exact .ok (L.num _)

theorem meanOf {v w : Value} (h : R v w) : Agrees R R (meanOf v) (meanOf w) := by
  refine (L.toDist h).bind fun d e hd => ?_
  have hsupport := L.support_scored hd
  generalize d.support = x at hsupport ⊢
  generalize e.support = y at hsupport ⊢
  cases hsupport with
  | none =>
    exact .error ⟨rfl, rfl, fun htext => by rw [L.distOutline_eq htext d e hd.like]⟩
  | @some vs ws hs =>
    have hfold : Agrees R Eq
        (vs.foldlM (fun total v => do return total + (d.score v).exp * (← v.toNumber)) 0)
        (ws.foldlM (fun total w => do return total + (e.score w).exp * (← w.toNumber)) 0) := by
      refine Agree.foldlM hs rfl ?_
      rintro c _ v w rfl ⟨hv, hscore⟩
      refine (L.toNumber hv).bind ?_
      rintro x _ rfl
      exact .ok (by rw [hscore])
    refine hfold.bind ?_
    rintro total _ rfl
    exact .ok (L.num _)

theorem makeDist (kind : Dist.Kind) (h : List.Forall₂ R vs ws) :
    InStep R (makeDist kind vs) (makeDist kind ws) :=
  .bind (L.make kind (L.argument h 0)) fun _ _ hd => .newDist hd

theorem run (p : Primitive) {vs ws : List Value} (h : List.Forall₂ R vs ws)
    (hkeys : p = .display → vs.map Value.key = ws.map Value.key) :
    InStep R (p.run vs) (p.run ws) := by
  cases p with
  | log | exp | sqrt | abs | floor | ceil | round => exact .lift (L.onNumber _ h)
  | pow =>
    refine .bind (L.numberArgument h 0) ?_
    rintro x _ rfl
    refine .bind (L.numberArgument h 1) ?_
    rintro y _ rfl
    exact .pure (L.num _)
  | min | max => exact .lift (L.onNumbers _ _ h)
  | display => exact .print h (hkeys rfl)
  | expectation => exact .lift (L.meanOf (L.argument h 0))
  | bernoulli | randomInteger | categorical | discrete | binomial | delta | uniform | gaussian =>
    exact L.makeDist _ h

theorem objectMethod {fs gs : List (String × Value)} (hf : List.Forall₂ (FieldLike R) fs gs)
    (name : String) (hs : List.Forall₂ R vs ws)
    (hkeys : (Value.object fs).get name = .primitive .display →
      vs.map Value.key = ws.map Value.key) :
    InStep R (callMethod (.object fs) name vs) (callMethod (.object gs) name ws) := by
  have hget := L.get (L.object hf) name
  unfold callMethod
  dsimp only
  generalize (Value.object fs).get name = p at hget hkeys ⊢
  generalize (Value.object gs).get name = q at hget ⊢
  have hfault := Error.SameFault.text hget (fun s => .type (.notFunction s)) (fun _ _ => rfl)
    fun _ => rfl
  cases L.layer hget with
  | primitive p => exact L.run p hs fun hp => hkeys (by rw [hp])
  | undefined =>
    exact .throw (.text (L.object hf) (fun s => .type (.noMethod s name)) (fun _ _ => rfl)
      fun _ => rfl)
  | closure | builtin | cached | cont => exact .throw (.refl rfl)
  | _ => exact .throw hfault

theorem arrayMethod (hu : List.Forall₂ R us us') (name : String) (hs : List.Forall₂ R vs ws) :
    InStep R (callMethod (.array us) name vs) (callMethod (.array us') name ws) := by
  by_cases hconcat : name = "concat"
  · subst hconcat
    exact .pure (L.array (L.concatItems hu hs))
  by_cases hslice : name = "slice"
  · subst hslice
    exact .bind (L.slice hu hs) fun _ _ h => .pure (L.array h)
  by_cases hindex : name = "indexOf"
  · subst hindex
    exact .pure (L.positionOf_same hu (L.argument hs 0))
  · have hmissing : name ∉ ["concat", "slice", "indexOf"] := by simp [*]
    rw [callMethod_missing (.array us) nofun hmissing,
      callMethod_missing (.array us') nofun hmissing]
    exact .throw (.text (L.array hu) (fun s => .type (.noMethodOf "array" s name))
      (fun _ _ => rfl) fun _ => rfl)

theorem stringMethod (s name : String) (hs : List.Forall₂ R vs ws)
    (hkeys : name = "concat" → vs.map Value.key = ws.map Value.key)
    (hkey : name = "indexOf" → (Chance.argument vs 0).key = (Chance.argument ws 0).key) :
    InStep R (callMethod (.str s) name vs) (callMethod (.str s) name ws) := by
  by_cases hconcat : name = "concat"
  · subst hconcat
    have hjoined (us : List Value) : callMethod (.str s) "concat" us =
        pure (.str ((us.map Value.key).foldl (fun s k => s ++ k) s)) :=
      congrArg (fun t => (pure (.str t) : Exec Value)) List.foldl_map.symm
    rw [hjoined, hjoined, hkeys rfl]
    exact .pure (L.str _)
  by_cases hslice : name = "slice"
  · subst hslice
    refine .bind (L.slice (Q := Eq) (List.forall₂_refl s.toList) hs) ?_
    intro cs cs' hcs
    obtain rfl := List.forall₂_eq_eq_eq ▸ hcs
    exact .pure (L.str _)
  by_cases hindex : name = "indexOf"
  · subst hindex
    have hposition (us : List Value) : callMethod (.str s) "indexOf" us =
        pure (positionOf (fun cs => (Chance.argument us 0).key.toList.isPrefixOf cs)
          (suffixes s.toList)) := rfl
    rw [hposition, hposition, hkey rfl]
    unfold positionOf
    split
    · exact .pure (L.num _)
    · exact .pure (L.num _)
  · have hmissing : name ∉ ["concat", "slice", "indexOf"] := by simp [*]
    rw [callMethod_missing (.str s) nofun hmissing, callMethod_missing (.str s) nofun hmissing]
    exact .throw (.refl rfl)

theorem distMethod {i j : Nat} {d e : Dist} (h : R (.dist i d) (.dist j e)) (hd : DistLike R d e)
    (name : String) (hs : List.Forall₂ R vs ws) (htext : name = "score" → d.readsText = true →
      (Chance.argument vs 0).text = (Chance.argument ws 0).text) :
    InStep R (callMethod (.dist i d) name vs) (callMethod (.dist j e) name ws) := by
  by_cases hscore : name = "score"
  · subst hscore
    have hscored (i : Nat) (d : Dist) (us : List Value) : callMethod (.dist i d) "score" us =
        pure (.num (d.score (Chance.argument us 0))) := rfl
    rw [hscored, hscored, L.score_eq hd (L.argument hs 0) (htext rfl)]
    exact .pure (L.num _)
  by_cases hsupport : name = "support"
  · subst hsupport
    have hsupp := L.support hd
    have hlisted (i : Nat) (d : Dist) (us : List Value) : callMethod (.dist i d) "support" us =
        d.support.elim (pure .undefined) fun vs => pure (.array vs) := by
      simp only [callMethod]
      cases d.support <;> rfl
    rw [hlisted, hlisted]
    generalize d.support = x at hsupp ⊢
    generalize e.support = y at hsupp ⊢
    cases hsupp with
    | none => exact .pure L.undefined
    | some h => exact .pure (L.array h)
  · have hmissing : name ∉ ["score", "support"] := by simp [*]
    rw [callMethod_missing (.dist i d) nofun hmissing,
      callMethod_missing (.dist j e) nofun hmissing]
    exact .throw (.text h (fun s => .type (.noMethodOf "distribution" s name)) (fun _ _ => rfl)
      fun _ => rfl)

/-- What a method takes the texts of. -/
structure Spelled (v : Value) (name : String) (vs ws : List Value) : Prop where
  concat : ∀ s, v = .str s → name = "concat" → vs.map Value.key = ws.map Value.key
  indexOf : ∀ s, v = .str s → name = "indexOf" →
    (Chance.argument vs 0).key = (Chance.argument ws 0).key
  score : ∀ i d, v = .dist i d → name = "score" → d.readsText = true →
    (Chance.argument vs 0).text = (Chance.argument ws 0).text
  display : ∀ fs, v = .object fs → v.get name = .primitive .display →
    vs.map Value.key = ws.map Value.key

theorem method (h : R v w) (name : String) (hs : List.Forall₂ R vs ws)
    (hspelled : Spelled v name vs ws) : InStep R (callMethod v name vs) (callMethod w name ws) := by
  have hfault := Error.SameFault.text h (fun s => .type (.noMethodOf v.typeName s name))
    (fun _ _ => rfl) fun _ => rfl
  cases L.layer h with
  | array hu => exact L.arrayMethod hu name hs
  | str s => exact L.stringMethod s name hs (hspelled.concat s rfl) (hspelled.indexOf s rfl)
  | dist hd => exact L.distMethod h hd name hs (hspelled.score _ _ rfl)
  | object hf => exact L.objectMethod hf name hs (hspelled.display _ rfl)
  | _ => exact .throw hfault

end Calls

section Options

variable (L : Semblance R)
include L

/-! ## Options of an enumeration -/

theorem limitOf (who : String) {v w : Value} (h : R v w) :
    Agrees R Eq (EnumerateOptions.limitOf who v) (EnumerateOptions.limitOf who w) := by
  have hfault := Error.SameFault.text h (fun s => .options who (.maxExecutions s)) (fun _ _ => rfl)
    fun _ => rfl
  cases L.layer h with
  | undefined => exact .ok rfl
  | num x =>
    simp only [EnumerateOptions.limitOf]
    split_ifs
    · exact .ok rfl
    · exact .ok rfl
    · exact .error (.refl rfl)
  | _ => exact .error hfault

theorem strategyOf (who : String) (limit : Option Nat) {v w : Value} (h : R v w) :
    Agrees R Eq (EnumerateOptions.strategyOf who limit v)
      (EnumerateOptions.strategyOf who limit w) := by
  have hfault := Error.SameFault.text h (fun s => .options who (.strategyType s)) (fun _ _ => rfl)
    fun _ => rfl
  cases L.layer h with
  | undefined => exact .ok rfl
  | str s =>
    simp only [EnumerateOptions.strategyOf]
    cases Strategy.named? s with
    | none => exact .error (.refl rfl)
    | some strategy => exact .ok rfl
  | _ => exact .error hfault

theorem ofValue (who : String) {v w : Value} (h : R v w) :
    Agrees R Eq (EnumerateOptions.ofValue who v) (EnumerateOptions.ofValue who w) := by
  have hlimit := L.limitOf who (L.get h "maxExecutions")
  have hstrategy (limit : Option Nat) := L.strategyOf who limit (L.get h "strategy")
  have hfault := Error.SameFault.text h (fun s => .options who (.notObject s)) (fun _ _ => rfl)
    fun _ => rfl
  cases L.layer h with
  | undefined => exact .ok rfl
  | @object fs gs hs =>
    have hfind := find?_rel (p := fun f => f.1 ≠ "maxExecutions" ∧ f.1 ≠ "strategy")
      (q := fun f => f.1 ≠ "maxExecutions" ∧ f.1 ≠ "strategy") hs fun f g hfg => by rw [hfg.key]
    simp only [EnumerateOptions.ofValue]
    generalize fs.find? _ = x at hfind ⊢
    generalize gs.find? _ = y at hfind ⊢
    cases hfind with
    | some hfg => exact .error ⟨rfl, rfl, fun _ => by rw [hfg.key]⟩
    | none =>
      refine hlimit.bind ?_
      rintro limit _ rfl
      refine (hstrategy limit).bind ?_
      rintro strategy _ rfl
      exact .ok rfl
  | _ => exact .error hfault

theorem ofMethod {v w thunk thunk' : Value} (h : R v w) (ht : R thunk thunk') :
    Agrees R Eq (EnumerateOptions.ofMethod v thunk) (EnumerateOptions.ofMethod w thunk') := by
  have hfault := Error.SameFault.text h (fun s => .options "Infer" (.notObject s)) (fun _ _ => rfl)
    fun _ => rfl
  cases L.layer h with
  | @object fs gs hs =>
    have hfind := find?_rel (p := fun f => f.1 = "method") (q := fun f => f.1 = "method") hs
      fun f g hfg => by rw [hfg.key]
    have hrest := L.ofValue "Infer" (L.object (filter_rel (p := fun f => f.1 ≠ "method")
      (q := fun f => f.1 ≠ "method") hs fun f g hfg => by rw [hfg.key]))
    simp only [EnumerateOptions.ofMethod]
    generalize fs.find? _ = x at hfind ⊢
    generalize gs.find? _ = y at hfind ⊢
    cases hfind with
    | none => exact .error (.refl rfl)
    | some hfg =>
      obtain ⟨hv⟩ := hfg
      have hunavailable :=
        Error.SameFault.text hv (fun s => .options "Infer" (.unavailableMethod s))
        (fun _ _ => rfl) fun _ => rfl
      have hgo : Agrees R Eq
          (if thunk.isCallable then
            EnumerateOptions.ofValue "Infer" (.object (fs.filter fun f => f.1 ≠ "method"))
          else throw (.type (.functionExpected "Infer" thunk.text)))
          (if thunk'.isCallable then
            EnumerateOptions.ofValue "Infer" (.object (gs.filter fun f => f.1 ≠ "method"))
          else throw (.type (.functionExpected "Infer" thunk'.text))) := by
        rw [L.isCallable_eq ht]
        split_ifs
        · exact hrest
        · exact .error (.text ht (fun s => .type (.functionExpected "Infer" s)) (fun _ _ => rfl)
            fun _ => rfl)
      cases L.layer hv with
      | str s =>
        by_cases hs : s = "enumerate"
        · subst hs
          exact hgo
        · dsimp only
          split
          · rename_i heq
            exact absurd (Value.str.inj heq) hs
          · exact .error hunavailable
      | _ => exact .error hunavailable
  | _ => exact .error hfault

end Options

end Semblance

end Chance
