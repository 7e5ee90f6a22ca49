import Chance.Proofs.Syntax.Addressed

/-!
# Which programs compile

The form check looks at a call once more after the parts of its callee may have been named. Where a
call was not primitive before and its callee is a member of a name afterwards, the two readings
differ and the program is refused. This is the only way in which compilation fails.

- `Expr.turnsPrimitive`: the callees that are read in two ways,
- `stmtsSteady`: statement lists without calls of such callees,
- `Compile.Usage.Meets`: when the check accepts what a usage makes,
- `compile_succeeds_iff`: the programs that compile.
-/

namespace Chance

/-! ## Steady calls -/

variable {e e' : Expr} {a : String}

/-- Expressions whose value is named before it is used. -/
def Expr.isNamed (e : Expr) : Bool :=
  match e with
  | .binary .. | .logic .. | .cond .. | .call .. | .assign .. => !e.isAtomic
  | _ => false

/-- Callees that are not primitive, but are so once their object is named. -/
def Expr.turnsPrimitive : Expr → Bool
  | .member o p => o.isNamed && !p.isStr
  | _ => false

mutual

/-- No call inside the expression has a callee that turns primitive. -/
def Expr.isSteady : Expr → Bool
  | .array es => allSteady es
  | .object fs => fieldsSteady fs
  | .unary _ e => e.isSteady
  | .binary l r _ => l.isSteady && r.isSteady
  | .logic l r _ => l.isSteady && r.isSteady
  | .cond t c a => t.isSteady && c.isSteady && a.isSteady
  | .member o p => o.isSteady && p.isSteady
  | .call f es => !f.turnsPrimitive && f.isSteady && allSteady es
  | .func _ _ body => stmtsSteady body
  | .assign t v => t.isSteady && v.isSteady
  | .num _ | .str _ | .bool _ | .null | .undefined | .var _ => true
termination_by structural e => e

def allSteady : List Expr → Bool
  | [] => true
  | e :: es => e.isSteady && allSteady es
termination_by structural es => es

def fieldsSteady : List (String × Expr) → Bool
  | [] => true
  | (_, e) :: fs => e.isSteady && fieldsSteady fs
termination_by structural fs => fs

/-- The same for a list; what follows a return is dropped. -/
def stmtsSteady : List Stmt → Bool
  | [] => true
  | .ret e :: _ => e.isSteady
  | .empty :: ss => stmtsSteady ss
  | .expr e :: ss => e.isSteady && stmtsSteady ss
  | .declare ds :: ss => fieldsSteady ds && stmtsSteady ss
  | .ifElse t c a :: ss => (t.isSteady && stmtsSteady c && stmtsSteady a) && stmtsSteady ss
  | .block body :: ss => stmtsSteady body && stmtsSteady ss
termination_by structural ss => ss

end

theorem Expr.isNamed_of_isAtomic (h : e.isAtomic = true) : e.isNamed = false := by
  cases e <;> simp_all [Expr.isNamed]

theorem Expr.turnsPrimitive_of_isAtomic (h : e.isAtomic = true) : e.turnsPrimitive = false := by
  cases e with
  | member o p =>
    simp only [Expr.isAtomic, Bool.and_eq_true] at h
    simp [Expr.turnsPrimitive, Expr.isNamed_of_isAtomic h.1]
  | _ => rfl

namespace Compile

/-! ## What the check accepts -/

variable {c f t : Expr} {es : List Expr}

abbrev Accepted (e : Expr) : Prop :=
  checkPlain e = .ok ()

abbrev AcceptedTail (e : Expr) : Prop :=
  checkTail e = .ok ()

theorem then_ok_iff {x y : Except Error Unit} :
    (x >>= fun _ => y) = .ok () ↔ x = .ok () ∧ y = .ok () := by
  cases x with
  | error e => simp [Bind.bind, Except.bind]
  | ok a => simp [Bind.bind, Except.bind]

theorem acceptedTail_call (h : f.isPrimitive = false) :
    AcceptedTail (.call f es) ↔ Accepted f ∧ checkPlains es = .ok () := by
  simp only [AcceptedTail, checkTail, h, Bool.false_eq_true, if_false, then_ok_iff]

theorem acceptedTail_resume {k v : Expr} (h : k.isPrimitive = false) :
    AcceptedTail (resume k v) ↔ Accepted v ∧ Accepted k := by
  rw [resume, acceptedTail_call h]
  simp only [checkPlains, then_ok_iff]
  tauto

theorem acceptedTail_cond {a : Expr} :
    AcceptedTail (.cond t c a) ↔ Accepted t ∧ AcceptedTail c ∧ AcceptedTail a := by
  simp only [AcceptedTail, checkTail, then_ok_iff]

theorem accepted_call : Accepted (.call f es) ↔
      f.isPrimitive = true ∧ Accepted f ∧ checkPlains es = .ok () := by
  simp only [Accepted, checkPlain]
  cases hf : f.isPrimitive with
  | true => simp only [if_true, then_ok_iff, true_and]
  | false => simp

theorem accepted_cond {a : Expr} :
    Accepted (.cond t c a) ↔ Accepted t ∧ Accepted c ∧ Accepted a := by
  simp only [Accepted, checkPlain, then_ok_iff]

theorem accepted_lambda {xs : List String} {body : Expr} :
    Accepted (.lambda xs body) ↔ AcceptedTail body :=
  Iff.rfl

/-! ## Usages -/

/-- What is left of an expression in its atomic form, as far as calls are concerned. -/
structure Fits (e e' : Expr) : Prop where
  isVar : e'.isVar = (e.isVar || e.isNamed)
  isStr : e'.isStr = e.isStr
  isPrimitive : e'.isPrimitive = (e.isPrimitive || e.turnsPrimitive)

theorem Fits.refl (h : e.isAtomic = true) : Fits e e where
  isVar := by rw [Expr.isNamed_of_isAtomic h, Bool.or_false]
  isStr := rfl
  isPrimitive := by rw [Expr.turnsPrimitive_of_isAtomic h, Bool.or_false]

theorem Fits.name (h : e.isNamed = true) (x : String) : Fits e (.var x) := by
  cases e <;>
    first
    | exact ⟨by rw [h]; rfl, rfl, rfl⟩
    | cases h

theorem Fits.member {o o' p p' : Expr} (ho : Fits o o') (hp : Fits p p') :
    Fits (.member o p) (.member o' p') where
  isVar := rfl
  isStr := rfl
  isPrimitive := by
    rw [Expr.isPrimitive_member, Expr.isPrimitive_member, ho.isVar, hp.isStr, Expr.turnsPrimitive]
    cases o.isVar <;> cases o.isNamed <;> cases p.isStr <;> rfl

/-- The check accepts what the usage makes of a steady expression, provided it accepts what goes on
with the expression. -/
structure Usage.Meets (e : Expr) (d : Usage) : Prop where
  keep : e.isAtomic = true →
    Gen.Yields (fun e' => Fits e e' ∧ (Accepted e' ↔ e.isSteady = true)) d.keep
  pass : ∀ k : Expr, k.isPrimitive = false →
    Gen.Yields (fun t => AcceptedTail t ↔ e.isSteady = true ∧ Accepted k) (d.pass k)
  use : ∀ {build : Build Expr} {c : Prop},
    (∀ e', Fits e e' → Gen.Yields (fun t => AcceptedTail t ↔ Accepted e' ∧ c) (build e')) →
    Gen.Yields (fun t => AcceptedTail t ↔ e.isSteady = true ∧ c) (d.use build)

/-- Likewise for a list of usages. -/
abbrev MeetAll (es : List Expr) (ds : List Usage) : Prop :=
  List.Forall₂ (fun e d => Usage.Meets e d) es ds

theorem Gen.Yields.weaken {α : Type} {P Q : α → Prop} {x : Gen α} (h : Gen.Yields P x)
    (hPQ : ∀ a, P a → Q a) : Gen.Yields Q x :=
  fun n => hPQ _ (h n)

section Parts

variable {k : Expr} {build : Build Expr}

theorem nameContinuation_meets {c : Prop}
    (h : ∀ x, Gen.Yields (fun t => AcceptedTail t ↔ c) (build (.var x))) :
    Gen.Yields (fun t => AcceptedTail t ↔ c ∧ Accepted k) (nameContinuation k build) := by
  unfold nameContinuation
  split
  · rename_i x
    exact (h x).weaken fun t ht => ht.trans (and_iff_left rfl).symm
  · refine Gen.Yields.bind (P := fun _ => True) (fun _ => trivial) fun x _ => ?_
    refine (h x).bind fun body hbody => .pure ?_
    rw [acceptedTail_call rfl, accepted_lambda, hbody]
    simp only [checkPlains, then_ok_iff, and_true]

theorem useResult_meets {pass : Build Expr} {b c : Prop} (hnamed : e.isNamed = true)
    (hpass : ∀ k, k.isPrimitive = false →
      Gen.Yields (fun t => AcceptedTail t ↔ b ∧ Accepted k) (pass k))
    (hbuild : ∀ e', Fits e e' → Gen.Yields (fun t => AcceptedTail t ↔ Accepted e' ∧ c) (build e')) :
    Gen.Yields (fun t => AcceptedTail t ↔ b ∧ c) (useResult pass build) := by
  refine Gen.Yields.bind (P := fun _ => True) (fun _ => trivial) fun x _ => ?_
  refine (hbuild (.var x) (.name hnamed x)).bind fun body hbody => ?_
  refine (hpass (.lambda [x] body) rfl).weaken fun t ht => ?_
  rw [ht, accepted_lambda, hbody]
  exact and_congr_right fun _ => and_iff_right rfl

theorem ignoring_meets {rest : Gen Expr} {c : Prop}
    (h : Gen.Yields (fun t => AcceptedTail t ↔ c) rest) :
    Gen.Yields (fun k => k.isPrimitive = false ∧ (Accepted k ↔ c)) (ignoring rest) := by
  refine Gen.Yields.bind (P := fun _ => True) (fun _ => trivial) fun x _ => ?_
  exact h.bind fun body hbody => .pure ⟨rfl, hbody⟩

namespace Usage

variable {keep : Gen Expr} {pass : Build Expr} {ds : List Usage}

theorem make_meets {use : Build Expr → Gen Expr} (hkeep : e.isAtomic = true →
      Gen.Yields (fun e' => Fits e e' ∧ (Accepted e' ↔ e.isSteady = true)) keep)
    (hpass : ∀ k : Expr, k.isPrimitive = false →
      Gen.Yields (fun t => AcceptedTail t ↔ e.isSteady = true ∧ Accepted k) (pass k))
    (huse : ∀ {build : Build Expr} {c : Prop}, e.isAtomic = false →
      (∀ e', Fits e e' → Gen.Yields (fun t => AcceptedTail t ↔ Accepted e' ∧ c) (build e')) →
      Gen.Yields (fun t => AcceptedTail t ↔ e.isSteady = true ∧ c) (use build)) :
    (make e.isAtomic keep pass use).Meets e where
  keep := hkeep
  pass := hpass
  use := by
    intro build c hbuild
    cases hatomic : e.isAtomic with
    | true =>
      refine (hkeep hatomic).bind fun e' he' => ?_
      exact (hbuild e' he'.1).weaken fun t ht => ht.trans (and_congr_left' he'.2)
    | false => exact huse hatomic hbuild

theorem named_meets (hnamed : e.isAtomic = false → e.isNamed = true) (hkeep : e.isAtomic = true →
      Gen.Yields (fun e' => Fits e e' ∧ (Accepted e' ↔ e.isSteady = true)) keep)
    (hpass : ∀ k : Expr, k.isPrimitive = false →
      Gen.Yields (fun t => AcceptedTail t ↔ e.isSteady = true ∧ Accepted k) (pass k)) :
    (make e.isAtomic keep pass (useResult pass)).Meets e :=
  make_meets hkeep hpass fun hatomic hbuild => useResult_meets (hnamed hatomic) hpass hbuild

theorem leaf_meets (hatomic : e.isAtomic = true) (hsteady : e.isSteady = true)
    (haccepted : Accepted e) : (leaf e).Meets e where
  keep := fun _ => .pure ⟨.refl hatomic, iff_of_true haccepted hsteady⟩
  pass := fun k hk => .pure <| by
    rw [acceptedTail_resume hk]
    exact and_congr_left' (iff_of_true haccepted hsteady)
  use := fun {build c} hbuild => (hbuild e (.refl hatomic)).weaken fun t ht =>
    ht.trans (and_congr_left' (iff_of_true haccepted hsteady))

/-- What is left of several expressions. -/
abbrev FitAll (es es' : List Expr) : Prop :=
  List.Forall₂ Fits es es'

theorem keepAll_meets (h : MeetAll es ds) (hatomic : allAtomic es = true) :
    Gen.Yields (fun es' => FitAll es es' ∧ (checkPlains es' = .ok () ↔ allSteady es = true))
      (keepAll ds) := by
  induction h with
  | nil => exact .pure ⟨.nil, iff_of_true rfl rfl⟩
  | cons hd _ ih =>
    simp only [allAtomic, Bool.and_eq_true] at hatomic
    refine (hd.keep hatomic.1).bind fun e' he' => (ih hatomic.2).bind fun es' hes' =>
      .pure ⟨.cons he'.1 hes'.1, ?_⟩
    simp only [checkPlains, then_ok_iff, allSteady, Bool.and_eq_true]
    exact and_congr he'.2 hes'.2

theorem useAll_meets (h : MeetAll es ds) {build : Build (List Expr)} {c : Prop}
    (hbuild : ∀ es', FitAll es es' →
      Gen.Yields (fun t => AcceptedTail t ↔ checkPlains es' = .ok () ∧ c) (build es')) :
    Gen.Yields (fun t => AcceptedTail t ↔ allSteady es = true ∧ c) (useAll ds build) := by
  induction h generalizing build c with
  | nil =>
    exact (hbuild [] .nil).weaken fun t ht => ht.trans (and_congr_left' (iff_of_true rfl rfl))
  | @cons e d es ds hd _ ih =>
    have hfirst : Gen.Yields (fun t => AcceptedTail t ↔ e.isSteady = true ∧ allSteady es = true ∧ c)
        (useAll (d :: ds) build) := by
      refine hd.use fun e' he' => ?_
      refine (ih (c := Accepted e' ∧ c) fun es' hes' => ?_).weaken fun t ht => ?_
      · refine (hbuild (e' :: es') (.cons he' hes')).weaken fun t ht => ?_
        rw [ht, checkPlains, then_ok_iff]
        tauto
      · rw [ht]
        tauto
    refine hfirst.weaken fun t ht => ?_
    rw [ht, allSteady, Bool.and_eq_true, and_assoc]

theorem formed_meets {named : Bool} {wrap : List Expr → Expr} (h : MeetAll es ds)
    (hatomic : e.isAtomic = true → allAtomic es = true)
    (hnamed : e.isAtomic = false → e.isNamed = named)
    (hsteady : e.isSteady = true ↔ allSteady es = true)
    (haccepted : ∀ es', FitAll es es' → (Accepted (wrap es') ↔ checkPlains es' = .ok ()))
    (hfits : e.isNamed = false → ∀ es', FitAll es es' → Fits e (wrap es')) :
    (formed e.isAtomic named wrap ds).Meets e := by
  have hpass (k : Expr) (hk : k.isPrimitive = false) :
      Gen.Yields (fun t => AcceptedTail t ↔ e.isSteady = true ∧ Accepted k)
        (useAll ds fun es' => pure (resume k (wrap es'))) := by
    rw [hsteady]
    refine useAll_meets h fun es' hes' => .pure ?_
    rw [acceptedTail_resume hk, haccepted es' hes']
  refine make_meets (fun hflag => ?_) hpass fun hflag hbuild => ?_
  · refine (keepAll_meets h (hatomic hflag)).bind fun es' hes' => .pure ⟨?_, ?_⟩
    · exact hfits (Expr.isNamed_of_isAtomic hflag) es' hes'.1
    · rw [haccepted es' hes'.1, hsteady, hes'.2]
  · have hnamed := hnamed hflag
    cases named with
    | true => exact useResult_meets hnamed hpass hbuild
    | false =>
      rw [hsteady]
      refine useAll_meets h fun es' hes' => (hbuild _ (hfits hnamed es' hes')).weaken fun t ht => ?_
      rw [ht, haccepted es' hes']

theorem cond_meets {t c a : Expr} {dt dc da : Usage} (ht : dt.Meets t) (hc : dc.Meets c)
    (ha : da.Meets a) : (cond (Expr.cond t c a).isAtomic dt dc da).Meets (.cond t c a) := by
  have hsteady : (Expr.cond t c a).isSteady = true ↔
      t.isSteady = true ∧ c.isSteady = true ∧ a.isSteady = true := by
    simp only [Expr.isSteady, Bool.and_eq_true, and_assoc]
  refine named_meets (fun h => by simp [Expr.isNamed, h]) (fun h => ?_) (fun k hk => ?_)
  · have hall : t.isAtomic = true ∧ c.isAtomic = true ∧ a.isAtomic = true := by
      simpa only [Expr.isAtomic, Bool.and_eq_true, and_assoc] using h
    refine (ht.keep hall.1).bind fun t' ht' => (hc.keep hall.2.1).bind fun c' hc' =>
      (ha.keep hall.2.2).bind fun a' ha' => .pure ⟨⟨?_, rfl, rfl⟩, ?_⟩
    · rw [Expr.isNamed_of_isAtomic h]
      rfl
    · rw [accepted_cond, hsteady, ht'.2, hc'.2, ha'.2]
  · rw [hsteady]
    refine nameContinuation_meets fun x => ?_
    refine ht.use fun t' _ => ?_
    refine (hc.pass (.var x) rfl).bind fun c' hc' => (ha.pass (.var x) rfl).bind fun a' ha' => ?_
    refine .pure ?_
    rw [acceptedTail_cond, hc', ha']
    simp only [Accepted, checkPlain, and_true]

theorem logic_meets {op : LogicOp} {l r : Expr} {dl dr : Usage} (hl : dl.Meets l)
    (hr : dr.Meets r) : (logic (Expr.logic l r op).isAtomic op dl dr).Meets (.logic l r op) := by
  have hsteady : (Expr.logic l r op).isSteady = true ↔ l.isSteady = true ∧ r.isSteady = true := by
    simp only [Expr.isSteady, Bool.and_eq_true]
  refine named_meets (fun h => by simp [Expr.isNamed, h]) (fun h => ?_) (fun k hk => ?_)
  · have hboth : l.isAtomic = true ∧ r.isAtomic = true := by
      simpa only [Expr.isAtomic, Bool.and_eq_true] using h
    refine (hl.keep hboth.1).bind fun l' hl' => (hr.keep hboth.2).bind fun r' hr' =>
      .pure ⟨⟨?_, rfl, rfl⟩, ?_⟩
    · rw [Expr.isNamed_of_isAtomic h]
      rfl
    · rw [hsteady, ← hl'.2, ← hr'.2]
      exact then_ok_iff
  · rw [hsteady]
    refine nameContinuation_meets fun x => ?_
    refine hl.use fun l' _ => ?_
    refine (hr.pass (.var x) rfl).bind fun long hlong => ?_
    have hvar : Accepted (.var x) := rfl
    have hshort : AcceptedTail (resume (.var x) l') ↔ Accepted l' := by
      rw [acceptedTail_resume rfl]
      exact and_iff_left hvar
    have hlong : AcceptedTail long ↔ r.isSteady = true := hlong.trans (and_iff_left hvar)
    cases op with
    | or =>
      refine .pure ?_
      rw [acceptedTail_cond, hshort, hlong]
      tauto
    | and =>
      refine .pure ?_
      rw [acceptedTail_cond, hshort, hlong]
      tauto

theorem turnsPrimitive_of_isPrimitive (h : f.isPrimitive = true) : f.turnsPrimitive = false := by
  cases f with
  | member o p =>
    rw [Expr.isPrimitive_member] at h
    cases o <;> simp_all [Expr.turnsPrimitive, Expr.isNamed, Expr.isVar]
  | _ => rfl

theorem call_isSteady : (Expr.call f es).isSteady = true ↔
    f.turnsPrimitive = false ∧ f.isSteady = true ∧ allSteady es = true := by
  simp only [Expr.isSteady, Bool.and_eq_true, Bool.not_eq_true', and_assoc]

/-- Here the two readings of a callee meet: `f.isPrimitive` decides on the form of the call, and the
check looks at the callee that the call ends up with. -/
theorem call_meets {d : Usage} (hprimitive : f.isPrimitive = false) (hf : d.Meets f)
    (hds : MeetAll es ds) :
    (call (Expr.call f es).isAtomic f.isPrimitive d ds).Meets (.call f es) := by
  have hatomic : (Expr.call f es).isAtomic = false := by
    simp only [Expr.isAtomic, hprimitive, Bool.false_and]
  refine named_meets (fun h => by simp [Expr.isNamed, h]) (fun h => absurd h (by simp [hatomic]))
    fun k hk => ?_
  have hcall := @hf.use (fun f' => useAll ds fun es' => pure (.call f' (k :: es')))
    (c := allSteady es = true ∧ f.turnsPrimitive = false ∧ Accepted k) fun f' hf' => by
      refine (useAll_meets hds (c := Accepted f' ∧ f.turnsPrimitive = false ∧ Accepted k)
        fun es' _ => .pure ?_).weaken fun t ht => by rw [ht]; tauto
      have hcallee := hf'.isPrimitive
      rw [hprimitive, Bool.false_or] at hcallee
      cases hturns : f.turnsPrimitive with
      | true => simp [AcceptedTail, checkTail, hcallee.trans hturns]
      | false =>
        rw [acceptedTail_call (hcallee.trans hturns)]
        simp only [checkPlains, then_ok_iff]
        tauto
  simp only [hprimitive, Bool.false_eq_true, if_false, call_isSteady]
  exact hcall.weaken fun t ht => by
    rw [ht]
    tauto

theorem func_meets {name name' : Option String} {params params' : List String} {ss : List Stmt}
    {body : Build Expr}
    (hbody : ∀ x, Gen.Yields (fun t => AcceptedTail t ↔ stmtsSteady ss = true) (body (.var x))) :
    (func name params body).Meets (.func name' params' ss) := by
  have hkeep : Gen.Yields
      (fun e' => Fits (.func name' params' ss) e' ∧ (Accepted e' ↔ stmtsSteady ss = true))
      (function name params body) := by
    refine Gen.Yields.bind (P := fun _ => True) (fun _ => trivial) fun x _ => ?_
    exact (hbody x).bind fun e' he' => .pure ⟨⟨rfl, rfl, rfl⟩, he'⟩
  exact
    { keep := fun _ => hkeep
      pass := fun k hk => hkeep.bind fun e' he' => .pure <| by
        rw [acceptedTail_resume hk, he'.2]
        rfl
      use := fun {build c} hbuild => hkeep.bind fun e' he' =>
        (hbuild e' he'.1).weaken fun t ht => ht.trans (and_congr_left' he'.2) }

end Usage

theorem fieldsSteady_eq (fs : List (String × Expr)) :
    fieldsSteady fs = allSteady (fs.map Prod.snd) := by
  induction fs with
  | nil => rfl
  | cons f fs ih => exact congrArg (f.2.isSteady && ·) ih

theorem accepted_object {fs : List (String × Expr)} {es : List Expr}
    (h : Usage.FitAll (fs.map Prod.snd) es) :
    Accepted (.object ((fs.map Prod.fst).zip es)) ↔ checkPlains es = .ok () := by
  have hlength : es.length ≤ (fs.map Prod.fst).length := by
    rw [← h.length_eq, List.length_map, List.length_map]
  have hchecks := checkFields_eq ((fs.map Prod.fst).zip es)
  rw [List.map_snd_zip hlength] at hchecks
  exact Eq.congr_left hchecks

theorem accepted_one : checkPlains [e] = .ok () ↔ Accepted e := by
  simp only [checkPlains, then_ok_iff, and_true]

theorem accepted_two : checkPlains [e, f] = .ok () ↔ Accepted e ∧ Accepted f := by
  simp only [checkPlains, then_ok_iff, and_true]

theorem allAtomic_two (h : (e.isAtomic && f.isAtomic) = true) : allAtomic [e, f] = true := by
  simpa [allAtomic] using h

theorem meetTwo (h : (usage e).Meets e) (h' : (usage f).Meets f) :
    MeetAll [e, f] (usageAll [e, f]) :=
  .cons h (.cons h' .nil)

theorem following_meets {ss : List Stmt} (hk : k.isPrimitive = false)
    (h : Gen.Yields (fun t => AcceptedTail t ↔ stmtsSteady ss = true ∧ Accepted k)
      (sequence ss k)) :
    Gen.Yields (fun k' => k'.isPrimitive = false ∧
      (Accepted k' ↔ stmtsSteady ss = true ∧ Accepted k)) (following ss k) := by
  unfold following
  split_ifs with hempty
  · cases List.isEmpty_iff.1 hempty
    exact .pure ⟨hk, (and_iff_right rfl).symm⟩
  · exact ignoring_meets h

end Parts

mutual

theorem usage_meets : ∀ e : Expr, (usage e).Meets e
  | .num _ | .str _ | .bool _ | .null | .undefined | .var _ => Usage.leaf_meets rfl rfl rfl
  | .array es => usage_array es ▸ Usage.formed_meets (usageAll_meets es) id (fun _ => rfl) Iff.rfl
      (fun _ _ => Iff.rfl) fun _ _ _ => ⟨rfl, rfl, rfl⟩
  | .object fs => usage_object fs ▸ Usage.formed_meets (usageFields_meets fs)
      (fun h => (allFieldsAtomic_eq fs).symm.trans h) (fun _ => rfl)
      (Bool.eq_iff_iff.1 (fieldsSteady_eq fs)) (fun es' hes' => accepted_object hes')
      fun _ _ _ => ⟨rfl, rfl, rfl⟩
  | .unary op e => usage_unary e op ▸ Usage.formed_meets (.cons (usage_meets e) .nil)
      (fun h => (Bool.and_true _).trans h) (fun _ => rfl) (by simp [Expr.isSteady, allSteady])
      (by rintro _ (_ | ⟨_, ⟨⟩⟩); exact accepted_one.symm) fun _ _ _ => ⟨rfl, rfl, rfl⟩
  | .binary l r op =>
    usage_binary l r op ▸ Usage.formed_meets (meetTwo (usage_meets l) (usage_meets r))
      allAtomic_two (fun h => congrArg not h) (by simp [Expr.isSteady, allSteady])
      (by rintro _ (_ | ⟨_, _ | ⟨_, ⟨⟩⟩⟩); exact then_ok_iff.trans accepted_two.symm)
      fun h _ _ => ⟨by rw [h]; rfl, rfl, rfl⟩
  | .member o p => usage_member o p ▸ Usage.formed_meets (meetTwo (usage_meets o) (usage_meets p))
      allAtomic_two (fun _ => rfl) (by simp [Expr.isSteady, allSteady])
      (by rintro _ (_ | ⟨_, _ | ⟨_, ⟨⟩⟩⟩); exact then_ok_iff.trans accepted_two.symm)
      (by rintro _ _ (_ | ⟨ho, _ | ⟨hp, ⟨⟩⟩⟩); exact .member ho hp)
  | .assign t v => usage_assign t v ▸ Usage.formed_meets (meetTwo (usage_meets t) (usage_meets v))
      allAtomic_two (fun h => congrArg not h) (by simp [Expr.isSteady, allSteady])
      (by rintro _ (_ | ⟨_, _ | ⟨_, ⟨⟩⟩⟩); exact then_ok_iff.trans accepted_two.symm)
      fun h _ _ => ⟨by rw [h]; rfl, rfl, rfl⟩
  | .logic l r _ => Usage.logic_meets (usage_meets l) (usage_meets r)
  | .cond t c a => Usage.cond_meets (usage_meets t) (usage_meets c) (usage_meets a)
  | .call f es => by
    cases hprimitive : f.isPrimitive with
    | false => exact Usage.call_meets hprimitive (usage_meets f) (usageAll_meets es)
    | true =>
      rw [usage_primitive f hprimitive]
      refine Usage.formed_meets (.cons (usage_meets f) (usageAll_meets es)) (fun h => ?_)
        (fun h => congrArg not h) ?_ ?_ fun h _ _ => ⟨by rw [h]; rfl, rfl, rfl⟩
      · simpa only [Expr.isAtomic, hprimitive, Bool.true_and, allAtomic] using h
      · simp only [Expr.isSteady, Usage.turnsPrimitive_of_isPrimitive hprimitive, allSteady,
          Bool.not_false, Bool.true_and]
      · rintro _ (_ | ⟨hf, _⟩)
        refine accepted_call.trans ((and_iff_right ?_).trans then_ok_iff.symm)
        exact hf.isPrimitive.trans (by rw [hprimitive, Bool.true_or])
  | .func _ _ body => Usage.func_meets fun x =>
      (sequence_meets body (.var x) rfl).weaken fun _ ht => ht.trans (and_iff_left rfl)

theorem usageAll_meets : ∀ es : List Expr, MeetAll es (usageAll es)
  | [] => .nil
  | e :: es => .cons (usage_meets e) (usageAll_meets es)

theorem usageFields_meets : ∀ fs : List (String × Expr),
    MeetAll (fs.map Prod.snd) (usageAll (fs.map Prod.snd))
  | [] => .nil
  | (_, e) :: fs => .cons (usage_meets e) (usageFields_meets fs)

theorem bindAll_meets :
    ∀ (ds : List (String × Expr)) {tail : Gen Expr} {c : Prop},
      Gen.Yields (fun t => AcceptedTail t ↔ c) tail →
      Gen.Yields (fun t => AcceptedTail t ↔ fieldsSteady ds = true ∧ c) (bindAll ds tail)
  | [], _, _, htail => htail.weaken fun _ ht => ht.trans (and_iff_right rfl).symm
  | (x, e) :: ds, tail, c, htail => by
    have hrest := bindAll_meets ds htail
    have hnext {d : Usage} (hd : d.Meets e) :
        Gen.Yields (fun t => AcceptedTail t ↔ fieldsSteady ((x, e) :: ds) = true ∧ c)
          (bindAll ds tail >>= fun rest => d.pass (.lambda [x] rest)) := by
      refine hrest.bind fun rest hrest => (hd.pass (.lambda [x] rest) rfl).weaken fun t ht => ?_
      rw [ht, accepted_lambda, hrest, fieldsSteady, Bool.and_eq_true, and_assoc]
    have he := usage_meets e
    cases e with
    | func name params body =>
      cases name with
      | none =>
        exact hnext (Usage.func_meets fun y =>
          (sequence_meets body (.var y) rfl).weaken fun _ ht => ht.trans (and_iff_left rfl))
      | some f => exact hnext he
    | _ => exact hnext he

theorem sequence_meets :
    ∀ (ss : List Stmt) (k : Expr), k.isPrimitive = false →
      Gen.Yields (fun t => AcceptedTail t ↔ stmtsSteady ss = true ∧ Accepted k) (sequence ss k)
  | [], k, hk => .pure <| by
    rw [acceptedTail_resume hk]
    exact and_congr_left' (iff_of_true rfl rfl)
  | .empty :: rest, k, hk => sequence_meets rest k hk
  | .ret e :: _, k, hk => (usage_meets e).pass k hk
  | .declare ds :: rest, k, hk =>
    (bindAll_meets ds (sequence_meets rest k hk)).weaken fun t ht => by
      rw [ht, stmtsSteady, Bool.and_eq_true, and_assoc]
  | .expr e :: ss, k, hk => by
    rw [sequence_expr]
    refine (following_meets hk (sequence_meets ss k hk)).bind fun k' hk' => ?_
    exact ((usage_meets e).pass k' hk'.1).weaken fun t ht => by
      rw [ht, hk'.2, stmtsSteady, Bool.and_eq_true, and_assoc]
  | .block body :: ss, k, hk => by
    rw [sequence_block]
    refine (following_meets hk (sequence_meets ss k hk)).bind fun k' hk' => ?_
    exact (sequence_meets body k' hk'.1).weaken fun t ht => by
      rw [ht, hk'.2, stmtsSteady, Bool.and_eq_true, and_assoc]
  | .ifElse t c a :: ss, k, hk => by
    rw [sequence_choice]
    refine (following_meets hk (sequence_meets ss k hk)).bind fun k' hk' => ?_
    -- Both arms go on with the name, so what follows is checked once.
    refine (nameContinuation_meets
      (c := t.isSteady = true ∧ stmtsSteady c = true ∧ stmtsSteady a = true) fun x => ?_).weaken
      fun u hu => ?_
    · refine (usage_meets t).use fun t' _ => ?_
      refine (sequence_meets c (.var x) rfl).bind fun c' hc' =>
        (sequence_meets a (.var x) rfl).bind fun a' ha' => .pure ?_
      rw [acceptedTail_cond, hc', ha']
      simp only [Accepted, checkPlain, and_true]
    · rw [hu, hk'.2]
      simp only [stmtsSteady, Bool.and_eq_true, and_assoc]

end

end Compile

/-! ## Addresses -/

open Compile

theorem extended_isSteady (a : String) (e : Expr) : (extended a e).isSteady = e.isSteady := by
  simp [extended, Expr.isSteady, allSteady, Expr.turnsPrimitive, Expr.isStr]

theorem Addressed.isNamed_eq (h : Addressed a e e') : e'.isNamed = e.isNamed := by
  have hatomic := h.isAtomic_eq
  cases h <;> first | rfl | exact congrArg (!·) hatomic

theorem Addressed.turnsPrimitive_eq (h : Addressed a e e') :
    e'.turnsPrimitive = e.turnsPrimitive := by
  cases h with
  | @member _ _ _ p p' ho hp =>
    have hstr : p'.isStr = p.isStr := by cases hp <;> rfl
    simp only [Expr.turnsPrimitive, ho.isNamed_eq, hstr]
  | _ => rfl

mutual

theorem Addressed.isSteady_eq : ∀ {a : String} {e e' : Expr}, Addressed a e e' →
    e'.isSteady = e.isSteady
  | _, _, _, .array h => ExprsAddressed.isSteady_eq h
  | _, _, _, .object h => FieldsAddressed.isSteady_eq h
  | _, _, _, .unary _ h => by simp only [Expr.isSteady, Addressed.isSteady_eq h]
  | _, _, _, .binary _ hl hr | _, _, _, .logic _ hl hr | _, _, _, .member hl hr
  | _, _, _, .assign hl hr =>
    congrArg₂ (· && ·) (Addressed.isSteady_eq hl) (Addressed.isSteady_eq hr)
  | _, _, _, .cond ht hc he =>
    congrArg₂ (· && ·) (congrArg₂ (· && ·) (Addressed.isSteady_eq ht) (Addressed.isSteady_eq hc))
      (Addressed.isSteady_eq he)
  | _, _, _, .method _ hf hes => by
    simp only [Expr.isSteady, hf.turnsPrimitive_eq, Addressed.isSteady_eq hf,
      ExprsAddressed.isSteady_eq hes]
  | _, _, _, .call s _ hf hes => by
    have hextended (a : String) : (extended a (.str s)).isSteady = true := extended_isSteady a _
    simp only [Expr.isSteady, allSteady, hextended, hf.turnsPrimitive_eq, Addressed.isSteady_eq hf,
      ExprsAddressed.isSteady_eq hes, Bool.true_and]
  | _, _, _, .func _ _ _ h => StmtsAddressed.isSteady_eq h
  | _, _, _, .num .. | _, _, _, .str .. | _, _, _, .bool .. | _, _, _, .null _
  | _, _, _, .undefined _ | _, _, _, .var .. => rfl

theorem ExprsAddressed.isSteady_eq : ∀ {a : String} {es es' : List Expr}, ExprsAddressed a es es' →
    allSteady es' = allSteady es
  | _, _, _, .nil _ => rfl
  | _, _, _, .cons he hes =>
    congrArg₂ (· && ·) (Addressed.isSteady_eq he) (ExprsAddressed.isSteady_eq hes)

theorem FieldsAddressed.isSteady_eq : ∀ {a : String} {fs fs' : List (String × Expr)},
    FieldsAddressed a fs fs' → fieldsSteady fs' = fieldsSteady fs
  | _, _, _, .nil _ => rfl
  | _, _, _, .cons _ he hfs =>
    congrArg₂ (· && ·) (Addressed.isSteady_eq he) (FieldsAddressed.isSteady_eq hfs)

theorem StmtsAddressed.isSteady_eq : ∀ {a : String} {ss ss' : List Stmt}, StmtsAddressed a ss ss' →
    stmtsSteady ss' = stmtsSteady ss
  | _, _, _, .nil _ => rfl
  | _, _, _, .cons (.empty _) hss => by simp only [stmtsSteady, StmtsAddressed.isSteady_eq hss]
  | _, _, _, .cons (.expr he) hss =>
    congrArg₂ (· && ·) (Addressed.isSteady_eq he) (StmtsAddressed.isSteady_eq hss)
  | _, _, _, .cons (.ret he) _ => Addressed.isSteady_eq he
  | _, _, _, .cons (.declare hds) hss =>
    congrArg₂ (· && ·) (FieldsAddressed.isSteady_eq hds) (StmtsAddressed.isSteady_eq hss)
  | _, _, _, .cons (.ifElse ht hc he) hss => by
    simp only [stmtsSteady, Addressed.isSteady_eq ht, StmtsAddressed.isSteady_eq hc,
      StmtsAddressed.isSteady_eq he, StmtsAddressed.isSteady_eq hss]
  | _, _, _, .cons (.block hbody) hss =>
    congrArg₂ (· && ·) (StmtsAddressed.isSteady_eq hbody) (StmtsAddressed.isSteady_eq hss)

end

namespace Compile

theorem addressFunction_isSteady (name : Option String) (params : List String) (body : List Stmt) :
    (addressFunction name params body).flatten.isSteady =
      stmtsSteady (linearize (flattenStmts body)) := by
  have hnamed : Gen.Yields
      (fun e : Expr => e.flatten.isSteady = stmtsSteady (linearize (flattenStmts body)))
      (do
        let a ← fresh "address"
        let body' ← addressStmts a body
        return .func name (a :: params) body') := by
    refine Gen.Yields.bind (P := fun _ => True) (fun _ => trivial) fun a _ => ?_
    exact (addressStmts_addressed a body).bind fun _ h =>
      .pure (h.flatten.linearizeOnto (.nil a)).isSteady_eq
  exact hnamed 0

theorem convertFunction_meets (name : Option String) (params : List String) (body : List Stmt) :
    Accepted (convertFunction name params body) ↔
      (Expr.func name params body).flatten.isSteady = true :=
  ((usage_meets (Expr.func name params body).flatten).keep rfl 0).2

end Compile

/-! ## Programs -/

theorem Program.checked_func_iff {name : Option String} {params : List String}
    {body : List Stmt} :
    (∃ q, Program.checked ⟨[.expr (.func name params body)]⟩ = .ok q) ↔
      Compile.Accepted (.func name params body) := by
  constructor
  · rintro ⟨q, hq⟩
    obtain ⟨_, hchecked, _⟩ := exists_ok_of_bind hq
    obtain ⟨_, haccepted, _⟩ := exists_ok_of_bind hchecked
    exact haccepted
  · intro haccepted
    simp only [Program.checked, Program.mapFunction, haccepted]
    exact ⟨_, rfl⟩

/-- A program compiles exactly if no call in its linear form has a callee that turns primitive. -/
theorem compile_succeeds_iff (p : Program) :
    (∃ q, p.compile = .ok q) ↔
      stmtsSteady (linearize (flattenStmts (returnLast p.body))) = true := by
  obtain ⟨params, body, haddressed⟩ : ∃ params body,
      Compile.addressFunction none [] (returnLast p.body) = .func none params body := ⟨_, _, rfl⟩
  obtain ⟨params', body', hconverted⟩ : ∃ params' body',
      Compile.convertFunction none params body = .func none params' body' := ⟨_, _, rfl⟩
  have hthunk : p.thunk.addressed = .ok ⟨[.expr (.func none params body)]⟩ :=
    haddressed ▸ rfl
  have hfunction : Program.converted ⟨[.expr (.func none params body)]⟩ =
      .ok ⟨[.expr (.func none params' body')]⟩ := hconverted ▸ rfl
  have hcompile : p.compile = Program.checked ⟨[.expr (.func none params' body')]⟩ :=
    calc p.compile
        = (Program.converted ⟨[.expr (.func none params body)]⟩ >>= fun q => q.checked) := by
          rw [Program.compile, hthunk]
          rfl
      _ = Program.checked ⟨[.expr (.func none params' body')]⟩ := by
          rw [hfunction]
          rfl
  have hsteady : Compile.Accepted (.func none params' body') ↔
      stmtsSteady (linearize (flattenStmts (returnLast p.body))) = true := by
    rw [← hconverted, Compile.convertFunction_meets, ← haddressed, Compile.addressFunction_isSteady]
  rw [hcompile, ← hsteady]
  exact Program.checked_func_iff

/-- A call of what a call returns, by a computed property. -/
def chainedSource : String :=
  "var f = function(x) \x7b return [function(y) \x7b return y \x7d] \x7d; f(1)[0](2)"

/-- The text is a program, and compiling it fails. -/
def refused (source : String) : Bool :=
  match Program.parse source with
  | .ok p => (p.compile matches .error _)
  | .error _ => false

theorem chainedSource_refused :
    ∃ p, Program.parse chainedSource = .ok p ∧ ∀ q, p.compile ≠ .ok q := by
  have hrefused : refused chainedSource = true := by decide +kernel
  unfold refused at hrefused
  split at hrefused
  · rename_i p hp
    refine ⟨p, hp, fun q hq => ?_⟩
    rw [hq] at hrefused
    cases hrefused
  · cases hrefused

end Chance
