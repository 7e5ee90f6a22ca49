import Chance.Proofs.Enumeration.Nesting
import Chance.Proofs.Machine.Caching

/-!
# Samples with an extra score

An enumeration answers a sample with an extra score by scoring every value of the support, one after
the other, before it takes up any. Each scoring starts from the store of the call. What a value is
queued with depends on its own scoring alone; but factors inside a scoring count for the path that
has asked, and one that leaves nothing of it ends the path, with all values that are not yet queued.

- `Scoring`, `Weighing.Rates`: the scoring of a value by itself,
- `Echoes`: the scoring by itself beside the scoring in its turn,
- `Weighing.Queued`: a choice that was put off for a value,
- `values_queued_by_own_scoring`: which values are queued, and with what.
-/

namespace Chance

open Exec

/-! ## A scoring by itself -/

variable {xs ys : List Float} {n : Nat} {t t' : Task} {m m' : Machine} {w : Weighing}

/-- A scoring gets from one task to another, by steps of the machine and by factors, whatever these
leave of the path. It is above no coroutines, and does not leave the enumeration `n` or any below
it. The factors are listed. -/
inductive Scoring (n : Nat) : Task → Machine → List Float → Task → Machine → Prop
  | refl {t : Task} {m : Machine} : Scoring n t m [] t m
  | ordinary {t t' u : Task} {m m' m₁ : Machine} {s : Step} {xs : List Float} :
      t.Plain → (t.Asks → m.stack ≠ []) → (∀ i, t.left? = some i → n < i) →
      t.perform m = .ok s m' → s.task? = some t' → Scoring n t' m' xs u m₁ → Scoring n t m xs u m₁
  | factor {args : List Value} {k : Value} {a : String} {x : Float} {u : Task} {m m₁ : Machine}
      {xs : List Float} :
      m.stack = [] → callerOf args = .ok (k, a) → numberArgument args 2 = .ok x →
      Scoring n (.call k [.undefined]) m xs u m₁ →
      Scoring n (.call (.builtin .factor) args) m (x :: xs) u m₁

/-- A request for a sample with an extra score, and the state it is made in. -/
structure Weighing where
  engine : Engine
  k : Value
  address : String
  dist : Dist
  score : Value
  machine : Machine

/-- What scoring a value comes to. -/
structure Rating where
  factors : List Float
  extra : Float
  store : Store

namespace Weighing

variable (w : Weighing)

/-- The loop over the support. -/
def loop : Loop :=
  .weigh w.engine.id w.k w.address w.dist w.score w.machine.store w.engine.score

/-- Takes the extra score of a value. -/
def after (index : Nat) (rest : List Value) (v : Value) : Cont :=
  .collect w.loop index rest .undefined v

/-- Calls the scoring function for a value, with the continuation `c` of the given identity. -/
def callsScore (c : Cont) (j : Nat) (v : Value) : Task :=
  .call w.score [.cont j c, .str (subaddress w.address "sf"), v]

/-- Calls the scoring function for a value, with a continuation of the given identity. -/
def scores (j index : Nat) (rest : List Value) (v : Value) : Task :=
  w.callsScore (w.after index rest v) j v

/-- The state of the request without its coroutines, once the continuation is made. -/
def alone : Machine :=
  { w.machine with stack := [], nextId := w.machine.nextId + 1 }

/-- The scoring of the value by itself ends when the continuation made for it, as `c`, is called. -/
def RatesTo (c : Cont) (v : Value) (r : Rating) : Prop :=
  ∃ c' args m, Scoring w.engine.id (w.callsScore c w.machine.nextId v) w.alone r.factors
      (.call (.cont w.machine.nextId c') args) m ∧
    m.stack = [] ∧ (argument args 0).toNumber = .ok r.extra ∧ m.store = r.store

/-- The scoring of the value by itself ends when the continuation made for it is called. -/
def Rates (index : Nat) (rest : List Value) (v : Value) (r : Rating) : Prop :=
  w.RatesTo (w.after index rest v) v r

/-- The values from a place on are rated, each by itself; others follow them. -/
def RatesAll (rest : List Value) : Nat → List (Value × Rating) → Prop
  | _, [] => True
  | index, (v, r) :: rated =>
    w.Rates index (rated.map Prod.fst ++ rest) v r ∧ RatesAll rest (index + 1) rated

/-- The scoring of the value by itself meets a factor, after others. -/
def Meets (index : Nat) (rest : List Value) (v : Value) (xs : List Float) (x : Float) : Prop :=
  ∃ args k a m, Scoring w.engine.id (w.scores w.machine.nextId index rest v) w.alone xs
      (.call (.builtin .factor) args) m ∧
    m.stack = [] ∧ callerOf args = .ok (k, a) ∧ numberArgument args 2 = .ok x

/-- The stores are the same up to identities that were given out since the request. -/
def SameStore (store store' : Store) : Prop :=
  ∃ π : Pairing, (∀ i < w.machine.nextId, π.ids i i) ∧
    List.Forall₂ (FieldLike (Value.Alike anyCode π)) store store'

/-- The choice for a value is put off with the score and the store of its own scoring. -/
structure Queued (v : Value × Rating) (x : Entry) : Prop where
  k : x.k = w.k
  value : x.value = v.1
  score : x.score = w.engine.score + w.dist.score v.1 + v.2.extra
  store : w.SameStore v.2.store x.store

end Weighing

/-- The task is answered by the enumeration on top, which scores the values. -/
inductive Task.Weighs : Task → Machine → Weighing → List Value → Prop
  | call {args values : List Value} {k : Value} {a : String} {d : Dist} {m : Machine} {e : Engine} :
      callerOf args = .ok (k, a) → (argument args 2).toDist = .ok d → enumerable d = .ok values →
      m.stack.head? = some (.engine e) → e.done = false →
      Weighs (.call (.builtin .sampleWithFactor) args) m ⟨e, k, a, d, argument args 3, m⟩ values

/-- Something is left of the path after each of the factors. -/
def survives : Float → List Float → Bool
  | _, [] => true
  | s, x :: xs => !(s + x == Number.negInfinity) && survives (s + x) xs

/-- The score after the factors. -/
def weighedBy (s : Float) (xs : List Float) : Float :=
  xs.foldl (· + ·) s

theorem survives_append {s : Float} :
    survives s (xs ++ ys) = (survives s xs && survives (weighedBy s xs) ys) := by
  induction xs generalizing s with
  | nil => rfl
  | cons x xs ih => rw [List.cons_append, survives, survives, ih, Bool.and_assoc]; rfl

/-! ## Continuations are what they were made as -/

section Made

variable {s : Scope} {P : Policy}

mutual

theorem Value.Over.every (hcont : ∀ i c, s.known i → P.made (.cont i c))
    (hcached : ∀ i f, s.known i → P.made (.cached i f)) : ∀ {v : Value}, v.Over s → v.Every P
  | _, .undefined => .undefined
  | _, .null => .null
  | _, .bool b => .bool b
  | _, .num x => .num x
  | _, .str t => .str t
  | _, .array h => .array fun v hv => (h v hv).every hcont hcached
  | _, .object h => .object fun f hf => (h f hf).every hcont hcached
  | _, .closure _ _ h => .closure fun frame hframe b hb => (h frame hframe b hb).every hcont hcached
  | _, .primitive p => .primitive p
  | _, .builtin b => .builtin b
  | _, .cached hi h => .cached (hcached _ _ hi) (h.every hcont hcached)
  | _, .cont hi h => .cont (hcont _ _ hi) (h.every hcont hcached)
  | _, .dist _ h => .dist fun v hv => (h v hv).every hcont hcached
termination_by structural _ h => h

theorem Cont.Over.every (hcont : ∀ i c, s.known i → P.made (.cont i c))
    (hcached : ∀ i f, s.known i → P.made (.cached i f)) : ∀ {c : Cont}, c.Over s → c.Every P
  | _, .exit => .exit
  | _, .collect hl hrest hacc hitem =>
    .collect (hl.every hcont hcached) (fun v hv => (hrest v hv).every hcont hcached)
      (hacc.every hcont hcached) (hitem.every hcont hcached)
  | _, .remember _ hk => .remember (hk.every hcont hcached)
  | _, .drawn hk hf => .drawn (hk.every hcont hcached) (hf.every hcont hcached)
  | _, .scored hk hv => .scored (hk.every hcont hcached) (hv.every hcont hcached)
  | _, .weighted hk hv => .weighted (hk.every hcont hcached) (hv.every hcont hcached)
  | _, .leave _ => .leave
termination_by structural _ h => h

theorem Loop.Over.every (hcont : ∀ i c, s.known i → P.made (.cont i c))
    (hcached : ∀ i f, s.known i → P.made (.cached i f)) : ∀ {l : Loop}, l.Over s → l.Every P
  | _, .gather hk hf => .gather (hk.every hcont hcached) (hf.every hcont hcached)
  | _, .weigh _ hk hd hf hstore =>
    .weigh (hk.every hcont hcached) (fun v hv => (hd v hv).every hcont hcached)
      (hf.every hcont hcached) fun f hf' => (hstore f hf').every hcont hcached
termination_by structural _ h => h

end

/-- The continuation with the identity `j`, if there is one, is `c`. -/
def onlyCont (j : Nat) (c : Cont) : Policy where
  made
    | .cont i c' => i = j → c' = c
    | _ => True
  kept _ _ _ := True

variable {m m' : Machine} {t t' : Task} {j n : Nat} {c : Cont} {results : List (Value × Float)}

theorem Value.Over.every_onlyCont {next : Nat} {v : Value} (h : v.Over (.below next))
    (hj : next ≤ j) : v.Every (onlyCont j c) :=
  h.every (fun _ _ hi heq => absurd heq (hi.trans_le hj).ne) fun _ _ _ => trivial

theorem Machine.Over.every_onlyCont {next : Nat} (h : m.Over (.below next)) (hj : next ≤ j) :
    m.Every (onlyCont j c) := by
  refine ⟨fun f hf => (h.store f hf).every_onlyCont hj, fun e he => ?_, fun u hu f hf => ?_⟩
  · obtain ⟨-, hfrontier, htally, hk, hstore⟩ := h.stack e he
    refine ⟨fun x hx => ?_, fun x hx => (htally x hx).every_onlyCont hj, hk.every_onlyCont hj,
      fun f hf => (hstore f hf).every_onlyCont hj⟩
    obtain ⟨hxk, hxv, hxs⟩ := hfrontier x hx
    exact ⟨hxk.every_onlyCont hj, hxv.every_onlyCont hj, fun f hf => (hxs f hf).every_onlyCont hj⟩
  · exact ⟨((h.tables u hu).2 f hf).every_onlyCont hj, trivial⟩

theorem admits_onlyCont (hj : j < m.nextId) : Admits (onlyCont j c) t m where
  conts := fun hi _ heq => absurd heq (hj.trans_le hi).ne'
  remembers := fun _ _ heq => absurd heq hj.ne'
  caches := fun _ _ => trivial
  keeps := fun _ => trivial

theorem Leads.every_onlyCont (h : Leads n t m results t' m') (hj : j < m.nextId)
    (ht : t.Every (onlyCont j c)) (hm : m.Every (onlyCont j c)) : t'.Every (onlyCont j c) := by
  induction h with
  | refl => exact ht
  | step hs ht' _ ih =>
    obtain ⟨hstep, hm', hnext⟩ := (Task.perform_every ht hm (admits_onlyCont hj)).ok hs
    exact ih (hj.trans_le hnext) (hstep.task? _ ht') hm'

end Made

theorem Reached.leads {n : Nat} {t t' : Task} {m m' : Machine} {results : List (Value × Float)}
    (h : Reached m (some t)) (hleads : Leads n t m results t' m') : Reached m' (some t') := by
  induction hleads with
  | refl => exact h
  | step hs ht' _ ih => exact ih (ht' ▸ h.next hs)

/-! ## In its turn -/

/-- The scoring by itself is beside the scoring in its turn, whose continuation has the identity
`j`. -/
def Echoes (n next j : Nat) (stack : List Coroutine) (t : Task) (m : Machine) (t' : Task)
    (m' : Machine) : Prop :=
  ∃ (h : ∀ {f}, .engine f ∈ stack → f.id ≤ n) (π : Pairing), π.Bounded ∧ (∀ i < next, π.ids i i) ∧
    π.ids next j ∧ t.Alike (.replay n stack h) π t' ∧ m.Alike (.replay n stack h) π m'

section Echoes

variable {n next j : Nat} {outer : List Coroutine} {e : Engine} {t t' u : Task}
  {m m' m₁ : Machine} {xs : List Float}

theorem Echoes.stack_eq {stack : List Coroutine} (h : Echoes n next j stack t m t' m')
    (hbare : m.stack = []) : m'.stack = stack := by
  obtain ⟨_, π, -, -, -, -, hm⟩ := h
  exact stack_eq_of_bare hm hbare

theorem Echoes.ordinary {s : Step} (hn : n < next)
    (h : Echoes n next j (.engine e :: outer) t m t' m') (hplain : t.Plain)
    (hasks : t.Asks → m.stack ≠ []) (hleft : ∀ i, t.left? = some i → n < i)
    (hs : t.perform m = .ok s m₁) (hu : s.task? = some u) :
    t'.hands n m' = none ∧ ∃ s' u' m₁', t'.perform m' = .ok s' m₁' ∧ s'.task? = some u' ∧
      Echoes n next j (.engine e :: outer) u m₁ u' m₁' := by
  obtain ⟨hbelow, π, hπ, hsame, hown, ht, hm⟩ := h
  have hordinary : Ordinary (.replay n (.engine e :: outer) hbelow) m t :=
    { plain := .inr hplain
      answered := fun hask => .inr (List.length_pos_of_ne_nil (hasks hask))
      inner := hleft }
  have hbeside := Task.perform_beside ht hm hordinary
  unfold Beside at hbeside
  rw [hs] at hbeside
  obtain ⟨ρ, hρ, s', m₁', hs', hss', hm₁⟩ := hbeside
  refine ⟨hands_ordinary (hsame n hn) ht hm hplain hasks hleft, s', ?_⟩
  cases hss' with
  | done => cases hu
  | bounce huu' | through huu' =>
    cases hu
    exact ⟨_, m₁', hs', rfl, hbelow, ρ, hρ.bounded hπ, fun i hi => hρ.ids (hsame i hi), hρ.ids hown,
      huu', hm₁⟩

theorem Echoes.factor {args : List Value} {k : Value} {a : String} {x : Float} (hid : e.id = n)
    (houter : ∀ {f}, .engine f ∈ outer → f.id < e.id)
    (h : Echoes n next j (.engine e :: outer) (.call (.builtin .factor) args) m t' m')
    (hbare : m.stack = []) (hcaller : callerOf args = .ok (k, a))
    (hx : numberArgument args 2 = .ok x) :
    (t'.hands n m' = if e.score + x == Number.negInfinity then some (.undefined, e.score + x)
      else none) ∧
    ∃ k' m₁', m₁'.stack = .engine (e.weighing x) :: outer ∧
      t'.perform m' = (if e.score + x == Number.negInfinity then (e.weighing x).leave .undefined
        else pure (.resume k' .undefined)) m₁' ∧
      Echoes n next j (.engine (e.weighing x) :: outer) (.call k [.undefined]) m
        (.call k' [.undefined]) m₁' := by
  have hstack := h.stack_eq hbare
  obtain ⟨hbelow, π, hπ, hsame, hown, ht, hm⟩ := h
  cases ht with
  | @call _ f _ args' hf hargs =>
    cases hf
    obtain ⟨k', hcaller', hk⟩ := callerOf_ok_alike hargs hcaller
    have htracks := (alike_likeness anyCode π).numberArgument hargs 2
    rw [hx] at htracks
    obtain ⟨_, hx', rfl⟩ := htracks
    refine ⟨?_, k', _, rfl, factor_onTop hstack houter hcaller' hx', ?_, π, hπ, hsame, hown,
      .call hk (.cons .undefined .nil), ?_⟩
    · rw [Task.hands, hx', ← hid, handedAtFactor_onTop hstack]
    · intro f hf
      rcases List.mem_cons.1 hf with hf | hf
      · cases hf
        exact hid.le
      · exact hbelow (List.mem_cons_of_mem _ hf)
    · exact alike_bare hbare rfl hm.store hm.left hm.right hm.floor hm.floor'

/-- The enumeration after several factors. -/
def Engine.weighingAll (e : Engine) (xs : List Float) : Engine :=
  { e with score := weighedBy e.score xs }

/-- A scoring goes in its turn as it goes by itself, as long as something is left of the path. -/
theorem Scoring.leads (h : Scoring n t m xs u m₁) (hn : n < next) (hid : e.id = n)
    (houter : ∀ {f}, .engine f ∈ outer → f.id < e.id)
    (hechoes : Echoes n next j (.engine e :: outer) t m t' m')
    (hsurvives : survives e.score xs = true) :
    ∃ u' m₁', Leads n t' m' [] u' m₁' ∧
      Echoes n next j (.engine (e.weighingAll xs) :: outer) u m₁ u' m₁' := by
  induction h generalizing e t' m' with
  | refl => exact ⟨t', m', .refl, hechoes⟩
  | ordinary hplain hasks hleft hs hu _ ih =>
    obtain ⟨hands, s', u', m₁', hs', hu', hechoes'⟩ :=
      hechoes.ordinary hn hplain hasks hleft hs hu
    obtain ⟨v, m₂, hleads, hend⟩ := ih hid houter hechoes' hsurvives
    exact ⟨v, m₂, .quiet hands hs' hu' hleads, hend⟩
  | @factor args k a x _ _ _ xs hbare hcaller hx _ ih =>
    rw [survives, Bool.and_eq_true, Bool.not_eq_true'] at hsurvives
    obtain ⟨hands, k', m₁', -, hs', hechoes'⟩ := hechoes.factor hid houter hbare hcaller hx
    rw [hsurvives.1] at hands hs'
    obtain ⟨v, m₂, hleads, hend⟩ := ih (e := e.weighing x) hid houter hechoes' hsurvives.2
    exact ⟨v, m₂, .quiet hands hs' rfl hleads, hend⟩

end Echoes

/-! ## One value -/

/-- The loop of a request at a value, in a state of the runtime. -/
structure Weighing.Turn (w : Weighing) (outer : List Coroutine) (e : Engine) (index : Nat)
    (items : List Value) (m : Machine) : Prop where
  reached : Reached m (some (.iterate w.loop index items .undefined))
  stack : m.stack = .engine e :: outer
  id : e.id = w.engine.id
  going : e.done = false
  later : w.machine.nextId ≤ m.nextId

/-- All that the request is made of is known when it is made. -/
structure Weighing.Known (w : Weighing) (values : List Value) : Prop where
  id : w.engine.id < w.machine.nextId
  k : w.k.Over (.below w.machine.nextId)
  dist : ∀ v ∈ w.dist.values, v.Over (.below w.machine.nextId)
  score : w.score.Over (.below w.machine.nextId)
  store : StoreOver (.below w.machine.nextId) w.machine.store
  values : ∀ v ∈ values, v.Over (.below w.machine.nextId)

namespace Weighing

variable {w : Weighing} {outer : List Coroutine} {e : Engine} {index : Nat} {v : Value}
  {rest args values : List Value} {m : Machine} {x : Float}

theorem Known.loop (h : w.Known values) : w.loop.Over (.below w.machine.nextId) :=
  .weigh h.id h.k h.dist h.score h.store

theorem Known.after (h : w.Known values) (hrest : ∀ u ∈ v :: rest, u ∈ values) (index : Nat) :
    (w.after index rest v).Over (.below w.machine.nextId) :=
  .collect h.loop (fun u hu => h.values u (hrest u (List.mem_cons_of_mem v hu))) .undefined
    (h.values v (hrest v List.mem_cons_self))

/-- The enumeration of the request is on top, some time after the request, and no continuation has
the identity that is given out next. -/
structure OnTop (w : Weighing) (outer : List Coroutine) (e : Engine) (m : Machine) : Prop where
  fresh : ∀ c, m.Every (onlyCont m.nextId c)
  stack : m.stack = .engine e :: outer
  outer_lt : ∀ {f}, .engine f ∈ outer → f.id < e.id
  id : e.id = w.engine.id
  later : w.machine.nextId ≤ m.nextId

theorem Turn.onTop {items : List Value} (h : w.Turn outer e index items m) : w.OnTop outer e m :=
  ⟨fun _ => h.reached.over.1.every_onlyCont le_rfl, h.stack,
    fun hf => h.reached.outer_lt h.stack hf, h.id, h.later⟩

/-- The state in which the scoring function is called for a value. -/
def scored (w : Weighing) (m : Machine) : Machine :=
  { m with store := w.machine.store, nextId := m.nextId + 1 }

theorem leads_scores (w : Weighing) (index : Nat) (v : Value) (rest : List Value) (m : Machine) :
    Leads w.engine.id (.iterate w.loop index (v :: rest) .undefined) m []
      (w.scores m.nextId index rest v) (w.scored m) :=
  .quiet rfl rfl rfl .refl

variable {c : Cont}

theorem OnTop.echoes (h : w.OnTop outer e m) (hknown : w.Known values) (hv : v ∈ values)
    (hc : c.Over (.below w.machine.nextId)) :
    Echoes w.engine.id w.machine.nextId m.nextId (.engine e :: outer)
      (w.callsScore c w.machine.nextId v) w.alone (w.callsScore c m.nextId v) (w.scored m) := by
  -- Identities from before the scoring are paired with themselves, the new ones side by side.
  obtain ⟨π, hbounded, hπ⟩ := exists_fits_below w.machine.nextId
  have hright : π.right ≤ m.nextId := hπ.right ▸ h.later
  have hraised : (π.raise hbounded m.nextId hright).Bounded :=
    Pairing.raise_bounded hbounded hright
  let ρ := (π.raise hbounded m.nextId hright).extend
  have hle : π.raise hbounded m.nextId hright ≤ ρ := Pairing.le_extend _
  have hsame : ∀ {i}, i < w.machine.nextId → ρ.ids i i := fun hi => hle.ids (hπ.same hi)
  have hown : ρ.ids w.machine.nextId m.nextId := by
    have hids := (π.raise hbounded m.nextId hright).extend_ids
    rwa [show (π.raise hbounded m.nextId hright).left = w.machine.nextId from hπ.left.symm] at hids
  refine ⟨?_, ρ, hle.bounded hraised, fun i hi => hsame hi, hown, ?_, ?_⟩
  · intro f hf
    rcases List.mem_cons.1 hf with hf | hf
    · cases hf
      exact h.id.le
    · exact (h.id ▸ h.outer_lt hf).le
  · refine .call (hknown.score.alike hsame) (.cons ?_ (.cons (.str _) (.cons ?_ .nil)))
    · exact .cont hown (hc.alike hsame)
    · exact (hknown.values v hv).alike hsame
  · refine alike_bare rfl h.stack (hknown.store.alike hsame) ?_ rfl ?_ ?_
    · exact congrArg (· + 1) hπ.left
    · exact Nat.lt_succ_of_lt hknown.id
    · exact Nat.lt_succ_of_lt (hknown.id.trans_le h.later)

theorem OnTop.cont_eq (h : w.OnTop outer e m) (hknown : w.Known values) (hv : v ∈ values)
    (hc : c.Over (.below w.machine.nextId)) {c' : Cont} {m' : Machine}
    (hleads : Leads w.engine.id (w.callsScore c m.nextId v) (w.scored m) []
      (.call (.cont m.nextId c') args) m') : c' = c := by
  -- No other continuation has that identity, in what was there before or in what is new.
  have hm := h.fresh c
  have htask : (w.callsScore c m.nextId v).Every (onlyCont m.nextId c) := by
    refine ⟨hknown.score.every_onlyCont h.later, ?_⟩
    simp only [ValuesEvery, List.forall_mem_cons, List.not_mem_nil, IsEmpty.forall_iff,
      implies_true, and_true]
    have hcont := hc.every (P := onlyCont m.nextId c)
      (fun _ _ hi heq => absurd heq (hi.trans_le h.later).ne) fun _ _ _ => trivial
    exact ⟨.cont (fun _ => rfl) hcont, .str _, (hknown.values v hv).every_onlyCont h.later⟩
  have hmachine : (w.scored m).Every (onlyCont m.nextId c) :=
    ⟨fun f hf => (hknown.store f hf).every_onlyCont h.later, hm.stack, hm.tables⟩
  cases (hleads.every_onlyCont (Nat.lt_succ_self m.nextId) htask hmachine).1 with
  | cont hmade _ => exact hmade rfl

/-- A value that is rated by itself is rated alike in its turn, as long as its factors leave
something of the path. -/
theorem OnTop.returns (h : w.OnTop outer e m) (hknown : w.Known values) (hv : v ∈ values)
    (hc : c.Over (.below w.machine.nextId)) {r : Rating} (hrates : w.RatesTo c v r)
    (hsurvives : survives e.score r.factors = true) :
    ∃ args m', Leads w.engine.id (w.callsScore c m.nextId v) (w.scored m) []
        (.call (.cont m.nextId c) args) m' ∧
      m'.stack = .engine (e.weighingAll r.factors) :: outer ∧
      (argument args 0).toNumber = .ok r.extra ∧ w.SameStore r.store m'.store ∧
      m.nextId < m'.nextId := by
  obtain ⟨_, _, m₁, hscoring, hbare, hextra, hstore⟩ := hrates
  obtain ⟨u, m', hleads, hechoes⟩ :=
    hscoring.leads hknown.id h.id h.outer_lt (h.echoes hknown hv hc) hsurvives
  have hstack := hechoes.stack_eq hbare
  obtain ⟨_, π, hbounded, hsame, hown, ht, hm⟩ := hechoes
  cases ht with
  | @call _ g _ args hg hargs =>
    cases hg with
    | @cont _ j _ c' hj _ =>
      -- The continuation that is called is the one that the turn was given.
      obtain rfl : j = m.nextId := ((π.unique hj hown).1 rfl)
      obtain rfl := h.cont_eq hknown hv hc hleads
      have htracks :=
        (alike_likeness anyCode π).toNumber ((alike_likeness anyCode π).argument hargs 0)
      rw [hextra] at htracks
      obtain ⟨_, hextra', rfl⟩ := htracks
      exact ⟨args, m', hleads, hstack, hextra', ⟨π, hsame, hstore ▸ hm.store⟩,
        hm.right ▸ (hbounded hown).2⟩

/-- The choice for a value with an extra score. -/
def entry (w : Weighing) (v : Value) (extra : Float) (store : Store) : Entry :=
  ⟨w.k, v, w.engine.score + w.dist.score v + extra, store⟩

theorem perform_after {j : Nat} (hstack : m.stack = .engine e :: outer)
    (houter : ∀ {f}, .engine f ∈ outer → f.id < e.id) (hid : e.id = w.engine.id)
    (hgoing : e.done = false) (hx : (argument args 0).toNumber = .ok x) :
    (Task.call (.cont j (w.after index rest v)) args).perform m =
      .ok (.bounce (.turn w.loop (index + 1) rest .undefined))
        { m with
          stack :=
            .engine { e with frontier := e.frontier.push (w.entry v x m.store) } :: outer } := by
  change ((liftM (argument args 0).toNumber : Exec Float) >>= fun x =>
    Engine.live w.engine.id >>= fun e => fun m => EStateM.Result.ok
      (Step.bounce (.turn w.loop (index + 1) rest .undefined))
      (m.putEngine { e with frontier := e.frontier.push (w.entry v x m.store) })) m = _
  rw [hx, ← hid]
  refine (live_onTop hstack hgoing _).trans ?_
  exact congrArg _ (putEngine_onTop hstack rfl houter)

/-- A value that is rated by itself is queued in its turn, with the score and the store of its own
scoring, as long as its factors leave something of the path. -/
theorem Turn.rates (h : w.Turn outer e index (v :: rest) m) {values : List Value}
    (hknown : w.Known values) (hrest : ∀ u ∈ v :: rest, u ∈ values) {r : Rating}
    (hrates : w.Rates index rest v r) (hsurvives : survives e.score r.factors = true) :
    ∃ m' x, Leads w.engine.id (.iterate w.loop index (v :: rest) .undefined) m []
        (.iterate w.loop (index + 1) rest .undefined) m' ∧ w.Queued (v, r) x ∧
      w.Turn outer { e.weighingAll r.factors with frontier := e.frontier.push x } (index + 1) rest
        m' := by
  obtain ⟨args, m₁, hleads, hstack, hextra, hstore, hnext⟩ :=
    h.onTop.returns hknown (hrest v List.mem_cons_self) (hknown.after hrest index) hrates hsurvives
  have hall := (leads_scores w index v rest m).trans (hleads.trans (.quiet rfl
    (perform_after hstack h.onTop.outer_lt h.id h.going hextra) rfl (.quiet rfl rfl rfl .refl)))
  refine ⟨_, w.entry v r.extra m₁.store, hall, ⟨rfl, rfl, rfl, hstore⟩, ?_⟩
  exact
    { reached := h.reached.leads hall
      stack := rfl
      id := h.id
      going := h.going
      later := h.later.trans hnext.le }

theorem Turn.meets (h : w.Turn outer e index (v :: rest) m) (hknown : w.Known values)
    (hrest : ∀ u ∈ v :: rest, u ∈ values) {xs : List Float} (hmeets : w.Meets index rest v xs x)
    (hsurvives : survives e.score xs = true)
    (hzero : (weighedBy e.score xs + x == Number.negInfinity) = true) :
    ∃ t m' e' m'', Leads w.engine.id (.iterate w.loop index (v :: rest) .undefined) m [] t m' ∧
      t.hands w.engine.id m' = some (.undefined, weighedBy e.score xs + x) ∧
      t.perform m' = e'.leave .undefined m'' ∧ m''.stack = .engine e' :: outer ∧
      e'.frontier = e.frontier := by
  obtain ⟨args, k, a, m₁, hscoring, hbare, hcaller, hx⟩ := hmeets
  have hechoes :=
    h.onTop.echoes hknown (hrest v List.mem_cons_self) (hknown.after hrest index)
  obtain ⟨u, m₁', hleads, hechoes⟩ :=
    hscoring.leads hknown.id h.id h.onTop.outer_lt hechoes hsurvives
  obtain ⟨hands, k', m₂, hstack, hperform, -⟩ :=
    hechoes.factor (e := e.weighingAll xs) h.id h.onTop.outer_lt hbare hcaller hx
  have hzero' : ((e.weighingAll xs).score + x == Number.negInfinity) = true := hzero
  rw [hzero'] at hands hperform
  exact ⟨u, m₁', (e.weighingAll xs).weighing x, m₂, (leads_scores w index v rest m).trans hleads,
    hands, hperform, hstack, rfl⟩

theorem Turn.ratesAll {values rest : List Value} (hknown : w.Known values) :
    ∀ {rated : List (Value × Rating)} {e : Engine} {index : Nat} {m : Machine},
      w.Turn outer e index (rated.map Prod.fst ++ rest) m →
      (∀ u ∈ rated.map Prod.fst ++ rest, u ∈ values) → w.RatesAll rest index rated →
      survives e.score (rated.flatMap fun x => x.2.factors) = true →
      ∃ m' e' entries, Leads w.engine.id
          (.iterate w.loop index (rated.map Prod.fst ++ rest) .undefined) m []
          (.iterate w.loop (index + rated.length) rest .undefined) m' ∧
        List.Forall₂ w.Queued rated entries ∧ w.Turn outer e' (index + rated.length) rest m' ∧
        e'.frontier = entries.foldl (fun f x => f.push x) e.frontier ∧
        e'.score = weighedBy e.score (rated.flatMap fun x => x.2.factors)
  | [], e, index, m, h, _, _, _ => ⟨m, e, [], .refl, .nil, h, rfl, rfl⟩
  | (v, r) :: rated, e, index, m, h, hvalues, hrates, hsurvives => by
    rw [List.flatMap_cons, survives_append, Bool.and_eq_true] at hsurvives
    obtain ⟨m₁, x, hleads, hqueued, hturn⟩ := h.rates hknown hvalues hrates.1 hsurvives.1
    obtain ⟨m', e', entries, hleads', hqueued', hturn', hfrontier, hscore⟩ :=
      Turn.ratesAll hknown hturn (fun u hu => hvalues u (List.mem_cons_of_mem _ hu)) hrates.2
        hsurvives.2
    have hindex : index + 1 + rated.length = index + ((v, r) :: rated).length := by
      rw [List.length_cons]
      omega
    rw [hindex] at hleads' hturn'
    refine ⟨m', e', x :: entries, hleads.trans hleads', .cons hqueued hqueued', hturn',
      hfrontier, ?_⟩
    rw [hscore, List.flatMap_cons, weighedBy, weighedBy, List.foldl_append]
    rfl

end Weighing

/-! ## The whole support -/

section Requests

variable {t : Task} {m : Machine} {w : Weighing} {values : List Value}

theorem Task.Weighs.perform_eq (h : t.Weighs m w values) :
    t.perform m = .ok (.through (.iterate w.loop 0 values .undefined)) m := by
  cases h with
  | @call args _ k a d _ e hcaller hd hvalues hhead _ =>
    have hstart : (Task.call (.builtin .sampleWithFactor) args).perform m =
        sampleWithFactorAt k a d (argument args 3) m := by
      change ((liftM (callerOf args) : Exec _) >>= fun x =>
        (liftM (argument args 2).toDist : Exec _) >>= fun d =>
          sampleWithFactorAt x.1 x.2 d (argument args 3)) m = _
      rw [hcaller, hd]
      rfl
    rw [hstart, sampleWithFactorAt, currentCoroutine_bind, hhead]
    change ((liftM (enumerable d) : Exec _) >>= fun values => fun m => EStateM.Result.ok
      (Step.through (.iterate (.weigh e.id k a d (argument args 3) m.store e.score) 0 values
        .undefined)) m) m = _
    rw [hvalues]
    rfl

theorem Task.Weighs.turn (h : t.Weighs m w values) (hreached : Reached m (some t)) :
    Leads w.engine.id t m [] (.iterate w.loop 0 values .undefined) m ∧
      w.Turn m.stack.tail w.engine 0 values m := by
  have hleads : Leads w.engine.id t m [] (.iterate w.loop 0 values .undefined) m := by
    refine .quiet ?_ h.perform_eq rfl .refl
    cases h
    rfl
  have hreached' := hreached.leads hleads
  cases h with
  | call _ _ _ hhead hgoing =>
    exact ⟨hleads, hreached', (List.cons_head?_tail hhead).symm, rfl, hgoing, le_rfl⟩

theorem Task.Weighs.known (h : t.Weighs m w values) (hreached : Reached m (some t)) :
    w.Known values := by
  have hmachine : w.machine = m := by
    cases h
    rfl
  obtain ⟨hloop, hvalues, -⟩ := (h.turn hreached).2.reached.over.2 _ rfl
  rw [← hmachine] at hloop hvalues
  cases hloop with
  | weigh hid hk hdist hscore hstore => exact ⟨hid, hk, hdist, hscore, hstore, hvalues⟩

end Requests

/-- Which values of the support are queued by a sample with an extra score, and with what. Let the
scoring of each value up to some place, taken by itself from the state of the request, come to a
rating. If something is left of the path after each factor that these scorings make, in their order,
then all these values are queued, each with the score and the store of its own scoring, and the loop
gets to the next value. If now a factor in the scoring of the next value leaves nothing of the path,
then the path ends there, and neither this value nor any after it is queued. -/
theorem values_queued_by_own_scoring {t : Task} {m : Machine} {w : Weighing}
    {values rest : List Value}
    {rated : List (Value × Rating)} (hreached : Reached m (some t)) (hw : t.Weighs m w values)
    (hvalues : values = rated.map Prod.fst ++ rest) (hrates : w.RatesAll rest 0 rated)
    (hsurvives : survives w.engine.score (rated.flatMap fun x => x.2.factors) = true) :
    ∃ m' e' entries, Leads w.engine.id t m [] (.iterate w.loop rated.length rest .undefined) m' ∧
      m'.stack = .engine e' :: m.stack.tail ∧ List.Forall₂ w.Queued rated entries ∧
      e'.frontier = entries.foldl (fun f x => f.push x) w.engine.frontier ∧
      ∀ v rest' xs x, rest = v :: rest' → w.Meets rated.length rest' v xs x →
        survives e'.score xs = true → (weighedBy e'.score xs + x == Number.negInfinity) = true →
        ∃ u n e'' n', Leads w.engine.id t m [] u n ∧
          u.hands w.engine.id n = some (.undefined, weighedBy e'.score xs + x) ∧
          u.perform n = e''.leave .undefined n' ∧ n'.stack = .engine e'' :: m.stack.tail ∧
          e''.frontier = e'.frontier := by
  have hknown := hw.known hreached
  obtain ⟨hleads, hturn⟩ := hw.turn hreached
  subst hvalues
  obtain ⟨m', e', entries, hleads', hqueued, hturn', hfrontier, -⟩ :=
    Weighing.Turn.ratesAll hknown hturn (fun u hu => hu) hrates hsurvives
  rw [Nat.zero_add] at hleads' hturn'
  refine ⟨m', e', entries, hleads.trans hleads', hturn'.stack, hqueued, hfrontier, ?_⟩
  rintro v rest' xs x rfl hmeets halive hzero
  obtain ⟨u, n, e'', n', hcut, hands, hperform, hstack, hsame⟩ :=
    hturn'.meets hknown (fun u hu => List.mem_append_right _ hu) hmeets halive hzero
  exact ⟨u, n, e'', n', hleads.trans (hleads'.trans hcut), hands, hperform, hstack, hsame⟩

/-! ## Ratings that are computed -/

theorem Ran.reached {past : Chronicle} {x : Option Task} (h : Ran past m x) : Reached m x := by
  induction h with
  | fresh supply => exact .fresh supply
  | scripted choices _ ih => exact ih.scripted choices
  | started _ hs ih => exact ih.started hs
  | next _ hs ih => exact ih.next hs
  | failed depth _ hs ih => exact ih.failed depth hs

/-- The request that the task makes of the enumeration on top. -/
def Task.weighing? (t : Task) (m : Machine) : Option (Weighing × List Value) :=
  match t, m.stack.head? with
  | .call (.builtin .sampleWithFactor) args, some (.engine e) =>
    match callerOf args, (argument args 2).toDist with
    | .ok (k, a), .ok d =>
      match enumerable d with
      | .ok values => if e.done then none else some (⟨e, k, a, d, argument args 3, m⟩, values)
      | .error _ => none
    | _, _ => none
  | _, _ => none

theorem Task.weighs_of_weighing? {values : List Value} (h : t.weighing? m = some (w, values)) :
    t.Weighs m w values := by
  unfold Task.weighing? at h
  split at h
  · next hhead =>
    split at h
    · next hcaller hd =>
      split at h
      · next hvalues =>
        split_ifs at h with hdone
        cases h
        exact .call hcaller hd hvalues hhead (eq_false_of_ne_true hdone)
      · cases h
    · cases h
  · cases h

/-- One step of a scoring that calls closures and makes factors, with the factors it makes. -/
def Task.scoringStep? (t : Task) (m : Machine) : Option (List Float × Task × Machine) :=
  match t with
  | .call (.closure ..) _ =>
    match t.perform m with
    | .ok s m' => s.task?.map fun t' => ([], t', m')
    | .error .. => none
  | .call (.builtin .factor) args =>
    match m.stack, callerOf args, numberArgument args 2 with
    | [], .ok (k, _), .ok x => some ([x], .call k [.undefined], m)
    | _, _, _ => none
  | _ => none

theorem Scoring.of_scoringStep? {u : Task} {m₁ : Machine}
    (h : t.scoringStep? m = some (xs, t', m')) (hrest : Scoring n t' m' ys u m₁) :
    Scoring n t m (xs ++ ys) u m₁ := by
  unfold Task.scoringStep? at h
  split at h
  · split at h
    · next s n' hs =>
      obtain ⟨t'', ht, heq⟩ := Option.map_eq_some_iff.1 h
      cases heq
      exact .ordinary trivial nofun nofun hs ht hrest
    · cases h
  · split at h
    · next hbare hcaller hx =>
      cases h
      exact .factor hbare hcaller hx hrest
    · cases h
  · cases h

namespace Weighing

variable (w : Weighing)

/-- What the scoring comes to when its continuation is called. -/
def rated? (t : Task) (m : Machine) : Option Rating :=
  match m.stack, t with
  | [], .call (.cont j _) args =>
    match (argument args 0).toNumber with
    | .ok x => if j = w.machine.nextId then some ⟨[], x, m.store⟩ else none
    | .error _ => none
  | _, _ => none

/-- Runs a scoring to its end. -/
def rate? : Nat → Task → Machine → Option Rating
  | 0, _, _ => none
  | fuel + 1, t, m =>
    match w.rated? t m with
    | some r => some r
    | none =>
      match t.scoringStep? m with
      | some (xs, t', m') => (rate? fuel t' m').map fun r => { r with factors := xs ++ r.factors }
      | none => none

/-- The scorings of values, each by itself. -/
def rateAll? (fuel : Nat) (rest : List Value) : Nat → List Value → Option (List (Value × Rating))
  | _, [] => some []
  | index, v :: values =>
    match w.rate? fuel (w.scores w.machine.nextId index (values ++ rest) v) w.alone,
      rateAll? fuel rest (index + 1) values with
    | some r, some rated => some ((v, r) :: rated)
    | _, _ => none

variable {w}

theorem exists_of_rate? {fuel : Nat} {t : Task} {m : Machine} {r : Rating}
    (h : w.rate? fuel t m = some r) :
    ∃ c args m', Scoring w.engine.id t m r.factors (.call (.cont w.machine.nextId c) args) m' ∧
      m'.stack = [] ∧ (argument args 0).toNumber = .ok r.extra ∧ m'.store = r.store := by
  induction fuel generalizing t m r with
  | zero => cases h
  | succ fuel ih =>
    unfold rate? at h
    split at h
    · next r' hrated =>
      unfold rated? at hrated
      split at hrated
      · next hbare =>
        split at hrated
        · next hx =>
          split_ifs at hrated with hj
          subst hj
          cases hrated
          cases h
          exact ⟨_, _, m, .refl, hbare, hx, rfl⟩
        · cases hrated
      · cases hrated
    · split at h
      · next hstep =>
        obtain ⟨r', hr', rfl⟩ := Option.map_eq_some_iff.1 h
        obtain ⟨c, args, m', hscoring, hbare, hx, hstore⟩ := ih hr'
        exact ⟨c, args, m', hscoring.of_scoringStep? hstep, hbare, hx, hstore⟩
      · cases h

theorem ratesAll_of_rateAll? {fuel : Nat} {rest : List Value} :
    ∀ {values : List Value} {index : Nat} {rated : List (Value × Rating)},
      w.rateAll? fuel rest index values = some rated →
      values = rated.map Prod.fst ∧ w.RatesAll rest index rated
  | [], _, _, h => by
    cases h
    exact ⟨rfl, trivial⟩
  | v :: values, index, _, h => by
    unfold rateAll? at h
    split at h
    · next r rated hr hrated =>
      cases h
      obtain ⟨rfl, hrates⟩ := ratesAll_of_rateAll? hrated
      exact ⟨rfl, exists_of_rate? hr, hrates⟩
    · cases h

end Weighing

/-- The request with the ratings of all values, if something of the path is left after them. -/
def Task.ratings? (t : Task) (m : Machine) : Option (Weighing × List (Value × Rating)) :=
  match t.weighing? m with
  | some (w, values) =>
    match w.rateAll? 20 [] 0 values with
    | some rated =>
      if survives w.engine.score (rated.flatMap fun x => x.2.factors) then some (w, rated) else none
    | none => none
  | none => none

theorem Task.exists_of_ratings? {rated : List (Value × Rating)}
    (h : t.ratings? m = some (w, rated)) :
    t.Weighs m w (rated.map Prod.fst ++ []) ∧ w.RatesAll [] 0 rated ∧
      survives w.engine.score (rated.flatMap fun x => x.2.factors) = true := by
  unfold Task.ratings? at h
  split at h
  · next hweighing =>
    split at h
    · next hrated =>
      split_ifs at h with hsurvives
      cases h
      obtain ⟨hvalues, hrates⟩ := Weighing.ratesAll_of_rateAll? hrated
      rw [List.append_nil, ← hvalues]
      exact ⟨Task.weighs_of_weighing? hweighing, hrates, hsurvives⟩
    · cases h
  · cases h

/-- The first request in a text for a sample with an extra score. -/
def firstWeighing? (source : String) : Option (Chronicle × Task × Machine) :=
  firstAt? (fun t m => (t.weighing? m).isSome) source

/-- Every scoring makes a factor and leaves its value in the store. -/
def weighingSource : String :=
  "Enumerate(function() \x7b return sampleWithFactor(RandomInteger(\x7bn: 3\x7d), " ++
    "function(x) \x7b factor(x === 0 ? 1 : -1); globalStore.seen = x; return 10 * x; \x7d); \x7d)"

theorem weighingSource_queues_values :
    ∃ past t m w rated m' e' entries, firstWeighing? weighingSource = some (past, t, m) ∧
      t.ratings? m = some (w, rated) ∧ rated.length = 3 ∧
      Leads w.engine.id t m [] (.iterate w.loop rated.length [] .undefined) m' ∧
      m'.stack = .engine e' :: m.stack.tail ∧ List.Forall₂ w.Queued rated entries ∧
      e'.frontier = entries.foldl (fun f x => f.push x) w.engine.frontier := by
  have hrequest : (firstWeighing? weighingSource).any
      (fun x => (x.2.1.ratings? x.2.2).any fun y => y.2.length == 3) = true := by
    decide +kernel
  obtain ⟨⟨past, t, m⟩, hfirst, hrequest⟩ := (Option.any_eq_true _ _).1 hrequest
  obtain ⟨⟨w, rated⟩, hratings, hlength⟩ := (Option.any_eq_true _ _).1 hrequest
  obtain ⟨hweighs, hrates, hsurvives⟩ := Task.exists_of_ratings? hratings
  obtain ⟨m', e', entries, hleads, hstack, hqueued, hfrontier, -⟩ :=
    values_queued_by_own_scoring (ran_of_firstAt? hfirst).1.reached hweighs rfl hrates hsurvives
  exact ⟨past, t, m, w, rated, m', e', entries, hfirst, hratings, beq_iff_eq.1 hlength, hleads,
    hstack, hqueued, hfrontier⟩

/-! ## A scoring that takes the other values with it -/

/-- The first value is refused by a factor inside its scoring, the others are scored alike. -/
def refusingSource : String :=
  "Enumerate(function() \x7b return sampleWithFactor(RandomInteger(\x7bn: 3\x7d), " ++
    "function(x) \x7b factor(x === 0 ? -Infinity : 0); return 0; \x7d); \x7d)"

/-- The second value is rated by itself and something of the path is left after its factors, but the
run from the request on finds no path with any probability. -/
def Task.refusesSecond (t : Task) (m : Machine) : Bool :=
  match t.weighing? m with
  | some (w, _ :: v :: rest) =>
    match w.rate? 20 (w.scores w.machine.nextId 1 rest v) w.alone, t.drive 30 m with
    | some r, .error er _ => survives w.engine.score r.factors && decide (er = .zeroProbability)
    | _, _ => false
  | _ => false

theorem Task.exists_of_refusesSecond (h : t.refusesSecond m = true) :
    ∃ w u v rest r m', t.Weighs m w (u :: v :: rest) ∧ w.Rates 1 rest v r ∧
      survives w.engine.score r.factors = true ∧ t.drive 30 m = .error .zeroProbability m' := by
  unfold Task.refusesSecond at h
  split at h
  · next hweighing =>
    split at h
    · next hrate hdrive =>
      obtain ⟨hsurvives, rfl⟩ := (Bool.and_eq_true_iff.1 h).imp_right of_decide_eq_true
      exact ⟨_, _, _, _, _, _, Task.weighs_of_weighing? hweighing, Weighing.exists_of_rate? hrate,
        hsurvives, hdrive⟩
    · cases h
  · cases h

/-- By its own scoring the second value would be queued; but the first takes it with it. -/
theorem refusingSource_loses_values :
    ∃ past t m w u v rest r m', firstWeighing? refusingSource = some (past, t, m) ∧
      t.Weighs m w (u :: v :: rest) ∧ w.Rates 1 rest v r ∧
      survives w.engine.score r.factors = true ∧ t.drive 30 m = .error .zeroProbability m' := by
  have hrefuses :
      (firstWeighing? refusingSource).any (fun x => x.2.1.refusesSecond x.2.2) = true := by
    decide +kernel
  obtain ⟨⟨past, t, m⟩, hfirst, hrefuses⟩ := (Option.any_eq_true _ _).1 hrefuses
  obtain ⟨w, u, v, rest, r, m', hweighs, hrates, hsurvives, hdrive⟩ :=
    Task.exists_of_refusesSecond hrefuses
  exact ⟨past, t, m, w, u, v, rest, r, m', hfirst, hweighs, hrates, hsurvives, hdrive⟩

end Chance
