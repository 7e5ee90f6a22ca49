import Chance.Proofs.Machine.Discipline

/-!
# What holds of every continuation

A property of continuations and of functions that keep their results holds throughout a state if it
holds of all that can be reached in it: from the store, from scopes, from continuations, from
enumerations and from tables. A step keeps such a property if it holds of what the step makes.

- `Policy`: such a property, with one of the results that are kept in tables,
- `Value.Every`, `Machine.Every`, `Task.Every`: the property holds throughout,
- `Admits`: the property holds of whatever the task makes,
- `Task.perform_every`: then it holds throughout after the task as well.
-/

namespace Chance

/-- A property of continuations and of functions that keep their results, and one of the results
that are kept under a key. -/
structure Policy where
  made : Value → Prop
  kept : Nat → String → Value → Prop

/-! ## Values -/

mutual

/-- The property holds of all continuations, and of all functions that keep their results, in the
value. -/
inductive Value.Every (P : Policy) : Value → Prop
  | undefined : Value.Every P .undefined
  | null : Value.Every P .null
  | bool (b : Bool) : Value.Every P (.bool b)
  | num (x : Float) : Value.Every P (.num x)
  | str (s : String) : Value.Every P (.str s)
  | array {vs : List Value} : (∀ v ∈ vs, Value.Every P v) → Value.Every P (.array vs)
  | object {fs : List (String × Value)} :
      (∀ f ∈ fs, Value.Every P f.2) → Value.Every P (.object fs)
  | closure {i : Nat} {name : Option String} {params : List String} {body : List Stmt} {env : Env} :
      (∀ frame ∈ env, ∀ b ∈ frame, Value.Every P b.2) →
      Value.Every P (.closure i name params body env)
  | primitive (p : Primitive) : Value.Every P (.primitive p)
  | builtin (b : Builtin) : Value.Every P (.builtin b)
  | cached {i : Nat} {f : Value} :
      P.made (.cached i f) → Value.Every P f → Value.Every P (.cached i f)
  | cont {i : Nat} {c : Cont} : P.made (.cont i c) → Cont.Every P c → Value.Every P (.cont i c)
  | dist {i : Nat} {d : Dist} : (∀ v ∈ d.values, Value.Every P v) → Value.Every P (.dist i d)

inductive Cont.Every (P : Policy) : Cont → Prop
  | exit : Cont.Every P .exit
  | collect {l : Loop} {index : Nat} {rest : List Value} {acc item : Value} :
      Loop.Every P l → (∀ v ∈ rest, Value.Every P v) → Value.Every P acc → Value.Every P item →
      Cont.Every P (.collect l index rest acc item)
  | remember {i : Nat} {key : String} {k : Value} :
      Value.Every P k → Cont.Every P (.remember i key k)
  | drawn {k f : Value} {address : String} :
      Value.Every P k → Value.Every P f → Cont.Every P (.drawn k address f)
  | scored {k v : Value} {address : String} :
      Value.Every P k → Value.Every P v → Cont.Every P (.scored k address v)
  | weighted {k v : Value} :
      Value.Every P k → Value.Every P v → Cont.Every P (.weighted k v)
  | leave {i : Nat} : Cont.Every P (.leave i)

inductive Loop.Every (P : Policy) : Loop → Prop
  | gather {how : Gather} {k f : Value} {address : String} :
      Value.Every P k → Value.Every P f → Loop.Every P (.gather how k address f)
  | weigh {i : Nat} {k f : Value} {address : String} {d : Dist} {store : Store} {base : Float} :
      Value.Every P k → (∀ v ∈ d.values, Value.Every P v) → Value.Every P f →
      (∀ f ∈ store, Value.Every P f.2) → Loop.Every P (.weigh i k address d f store base)

end

section Mono

variable {P Q : Policy}

mutual

theorem Value.Every.mono (hPQ : ∀ v, P.made v → Q.made v) : ∀ {v : Value}, v.Every P → v.Every Q
  | _, .undefined => .undefined
  | _, .null => .null
  | _, .bool b => .bool b
  | _, .num x => .num x
  | _, .str s => .str s
  | _, .array h => .array fun v hv => (h v hv).mono hPQ
  | _, .object h => .object fun f hf => (h f hf).mono hPQ
  | _, .closure h => .closure fun frame hframe b hb => (h frame hframe b hb).mono hPQ
  | _, .primitive p => .primitive p
  | _, .builtin b => .builtin b
  | _, .cached h hf => .cached (hPQ _ h) (hf.mono hPQ)
  | _, .cont h hc => .cont (hPQ _ h) (hc.mono hPQ)
  | _, .dist h => .dist fun v hv => (h v hv).mono hPQ
termination_by structural _ h => h

theorem Cont.Every.mono (hPQ : ∀ v, P.made v → Q.made v) : ∀ {c : Cont}, c.Every P → c.Every Q
  | _, .exit => .exit
  | _, .collect hl hrest hacc hitem =>
    .collect (hl.mono hPQ) (fun v hv => (hrest v hv).mono hPQ) (hacc.mono hPQ) (hitem.mono hPQ)
  | _, .remember hk => .remember (hk.mono hPQ)
  | _, .drawn hk hf => .drawn (hk.mono hPQ) (hf.mono hPQ)
  | _, .scored hk hv => .scored (hk.mono hPQ) (hv.mono hPQ)
  | _, .weighted hk hv => .weighted (hk.mono hPQ) (hv.mono hPQ)
  | _, .leave => .leave
termination_by structural _ h => h

theorem Loop.Every.mono (hPQ : ∀ v, P.made v → Q.made v) : ∀ {l : Loop}, l.Every P → l.Every Q
  | _, .gather hk hf => .gather (hk.mono hPQ) (hf.mono hPQ)
  | _, .weigh hk hd hf hstore =>
    .weigh (hk.mono hPQ) (fun v hv => (hd v hv).mono hPQ) (hf.mono hPQ)
      fun f hf' => (hstore f hf').mono hPQ
termination_by structural _ h => h

end

end Mono

abbrev ValuesEvery (P : Policy) (vs : List Value) : Prop :=
  ∀ v ∈ vs, v.Every P

abbrev StoreEvery (P : Policy) (store : Store) : Prop :=
  ∀ f ∈ store, f.2.Every P

abbrev EnvEvery (P : Policy) (env : Env) : Prop :=
  ∀ frame ∈ env, ∀ b ∈ frame, b.2.Every P

abbrev Dist.Every (P : Policy) (d : Dist) : Prop :=
  ∀ v ∈ d.values, v.Every P

section Values

variable {P : Policy}

theorem every_inherited (P : Policy) : Inherited (Value.Every P) where
  undefined := .undefined
  null := .null
  bool := .bool
  num := .num
  str := .str
  primitive := .primitive
  builtin := .builtin
  array := ⟨fun | .array h => h, .array⟩
  object := ⟨fun | .object h => h, .object⟩
  dist := ⟨fun | .dist h => h, .dist⟩

theorem argument_every {vs : List Value} (h : ValuesEvery P vs) (i : Nat) :
    (argument vs i).Every P :=
  (every_inherited P).argument h i

end Values

/-! ## States -/

structure Entry.Every (P : Policy) (x : Entry) : Prop where
  k : x.k.Every P
  value : x.value.Every P
  store : StoreEvery P x.store

structure Engine.Every (P : Policy) (e : Engine) : Prop where
  frontier : ∀ x ∈ e.frontier.toList, x.Every P
  tally : ∀ x ∈ e.tally.entries, x.value.Every P
  k : e.k.Every P
  store : StoreEvery P e.store

/-- The property holds throughout the state. -/
structure Machine.Every (P : Policy) (m : Machine) : Prop where
  store : StoreEvery P m.store
  stack : ∀ e, .engine e ∈ m.stack → e.Every P
  tables : ∀ t ∈ m.tables, ∀ f ∈ t.2, f.2.Every P ∧ P.kept t.1 f.1 f.2

def Task.Every (P : Policy) : Task → Prop
  | .call f args => f.Every P ∧ ValuesEvery P args
  | .turn l _ rest acc | .iterate l _ rest acc => l.Every P ∧ ValuesEvery P rest ∧ acc.Every P
  | .enter e thunk exit => e.Every P ∧ thunk.Every P ∧ exit.Every P

def Step.Every (P : Policy) : Step → Prop
  | .bounce t | .through t => t.Every P
  | .done v => v.Every P

section StateMono

variable {P Q : Policy} (hPQ : ∀ v, P.made v → Q.made v)
include hPQ

theorem Engine.Every.mono {e : Engine} (h : e.Every P) : e.Every Q where
  frontier x hx :=
    ⟨(h.frontier x hx).k.mono hPQ, (h.frontier x hx).value.mono hPQ,
      fun f hf => ((h.frontier x hx).store f hf).mono hPQ⟩
  tally x hx := (h.tally x hx).mono hPQ
  k := h.k.mono hPQ
  store f hf := (h.store f hf).mono hPQ

theorem Machine.Every.mono {m : Machine}
    (hkept : ∀ table key v, P.kept table key v → Q.kept table key v) (h : m.Every P) :
    m.Every Q where
  store f hf := (h.store f hf).mono hPQ
  stack e he := (h.stack e he).mono hPQ
  tables t ht f hf := ⟨(h.tables t ht f hf).1.mono hPQ, hkept _ _ _ (h.tables t ht f hf).2⟩

theorem Task.Every.mono {t : Task} (h : t.Every P) : t.Every Q := by
  cases t with
  | call => exact ⟨h.1.mono hPQ, fun v hv => (h.2 v hv).mono hPQ⟩
  | turn | iterate => exact ⟨h.1.mono hPQ, fun v hv => (h.2.1 v hv).mono hPQ, h.2.2.mono hPQ⟩
  | enter => exact ⟨h.1.mono hPQ, h.2.1.mono hPQ, h.2.2.mono hPQ⟩

end StateMono

theorem Step.Every.task? {P : Policy} {s : Step} (h : s.Every P) :
    ∀ t ∈ s.task?, t.Every P := by
  intro t ht
  cases s with
  | bounce u | through u =>
    cases ht
    exact h
  | done v => cases ht

/-! ## Computations -/

/-- The computation keeps the property throughout the state, and its result satisfies `Q`. -/
def Exec.Throughout {α : Type} (P : Policy) (Q : α → Prop) (x : Exec α) (m : Machine) : Prop :=
  match x m with
  | .ok a n => Q a ∧ n.Every P ∧ m.nextId ≤ n.nextId
  | .error _ n => n.Every P ∧ m.nextId ≤ n.nextId

namespace Exec.Throughout

variable {P : Policy} {α β : Type} {Q : α → Prop} {R : β → Prop} {m n : Machine} {a : α}
  {x : Exec α} {f : Value → Exec β}

theorem pure (hm : m.Every P) (h : Q a) : Throughout P Q (pure a) m :=
  ⟨h, hm, le_rfl⟩

theorem throw (hm : m.Every P) (e : Error) : Throughout P Q (throw e) m :=
  ⟨hm, le_rfl⟩

theorem ok (h : Throughout P Q x m) (hx : x m = .ok a n) :
    Q a ∧ n.Every P ∧ m.nextId ≤ n.nextId := by
  unfold Throughout at h
  rwa [hx] at h

theorem error {e : Error} (h : Throughout P Q x m) (hx : x m = .error e n) :
    n.Every P ∧ m.nextId ≤ n.nextId := by
  unfold Throughout at h
  rwa [hx] at h

theorem bind {x : Exec α} {f : α → Exec β} (h : Throughout P Q x m)
    (k : ∀ a n, Q a → n.Every P → m.nextId ≤ n.nextId → Throughout P R (f a) n) :
    Throughout P R (x >>= f) m := by
  unfold Throughout at h ⊢
  simp only [Bind.bind, EStateM.bind]
  cases hx : x m with
  | error e n =>
    rw [hx] at h
    exact h
  | ok a n =>
    rw [hx] at h
    obtain ⟨ha, hn, hnext⟩ := h
    have hk := k a n ha hn hnext
    unfold Throughout at hk
    dsimp only
    split at hk
    · exact ⟨hk.1, hk.2.1, hnext.trans hk.2.2⟩
    · exact ⟨hk.1, hnext.trans hk.2⟩

theorem lift_bind {x : Except Error α} {f : α → Exec β} (hm : m.Every P)
    (k : ∀ a, x = .ok a → Throughout P R (f a) m) : Throughout P R (liftM x >>= f) m := by
  cases x with
  | error e => exact throw hm e
  | ok a => exact k a rfl

theorem get_bind {f : Machine → Exec β} (k : Throughout P R (f m) m) :
    Throughout P R (get >>= f) m :=
  k

theorem modify_bind {f : Machine → Machine} {x : PUnit → Exec β} (hnext : (f m).nextId = m.nextId)
    (k : Throughout P R (x ⟨⟩) (f m)) : Throughout P R ((modify f : Exec PUnit) >>= x) m := by
  unfold Throughout at k
  rw [hnext] at k
  exact k

theorem freshId_bind {f : Nat → Exec β} (hm : m.Every P)
    (k : ∀ n : Machine, n.Every P → m.nextId ≤ n.nextId → Throughout P R (f m.nextId) n) :
    Throughout P R (Exec.freshId >>= f) m := by
  have hfresh : Throughout P (· = m.nextId) Exec.freshId m :=
    ⟨rfl, ⟨hm.store, hm.stack, hm.tables⟩, Nat.le_succ _⟩
  refine hfresh.bind fun i n hi hn hnext => ?_
  subst hi
  exact k n hn hnext

theorem newCont_bind {c : Cont} (hm : m.Every P) (hc : c.Every P) (hP : P.made (.cont m.nextId c))
    (k : ∀ v n, v.Every P → n.Every P → m.nextId ≤ n.nextId → Throughout P R (f v) n) :
    Throughout P R (Exec.newCont c >>= f) m :=
  freshId_bind (f := fun i => f (.cont i c)) hm fun n hn hnext => k _ n (.cont hP hc) hn hnext

theorem newDist_bind {d : Dist} (hm : m.Every P) (hd : d.Every P)
    (k : ∀ v n, v.Every P → n.Every P → Throughout P R (f v) n) :
    Throughout P R (Exec.newDist d >>= f) m :=
  freshId_bind (f := fun i => f (.dist i d)) hm fun n hn _ => k _ n (.dist hd) hn

end Exec.Throughout

open Exec

section InPlace

variable {P : Policy} {m : Machine} {env : Env}

theorem Machine.Every.withStore (hm : m.Every P) {store : Store} (h : StoreEvery P store) :
    Machine.Every P { m with store := store } :=
  ⟨h, hm.stack, hm.tables⟩

theorem Machine.Grows.every {n : Machine} (h : m.Grows (Value.Every P) n) (hm : m.Every P) :
    n.Every P :=
  ⟨h.store, h.stack.symm ▸ hm.stack, h.tables.symm ▸ hm.tables⟩

theorem Exec.Preserves.throughout {α : Type} {Q : α → Prop} {x : Exec α}
    (h : x.Preserves (Value.Every P) Q m) (hm : m.Every P) : Throughout P Q x m := by
  unfold Exec.Preserves at h
  unfold Throughout
  cases hx : x m with
  | ok a n =>
    rw [hx] at h
    exact ⟨h.1, h.2.every hm, h.2.nextId⟩
  | error e n =>
    rw [hx] at h
    exact ⟨h.every hm, h.nextId⟩

theorem EnvEvery.supplies (henv : EnvEvery P env) :
    Supplies (Value.Every P) (fun _ => True) env where
  parts := by
    intro e _
    cases e <;> simp [Expr.Parts]
  var _ hv := by
    obtain ⟨frame, hframe, hb⟩ := lookup?_mem hv
    exact henv frame hframe _ hb
  func _ _ := .closure henv

theorem eval_throughout (henv : EnvEvery P env) (e : Expr) (hm : m.Every P) :
    Throughout P (Value.Every P) (eval env e) m :=
  ((every_inherited P).eval henv.supplies trivial hm.store).throughout hm

theorem evalAll_throughout (henv : EnvEvery P env) (es : List Expr) (hm : m.Every P) :
    Throughout P (ValuesEvery P) (evalAll env es) m :=
  ((every_inherited P).evalAll henv.supplies (fun _ _ => trivial) hm.store).throughout hm

theorem evalTail_throughout {env : Env} (henv : EnvEvery P env) :
    ∀ (e : Expr) {m : Machine}, m.Every P → Throughout P (Step.Every P) (evalTail env e) m
  | .cond t c a, _, hm => (eval_throughout henv t hm).bind fun v _ _ hn _ => by
    split_ifs
    · exact evalTail_throughout henv c hn
    · exact evalTail_throughout henv a hn
  | .call f args, _, hm => by
    rw [evalTail]
    split
    · exact (eval_throughout henv _ hm).bind fun _ _ hv hn _ => .pure hn hv
    · refine (eval_throughout henv f hm).bind fun _ _ hv hn _ => ?_
      exact (evalAll_throughout henv args hn).bind fun _ _ hvs hn' _ => .pure hn' ⟨hv, hvs⟩
  | .num _, _, hm | .str _, _, hm | .bool _, _, hm | .null, _, hm | .undefined, _, hm
  | .var _, _, hm | .array _, _, hm | .object _, _, hm | .unary .., _, hm | .binary .., _, hm
  | .logic .., _, hm | .member .., _, hm | .func .., _, hm | .assign .., _, hm =>
    (eval_throughout henv _ hm).bind fun _ _ hv hn _ => .pure hn hv

theorem enterClosure_throughout {id : Nat} {name : Option String} {params : List String}
    {body : List Stmt} {args : List Value} (henv : EnvEvery P env) (hargs : ValuesEvery P args)
    (hm : m.Every P) :
    Throughout P (Step.Every P) (enterClosure id name params body env args) m := by
  have hframe : ∀ b ∈ bindParams (.closure id name params body env) name params args,
      b.2.Every P := by
    refine List.forall_mem_append.2 ⟨?_, List.forall_mem_map.2 fun x _ => argument_every hargs x.2⟩
    cases name with
    | none => exact nofun
    | some f => exact List.forall_mem_singleton.2 (.closure henv)
  unfold enterClosure
  split
  · exact evalTail_throughout (List.forall_mem_cons.2 ⟨hframe, henv⟩) _ hm
  · exact .throw hm _

end InPlace

/-! ## Enumerations -/

section Enumerations

variable {P : Policy} {m : Machine} {e : Engine} {i : Nat} {k v : Value} {d : Dist} {x : Float}
  {address : String}

theorem Machine.Every.putEngine (hm : m.Every P) (he : e.Every P) : (m.putEngine e).Every P where
  store := hm.store
  stack := by
    intro f hf
    obtain ⟨c, hc, hfc⟩ := List.mem_map.1 hf
    cases c with
    | script => cases hfc
    | engine g =>
      simp only at hfc
      split at hfc
      · cases hfc
        exact he
      · cases hfc
        exact hm.stack _ hc
  tables := hm.tables

theorem Machine.Every.uninstall (hm : m.Every P) : m.uninstall.2.Every P :=
  ⟨hm.store, fun e he => hm.stack e (List.mem_of_mem_tail he), hm.tables⟩

theorem Machine.Every.engine? (hm : m.Every P) (he : m.engine? i = some e) : e.Every P := by
  obtain ⟨c, hc, hfound⟩ := List.exists_of_findSome?_eq_some he
  cases c with
  | script => cases hfound
  | engine f =>
    simp only [Option.ite_none_right_eq_some, Option.some.injEq] at hfound
    obtain ⟨-, rfl⟩ := hfound
    exact hm.stack _ hc

theorem resume_every (hk : k.Every P) (hv : v.Every P) : (Step.resume k v).Every P :=
  ⟨hk, List.forall_mem_singleton.2 hv⟩

theorem Engine.live_throughout {f : Engine → Exec Step} (hm : m.Every P)
    (k : ∀ e, e.Every P → Throughout P (Step.Every P) (f e) m) :
    Throughout P (Step.Every P) (Engine.live i >>= f) m := by
  unfold Throughout
  rw [Engine.live_bind]
  cases he : m.engine? i with
  | none => exact ⟨hm, le_rfl⟩
  | some e =>
    dsimp only
    split_ifs
    · exact ⟨hm, le_rfl⟩
    · exact k e (hm.engine? he)

theorem Engine.finish_throughout (he : e.Every P) (hm : m.Every P) :
    Throughout P (Step.Every P) e.finish m := by
  have hover : Engine.Every P { e with done := true, frontier := e.frontier.clear } := by
    refine ⟨fun x hx => ?_, he.tally, he.k, he.store⟩
    have hclear : e.frontier.clear.toList = [] := by
      cases e.frontier <;> rfl
    rw [hclear] at hx
    cases hx
  refine .lift_bind hm fun d hd => .modify_bind rfl (.modify_bind rfl (.modify_bind rfl ?_))
  refine .newDist_bind (((hm.putEngine hover).uninstall).withStore he.store)
    (marginal_inherits he.tally hd) fun v n hv hn => ?_
  exact .pure hn (resume_every he.k hv)

theorem Engine.advance_throughout (he : e.Every P) (hm : m.Every P) :
    Throughout P (Step.Every P) e.advance m := by
  unfold Engine.advance
  split
  · next x rest hpop =>
    have hlist := Frontier.toList_of_pop? hpop
    have hx := he.frontier x (hlist ▸ List.mem_cons_self)
    have htaken : Engine.Every P { e with score := x.score, frontier := rest } :=
      ⟨fun y hy => he.frontier y (hlist ▸ List.mem_cons_of_mem _ hy), he.tally, he.k, he.store⟩
    refine .modify_bind rfl (.modify_bind rfl ?_)
    exact .pure ((hm.putEngine htaken).withStore hx.store) (resume_every hx.k hx.value)
  · exact finish_throughout he hm

theorem Engine.leave_throughout (he : e.Every P) (hv : v.Every P) (hm : m.Every P) :
    Throughout P (Step.Every P) (e.leave v) m := by
  have hcounted : Engine.Every P
      { e with tally := e.tally.add v e.score, completed := e.completed + 1 } :=
    ⟨he.frontier, tally_add_inherits he.tally hv e.score, he.k, he.store⟩
  refine .modify_bind rfl ?_
  split
  · exact advance_throughout hcounted (hm.putEngine hcounted)
  · exact finish_throughout hcounted (hm.putEngine hcounted)

theorem Engine.Every.postpone {store : Store} {values : List Value} (he : e.Every P)
    (hk : k.Every P) (hstore : StoreEvery P store) (hvalues : ValuesEvery P values) :
    (e.postpone k d store values).Every P :=
  ⟨Frontier.forall_mem_pushAll he.frontier fun v hv => ⟨hk, hvalues v hv, hstore⟩, he.tally, he.k,
    he.store⟩

theorem Engine.sample_throughout (he : e.Every P) (hk : k.Every P) (hd : d.Every P)
    (hm : m.Every P) : Throughout P (Step.Every P) (e.sample k d) m := by
  refine .lift_bind hm fun values hvalues => .get_bind (.modify_bind rfl ?_)
  have hpostponed := he.postpone (d := d) hk hm.store ((every_inherited P).enumerable hd hvalues)
  exact advance_throughout hpostponed (hm.putEngine hpostponed)

theorem Engine.factor_throughout (he : e.Every P) (hk : k.Every P) (hm : m.Every P) :
    Throughout P (Step.Every P) (e.factor k x) m := by
  have hweighed : Engine.Every P { e with score := e.score + x } := { he with }
  refine .modify_bind rfl ?_
  split
  · exact leave_throughout hweighed .undefined (hm.putEngine hweighed)
  · exact .pure (hm.putEngine hweighed) (resume_every hk .undefined)

theorem Engine.sampleWithFactor_throughout {score : Value} (hk : k.Every P) (hd : d.Every P)
    (hscore : score.Every P) (hm : m.Every P) :
    Throughout P (Step.Every P) (e.sampleWithFactor k address d score) m := by
  refine .lift_bind hm fun values hvalues => .get_bind (.pure hm ?_)
  exact ⟨.weigh hk hd hscore hm.store, (every_inherited P).enumerable hd hvalues, .undefined⟩

theorem sampleAt_throughout {options : Value} (hk : k.Every P) (hd : d.Every P) (hm : m.Every P) :
    Throughout P (Step.Every P) (sampleAt k address d options) m := by
  change Throughout P _ (currentCoroutine >>= _) m
  unfold Throughout
  rw [currentCoroutine_bind]
  cases hhead : m.stack.head? with
  | none =>
    have hv := ((every_inherited P).likeness.sample (distLike_itself hd) m.supply).1.2
    exact ⟨resume_every hk hv, ⟨hm.store, hm.stack, hm.tables⟩, le_rfl⟩
  | some c =>
    cases c with
    | engine e =>
      exact Engine.sample_throughout (hm.stack e (List.mem_of_mem_head? hhead)) hk hd hm
    | script i =>
      obtain ⟨hv, hgrows⟩ := (every_inherited P).answer hd hm.store i address options
      exact ⟨resume_every hk hv, hgrows.every hm, hgrows.nextId⟩

theorem factorAt_throughout (hk : k.Every P) (hm : m.Every P) :
    Throughout P (Step.Every P) (factorAt k address x) m := by
  change Throughout P _ (currentCoroutine >>= _) m
  unfold Throughout
  rw [currentCoroutine_bind]
  cases hhead : m.stack.head? with
  | none => exact ⟨hm, le_rfl⟩
  | some c =>
    cases c with
    | engine e => exact Engine.factor_throughout (hm.stack e (List.mem_of_mem_head? hhead)) hk hm
    | script i =>
      have hgrows := note_grows hm.store i address x
      exact ⟨resume_every hk .undefined, hgrows.every hm, hgrows.nextId⟩

end Enumerations

/-! ## Steps -/

def Cont.isRemember : Cont → Bool
  | .remember .. => true
  | _ => false

/-- The property holds of new continuations other than those of kept results. -/
def AdmitsConts (P : Policy) (next : Nat) : Prop :=
  ∀ {i : Nat} {c : Cont}, next ≤ i → c.isRemember = false → P.made (.cont i c)

/-- The property holds of whatever continuation, or function that keeps its results, the task
makes. -/
structure Admits (P : Policy) (t : Task) (m : Machine) : Prop where
  conts : AdmitsConts P m.nextId
  remembers : ∀ {table : Nat} {f : Value} {args : List Value}, t = .call (.cached table f) args →
    m.cached? table (Value.array (args.drop 2)).text = none →
    P.made (.cont m.nextId (.remember table (Value.array (args.drop 2)).text (argument args 0)))
  caches : ∀ {args : List Value}, t = .call (.builtin .cache) args →
    (argument args 2).isCallable = true → P.made (.cached m.nextId (argument args 2))
  keeps : ∀ {i table : Nat} {key : String} {k : Value} {args : List Value},
    t = .call (.cont i (.remember table key k)) args → P.kept table key (argument args 0)

section Steps

variable {P : Policy} {m : Machine} {args : List Value} {acc f k : Value} {address : String}
  {index table : Nat} {l : Loop}

theorem callerOf_every {a : String} (h : ValuesEvery P args)
    (hcaller : callerOf args = .ok (k, a)) : k.Every P := by
  obtain ⟨_, _, hrest⟩ := exists_ok_of_bind hcaller
  cases hrest
  exact argument_every h 0

theorem sampleWithFactorAt_throughout {score : Value} {d : Dist} (hk : k.Every P) (hd : d.Every P)
    (hscore : score.Every P) (hP : AdmitsConts P m.nextId) (hm : m.Every P) :
    Throughout P (Step.Every P) (sampleWithFactorAt k address d score) m := by
  have hdraw : Throughout P (Step.Every P)
      (Exec.newCont (.drawn k address score) >>= fun after =>
        sampleAt after address d .undefined) m :=
    .newCont_bind hm (.drawn hk hscore) (hP le_rfl rfl) fun v n hv hn _ =>
      sampleAt_throughout hv hd hn
  change Throughout P _ (currentCoroutine >>= _) m
  unfold Throughout
  rw [currentCoroutine_bind]
  rcases m.stack.head? with _ | e | i
  · exact hdraw
  · exact Engine.sampleWithFactor_throughout hk hd hscore hm
  · exact hdraw

theorem startEnumeration_throughout {thunk : Value} {options : EnumerateOptions} (hk : k.Every P)
    (hthunk : thunk.Every P) (hP : AdmitsConts P m.nextId) (hm : m.Every P) :
    Throughout P (Step.Every P) (startEnumeration k address thunk options) m := by
  refine .freshId_bind hm fun n hn hnext => .get_bind ?_
  refine .newCont_bind hn .leave (hP hnext rfl) fun v n' hv hn' _ => .pure hn' ⟨?_, hthunk, hv⟩
  refine ⟨fun x hx => ?_, nofun, hk, hn.store⟩
  rw [Frontier.toList_empty] at hx
  cases hx

theorem Builtin.run_throughout {b : Builtin} (hargs : ValuesEvery P args)
    (hP : Admits P (.call (.builtin b) args) m) (hm : m.Every P) :
    Throughout P (Step.Every P) (b.run args) m := by
  have harg := argument_every hargs
  have hgather (how : Gather) : Throughout P (Step.Every P) (gatherCalls how args) m := by
    refine .lift_bind hm fun (k, a) hcaller => .lift_bind hm fun items hitems => ?_
    refine .pure hm ⟨.gather (callerOf_every hargs hcaller) (harg 2), ?_, ?_⟩
    · exact (every_inherited P).toItems (harg 3) hitems
    · cases how with
      | forEach => exact .undefined
      | _ => exact .array (List.forall_mem_nil _)
  cases b with
  | map | filter | forEach => exact hgather _
  | times =>
    refine .lift_bind hm fun (k, a) hcaller => .lift_bind hm fun x _ => ?_
    dsimp only
    split
    · exact .throw hm _
    · refine .pure hm ⟨.gather (callerOf_every hargs hcaller) (harg 3), fun v hv => ?_,
        .array (List.forall_mem_nil _)⟩
      rw [List.eq_of_mem_replicate hv]
      exact .undefined
  | cache =>
    change Throughout P _ (makeCached args) m
    unfold makeCached
    dsimp only
    split_ifs with hcallable
    · exact .freshId_bind hm fun n hn _ =>
        .pure hn (resume_every (harg 0) (.cached (hP.caches rfl hcallable) (harg 2)))
    · exact .throw hm _
  | sample =>
    refine .lift_bind hm fun (k, a) hcaller => .lift_bind hm fun d hd => ?_
    exact sampleAt_throughout (callerOf_every hargs hcaller)
      ((every_inherited P).toDist (harg 2) hd) hm
  | factor =>
    refine .lift_bind hm fun (k, a) hcaller => .lift_bind hm fun x _ => ?_
    exact factorAt_throughout (callerOf_every hargs hcaller) hm
  | sampleWithFactor =>
    refine .lift_bind hm fun (k, a) hcaller => .lift_bind hm fun d hd => ?_
    exact sampleWithFactorAt_throughout (callerOf_every hargs hcaller)
      ((every_inherited P).toDist (harg 2) hd) (harg 3) hP.conts hm
  | incrementalize =>
    refine .lift_bind hm fun (k, a) hcaller => ?_
    have hcall {items : List Value} (hitems : ValuesEvery P items) :
        (Step.through (.call (argument args 2) (k :: .str a :: items))).Every P :=
      ⟨harg 2, List.forall_mem_cons.2 ⟨callerOf_every hargs hcaller,
        List.forall_mem_cons.2 ⟨.str a, hitems⟩⟩⟩
    dsimp only
    split
    · exact .pure hm (hcall (List.forall_mem_nil _))
    · exact .lift_bind hm fun items hitems =>
        .pure hm (hcall ((every_inherited P).toItems (harg 3) hitems))
  | enumerate =>
    refine .lift_bind hm fun (k, a) hcaller => ?_
    dsimp only
    split
    · exact .lift_bind hm fun options _ =>
        startEnumeration_throughout (callerOf_every hargs hcaller) (harg 2) hP.conts hm
    · exact .throw hm _
  | infer =>
    refine .lift_bind hm fun (k, a) hcaller => .lift_bind hm fun options _ => ?_
    exact startEnumeration_throughout (callerOf_every hargs hcaller) (harg 3) hP.conts hm

/-- What a table of the state keeps. -/
def Policy.Kept (P : Policy) (table : Nat) (key : String) (v : Value) : Prop :=
  v.Every P ∧ P.kept table key v

theorem remember_every {key : String} {v : Value} (hm : m.Every P) (hv : v.Every P)
    (hkept : P.kept table key v) : (m.remember table key v).Every P where
  store := hm.store
  stack := hm.stack
  tables := remember_inherits (Q := P.Kept) hm.tables ⟨hv, hkept⟩

theorem callCached_throughout (hf : f.Every P) (hargs : ValuesEvery P args)
    (hP : Admits P (.call (.cached table f) args) m) (hm : m.Every P) :
    Throughout P (Step.Every P) (callCached table f args) m := by
  refine .get_bind ?_
  split
  · next v hv =>
    exact .pure hm
      (resume_every (argument_every hargs 0) (cached?_inherits (Q := P.Kept) hm.tables hv).1)
  · next hnone =>
    refine .newCont_bind hm (.remember (argument_every hargs 0)) (hP.remembers rfl hnone) ?_
    intro v n hv hn _
    refine .pure hn ⟨hf, List.forall_mem_cons.2 ⟨hv, List.forall_mem_cons.2 ⟨?_, ?_⟩⟩⟩
    · exact argument_every hargs 1
    · exact fun w hw => hargs w (List.mem_of_mem_drop hw)

theorem Loop.collect_throughout {rest : List Value} {item result : Value} (hl : l.Every P)
    (hrest : ValuesEvery P rest) (hacc : acc.Every P) (hitem : item.Every P)
    (hresult : result.Every P) (hm : m.Every P) :
    Throughout P (Step.Every P) (l.collect index rest acc item result) m := by
  have hl' := hl
  cases hl with
  | gather => exact .pure hm ⟨hl', hrest, (every_inherited P).gatherNext _ hacc hitem hresult⟩
  | weigh hk hd hf hstore =>
    refine .lift_bind hm fun extra _ => Engine.live_throughout hm fun e he => .get_bind ?_
    refine .modify_bind rfl
      (.pure (hm.putEngine ⟨?_, he.tally, he.k, he.store⟩) ⟨hl', hrest, .undefined⟩)
    exact Frontier.forall_mem_push he.frontier ⟨hk, hitem, hm.store⟩

theorem Loop.iterate_throughout {items : List Value} (hl : l.Every P)
    (hitems : ValuesEvery P items) (hacc : acc.Every P) (hP : AdmitsConts P m.nextId)
    (hm : m.Every P) : Throughout P (Step.Every P) (l.iterate index items acc) m := by
  have hl' := hl
  cases hl with
  | gather hk hf =>
    cases items with
    | nil => exact .pure hm (resume_every hk hacc)
    | cons item rest =>
      obtain ⟨hitem, hrest⟩ := List.forall_mem_cons.1 hitems
      refine .newCont_bind hm (.collect hl' hrest hacc hitem) (hP le_rfl rfl) fun v n hv hn _ => ?_
      refine .pure hn ⟨hf, List.forall_mem_cons.2 ⟨hv, List.forall_mem_cons.2 ⟨.str _, ?_⟩⟩⟩
      split_ifs
      · exact List.forall_mem_nil _
      · exact List.forall_mem_singleton.2 hitem
  | weigh hk hd hf hstore =>
    cases items with
    | nil => exact Engine.live_throughout hm fun e he => Engine.advance_throughout he hm
    | cons item rest =>
      obtain ⟨hitem, hrest⟩ := List.forall_mem_cons.1 hitems
      refine .modify_bind rfl (.newCont_bind (hm.withStore hstore) (.collect hl' hrest hacc hitem)
        (hP le_rfl rfl) fun v n hv hn _ => .pure hn ⟨hf, ?_⟩)
      exact List.forall_mem_cons.2 ⟨hv, List.forall_mem_cons.2 ⟨.str _,
        List.forall_mem_singleton.2 hitem⟩⟩

theorem Cont.receive_throughout {i : Nat} {c : Cont} (hc : c.Every P) (hargs : ValuesEvery P args)
    (hP : Admits P (.call (.cont i c) args) m) (hm : m.Every P) :
    Throughout P (Step.Every P) (c.receive (argument args 0)) m := by
  have hv := argument_every hargs 0
  cases hc with
  | exit => exact .pure hm hv
  | collect hl hrest hacc hitem => exact Loop.collect_throughout hl hrest hacc hitem hv hm
  | remember hk =>
    exact .modify_bind rfl (.pure (remember_every hm hv (hP.keeps rfl)) (resume_every hk hv))
  | drawn hk hf =>
    refine .newCont_bind hm (.scored hk hv) (hP.conts le_rfl rfl) fun w n hw hn _ =>
      .pure hn ⟨hf, ?_⟩
    exact List.forall_mem_cons.2 ⟨hw, List.forall_mem_cons.2 ⟨.str _,
      List.forall_mem_singleton.2 hv⟩⟩
  | scored hk hvalue =>
    refine .lift_bind hm fun x _ => .newCont_bind hm (.weighted hk hvalue) (hP.conts le_rfl rfl) ?_
    exact fun w n hw hn _ => factorAt_throughout hw hn
  | weighted hk hvalue => exact .pure hm (resume_every hk hvalue)
  | leave => exact Engine.live_throughout hm fun e he => Engine.leave_throughout he hv hm

theorem applyValue_throughout (hf : f.Every P) (hargs : ValuesEvery P args)
    (hP : Admits P (.call f args) m) (hm : m.Every P) :
    Throughout P (Step.Every P) (applyValue f args) m := by
  cases hf with
  | closure henv => exact enterClosure_throughout henv hargs hm
  | builtin b => exact Builtin.run_throughout hargs hP hm
  | cached _ hf => exact callCached_throughout hf hargs hP hm
  | cont _ hc => exact Cont.receive_throughout hc hargs hP hm
  | primitive p =>
    rcases args with _ | ⟨k, _ | ⟨a, rest⟩⟩
    · exact .throw hm _
    · exact .throw hm _
    · obtain ⟨hk, hargs⟩ := List.forall_mem_cons.1 hargs
      obtain ⟨-, hrest⟩ := List.forall_mem_cons.1 hargs
      have hrun := (every_inherited P).likeness.run_inStep p (forall₂_itself.2 ⟨rfl, hrest⟩)
      exact (((every_inherited P).inPlace hrun.inPlace hm.store).throughout hm).bind
        fun v n hv hn _ => .pure hn (resume_every hk hv)
  | _ => exact .throw hm _

/-- A step keeps the property if it holds of what the step makes. -/
theorem Task.perform_every {t : Task} (ht : t.Every P) (hm : m.Every P) (hP : Admits P t m) :
    Throughout P (Step.Every P) t.perform m := by
  cases t with
  | call f args => exact applyValue_throughout ht.1 ht.2 hP hm
  | turn => exact .pure hm ht
  | iterate => exact Loop.iterate_throughout ht.1 ht.2.1 ht.2.2 hP.conts hm
  | enter e thunk exit =>
    obtain ⟨he, hthunk, hexit⟩ := ht
    refine .modify_bind rfl (.pure ⟨hm.store, fun f hf => ?_, hm.tables⟩ ⟨hthunk, ?_⟩)
    · rcases List.mem_cons.1 hf with hf | hf
      · cases hf
        exact he
      · exact hm.stack f hf
    · exact List.forall_mem_cons.2 ⟨hexit, List.forall_mem_singleton.2 (.str _)⟩

theorem globalEnv_every (P : Policy) : EnvEvery P globalEnv :=
  forall_globalEnv .num .primitive .builtin .object

theorem Program.start_every (p : Program) (hP : AdmitsConts P m.nextId) (hm : m.Every P) :
    Throughout P (Step.Every P) (Exec.newCont .exit >>= p.start) m := by
  refine .newCont_bind hm .exit (hP le_rfl rfl) fun k n hk hn _ => ?_
  unfold Program.start
  split
  · refine .freshId_bind hn fun n' hn' _ => enterClosure_throughout (globalEnv_every P) ?_ hn'
    exact List.forall_mem_cons.2 ⟨hk, List.forall_mem_singleton.2 (.str "")⟩
  · exact .throw hn _

end Steps

end Chance
