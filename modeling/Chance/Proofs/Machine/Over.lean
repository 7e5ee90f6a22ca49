import Chance.Proofs.Machine.Steps

/-!
# What a state is made of

A state is over a scope if every function of the program that can be reached in it, from the store,
from scopes, from continuations, from enumerations and from tables, is one that the scope allows,
and every identity is one that the scope knows. Being over a scope is the same as being beside
itself (`Value.Over.alike`, `Value.Alike.over`), so that what is known about two runs side by side
gives an invariant of one run.

- `Value.Over`, `Machine.Over`, `Task.Over`: what is over a scope,
- `Setting.whole`: one run beside itself,
- `StaysOver`: computations that keep a state over its scope.
-/

namespace Chance

/-! ## What a state is made of -/

/-- Which functions of the program, and which identities, can occur. -/
structure Scope where
  code : Code
  known : Nat → Prop

/-- The values that a distribution consists of. -/
def Dist.values : Dist → List Value
  | .categorical _ vs => vs
  | .delta v => [v]
  | .marginal entries => entries.map fun e => e.2.1
  | _ => []

mutual

/-- Values made of what the scope allows. -/
inductive Value.Over (s : Scope) : Value → Prop
  | undefined : Value.Over s .undefined
  | null : Value.Over s .null
  | bool (b : Bool) : Value.Over s (.bool b)
  | num (x : Float) : Value.Over s (.num x)
  | str (t : String) : Value.Over s (.str t)
  | array {vs : List Value} : (∀ v ∈ vs, Value.Over s v) → Value.Over s (.array vs)
  | object {fs : List (String × Value)} :
      (∀ f ∈ fs, Value.Over s f.2) → Value.Over s (.object fs)
  | closure {i : Nat} {name : Option String} {params : List String} {body : List Stmt} {env : Env} :
      s.known i → s.code name params body → (∀ frame ∈ env, ∀ b ∈ frame, Value.Over s b.2) →
      Value.Over s (.closure i name params body env)
  | primitive (p : Primitive) : Value.Over s (.primitive p)
  | builtin (b : Builtin) : Value.Over s (.builtin b)
  | cached {i : Nat} {f : Value} : s.known i → Value.Over s f → Value.Over s (.cached i f)
  | cont {i : Nat} {c : Cont} : s.known i → Cont.Over s c → Value.Over s (.cont i c)
  | dist {i : Nat} {d : Dist} :
      s.known i → (∀ v ∈ d.values, Value.Over s v) → Value.Over s (.dist i d)

inductive Cont.Over (s : Scope) : Cont → Prop
  | exit : Cont.Over s .exit
  | collect {l : Loop} {index : Nat} {rest : List Value} {acc item : Value} :
      Loop.Over s l → (∀ v ∈ rest, Value.Over s v) → Value.Over s acc →
      Value.Over s item → Cont.Over s (.collect l index rest acc item)
  | remember {i : Nat} {key : String} {k : Value} :
      s.known i → Value.Over s k → Cont.Over s (.remember i key k)
  | drawn {k f : Value} {address : String} :
      Value.Over s k → Value.Over s f → Cont.Over s (.drawn k address f)
  | scored {k v : Value} {address : String} :
      Value.Over s k → Value.Over s v → Cont.Over s (.scored k address v)
  | weighted {k v : Value} :
      Value.Over s k → Value.Over s v → Cont.Over s (.weighted k v)
  | leave {i : Nat} : s.known i → Cont.Over s (.leave i)

inductive Loop.Over (s : Scope) : Loop → Prop
  | gather {how : Gather} {k f : Value} {address : String} :
      Value.Over s k → Value.Over s f → Loop.Over s (.gather how k address f)
  | weigh {i : Nat} {k f : Value} {address : String} {d : Dist} {store : Store} {base : Float} :
      s.known i → Value.Over s k → (∀ v ∈ d.values, Value.Over s v) → Value.Over s f →
      (∀ f ∈ store, Value.Over s f.2) → Loop.Over s (.weigh i k address d f store base)

end

/-- Stores, and other fields, whose values are over the scope. -/
def StoreOver (s : Scope) (store : Store) : Prop :=
  ∀ f ∈ store, f.2.Over s

structure Engine.Over (s : Scope) (e : Engine) : Prop where
  id : s.known e.id
  frontier : ∀ x ∈ e.frontier.toList,
    x.k.Over s ∧ x.value.Over s ∧ StoreOver s x.store
  tally : ∀ x ∈ e.tally.entries, x.value.Over s
  k : e.k.Over s
  store : StoreOver s e.store

/-- States of the machine over the scope, whatever coroutines are installed. -/
structure Machine.Over (s : Scope) (m : Machine) : Prop where
  store : StoreOver s m.store
  stack : ∀ e, .engine e ∈ m.stack → e.Over s
  tables : ∀ t ∈ m.tables, s.known t.1 ∧ StoreOver s t.2

def Task.Over (s : Scope) : Task → Prop
  | .call f args => f.Over s ∧ ∀ v ∈ args, v.Over s
  | .turn l _ rest acc | .iterate l _ rest acc =>
    l.Over s ∧ (∀ v ∈ rest, v.Over s) ∧ acc.Over s
  | .enter e thunk exit => e.Over s ∧ thunk.Over s ∧ exit.Over s

theorem Machine.initial_over (s : Scope) (supply : Supply) :
    (Machine.initial supply).Over s where
  store := nofun
  stack := nofun
  tables := nofun

/-! ## A state beside itself -/

/-- The pairing of every known identity with itself. Either the known ones have all been given out,
or nothing is known about them. -/
def Pairing.same (known : Nat → Prop) (next : Nat) (h : (∀ i, known i → i < next) ∨ ∀ i, known i) :
    Pairing where
  ids i j := i = j ∧ known i
  left := next
  right := next
  unique := by
    rintro i _ j _ ⟨rfl, _⟩ ⟨rfl, _⟩
    rfl
  room := by
    rcases h with h | h
    · left
      rintro i _ ⟨rfl, hi⟩
      exact ⟨h i hi, h i hi⟩
    · right
      exact ⟨rfl, fun {i j} => and_iff_left (h i)⟩

theorem distLike_same {R : Value → Value → Prop} {d : Dist} (h : ∀ v ∈ d.values, R v v) :
    DistLike R d d := by
  cases d with
  | bernoulli p => exact .bernoulli p
  | randomInteger n => exact .randomInteger n
  | categorical ps vs => exact .categorical ps (List.forall₂_same.2 h)
  | discrete ps => exact .discrete ps
  | binomial p n => exact .binomial p n
  | delta v => exact .delta (h v (List.mem_singleton_self v))
  | uniform a b => exact .uniform a b
  | gaussian mu sigma => exact .gaussian mu sigma
  | marginal entries =>
    refine .marginal (List.forall₂_same.2 fun e he => ⟨h _ ?_⟩)
    exact List.mem_map_of_mem he

section Diagonal

variable {s : Scope} {π : Pairing}

mutual

theorem Value.Over.alike (hπ : ∀ {i}, s.known i → π.ids i i) :
    ∀ {v : Value}, v.Over s → v.Alike s.code π v
  | _, .undefined => .undefined
  | _, .null => .null
  | _, .bool b => .bool b
  | _, .num x => .num x
  | _, .str s => .str s
  | _, .array h => .array (List.forall₂_same.2 fun v hv => (h v hv).alike hπ)
  | _, .object h => .object (List.forall₂_same.2 fun f hf => ⟨(h f hf).alike hπ⟩)
  | _, .closure hi hcode h =>
    .closure (hπ hi) hcode (List.forall₂_same.2 fun frame hframe =>
      List.forall₂_same.2 fun b hb => ⟨(h frame hframe b hb).alike hπ⟩)
  | _, .primitive p => .primitive p
  | _, .builtin b => .builtin b
  | _, .cached hi h => .cached (hπ hi) (h.alike hπ)
  | _, .cont hi h => .cont (hπ hi) (h.alike hπ)
  | _, .dist hi h => .dist (hπ hi) (distLike_same fun v hv => (h v hv).alike hπ)
termination_by structural _ h => h

theorem Cont.Over.alike (hπ : ∀ {i}, s.known i → π.ids i i) :
    ∀ {c : Cont}, c.Over s → c.Alike s.code π c
  | _, .exit => .exit
  | _, .collect hl hrest hacc hitem =>
    .collect _ (hl.alike hπ) (List.forall₂_same.2 fun v hv => (hrest v hv).alike hπ)
      (hacc.alike hπ) (hitem.alike hπ)
  | _, .remember hi hk => .remember _ (hπ hi) (hk.alike hπ)
  | _, .drawn hk hf => .drawn _ (hk.alike hπ) (hf.alike hπ)
  | _, .scored hk hv => .scored _ (hk.alike hπ) (hv.alike hπ)
  | _, .weighted hk hv => .weighted (hk.alike hπ) (hv.alike hπ)
  | _, .leave hi => .leave (hπ hi)
termination_by structural _ h => h

theorem Loop.Over.alike (hπ : ∀ {i}, s.known i → π.ids i i) :
    ∀ {l : Loop}, l.Over s → l.Alike s.code π l
  | _, .gather hk hf => .gather _ _ (hk.alike hπ) (hf.alike hπ)
  | _, .weigh hi hk hd hf hstore =>
    .weigh _ _ (hπ hi) (hk.alike hπ) (distLike_same fun v hv => (hd v hv).alike hπ) (hf.alike hπ)
      (List.forall₂_same.2 fun f hf => ⟨(hstore f hf).alike hπ⟩)
termination_by structural _ h => h

end

end Diagonal

section Left

variable {s : Scope} {π : Pairing}

mutual

/-- What is like something can occur itself. -/
theorem Value.Alike.over (hπ : ∀ {i j}, π.ids i j → s.known i) :
    ∀ {v w : Value}, v.Alike s.code π w → v.Over s
  | .undefined, _, _ => .undefined
  | .null, _, _ => .null
  | .bool b, _, _ => .bool b
  | .num x, _, _ => .num x
  | .str s, _, _ => .str s
  | .primitive p, _, _ => .primitive p
  | .builtin b, _, _ => .builtin b
  | .array _, _, h => by
    cases h with
    | array hs => exact .array (valuesAlike_over hπ hs)
  | .object _, _, h => by
    cases h with
    | object hs => exact .object (fieldsAlike_over hπ hs)
  | .closure _ _ _ _ _, _, h => by
    cases h with
    | closure hi hc he => exact .closure (hπ hi) hc (framesAlike_over hπ he)
  | .cached _ _, _, h => by
    cases h with
    | cached hi hf => exact .cached (hπ hi) (hf.over hπ)
  | .cont _ _, _, h => by
    cases h with
    | cont hi hc => exact .cont (hπ hi) (hc.over hπ)
  | .dist _ _, _, h => by
    cases h with
    | dist hi hd => exact .dist (hπ hi) (distAlike_over hπ hd)
termination_by structural v => v

theorem valuesAlike_over (hπ : ∀ {i j}, π.ids i j → s.known i) :
    ∀ {vs ws : List Value}, List.Forall₂ (Value.Alike s.code π) vs ws → ∀ v ∈ vs, v.Over s
  | [], _, _ => nofun
  | _ :: _, _, h => by
    cases h with
    | cons hv hs => exact List.forall_mem_cons.2 ⟨(hv.over hπ), valuesAlike_over hπ hs⟩
termination_by structural vs => vs

theorem fieldsAlike_over (hπ : ∀ {i j}, π.ids i j → s.known i) :
    ∀ {fs gs : List (String × Value)}, List.Forall₂ (FieldLike (Value.Alike s.code π)) fs gs →
      ∀ f ∈ fs, f.2.Over s
  | [], _, _ => nofun
  | (_, _) :: _, _, h => by
    cases h with
    | cons hf hs =>
      obtain ⟨hv⟩ := hf
      exact List.forall_mem_cons.2 ⟨(hv.over hπ), fieldsAlike_over hπ hs⟩
termination_by structural fs => fs

theorem framesAlike_over (hπ : ∀ {i j}, π.ids i j → s.known i) :
    ∀ {env env' : List (List (String × Value))},
      List.Forall₂ (List.Forall₂ (FieldLike (Value.Alike s.code π))) env env' →
      ∀ frame ∈ env, ∀ b ∈ frame, b.2.Over s
  | [], _, _ => nofun
  | _ :: _, _, h => by
    cases h with
    | cons hf hs => exact List.forall_mem_cons.2 ⟨fieldsAlike_over hπ hf, framesAlike_over hπ hs⟩
termination_by structural env => env

theorem sharesAlike_over (hπ : ∀ {i j}, π.ids i j → s.known i) :
    ∀ {es fs : List (String × Value × Float)},
      List.Forall₂ (ShareLike (Value.Alike s.code π)) es fs → ∀ e ∈ es, e.2.1.Over s
  | [], _, _ => nofun
  | (_, _, _) :: _, _, h => by
    cases h with
    | cons hf hs =>
      obtain ⟨hv⟩ := hf
      exact List.forall_mem_cons.2 ⟨(hv.over hπ), sharesAlike_over hπ hs⟩
termination_by structural es => es

theorem distAlike_over (hπ : ∀ {i j}, π.ids i j → s.known i) :
    ∀ {d e : Dist}, DistLike (Value.Alike s.code π) d e → ∀ v ∈ d.values, v.Over s
  | .categorical _ _, _, h => by
    cases h with
    | categorical _ hs => exact valuesAlike_over hπ hs
  | .delta _, _, h => by
    cases h with
    | delta hv => exact List.forall_mem_singleton.2 (hv.over hπ)
  | .marginal _, _, h => by
    cases h with
    | marginal hs => exact List.forall_mem_map.2 (sharesAlike_over hπ hs)
  | .bernoulli _, _, _ | .randomInteger _, _, _ | .discrete _, _, _ | .binomial _ _, _, _
  | .uniform _ _, _, _ | .gaussian _ _, _, _ => nofun
termination_by structural d => d

theorem Cont.Alike.over (hπ : ∀ {i j}, π.ids i j → s.known i) :
    ∀ {c d : Cont}, c.Alike s.code π d → c.Over s
  | .exit, _, _ => .exit
  | .collect _ _ _ _ _, _, h => by
    cases h with
    | collect _ hl hr ha hi =>
      exact .collect (hl.over hπ) (valuesAlike_over hπ hr) (ha.over hπ) (hi.over hπ)
  | .remember _ _ _, _, h => by
    cases h with
    | remember _ hi hk => exact .remember (hπ hi) (hk.over hπ)
  | .drawn _ _ _, _, h => by
    cases h with
    | drawn _ hk hf => exact .drawn (hk.over hπ) (hf.over hπ)
  | .scored _ _ _, _, h => by
    cases h with
    | scored _ hk hv => exact .scored (hk.over hπ) (hv.over hπ)
  | .weighted _ _, _, h => by
    cases h with
    | weighted hk hv => exact .weighted (hk.over hπ) (hv.over hπ)
  | .leave _, _, h => by
    cases h with
    | leave hi => exact .leave (hπ hi)
termination_by structural c => c

theorem Loop.Alike.over (hπ : ∀ {i j}, π.ids i j → s.known i) :
    ∀ {l l' : Loop}, l.Alike s.code π l' → l.Over s
  | .gather _ _ _ _, _, h => by
    cases h with
    | gather _ _ hk hf => exact .gather (hk.over hπ) (hf.over hπ)
  | .weigh _ _ _ _ _ _ _, _, h => by
    cases h with
    | weigh _ _ hi hk hd hf hs =>
      exact .weigh (hπ hi) (hk.over hπ) (distAlike_over hπ hd) (hf.over hπ) (fieldsAlike_over hπ hs)
termination_by structural l => l

end

end Left

/-! ## States beside themselves -/

/-- One run beside itself, so that everything is shared. -/
def Setting.whole (code : Code) (strict : Prop)
    (sound : ∀ {name params body}, code name params body → BodyWithin code strict body) :
    Setting where
  toFooting := .even
  code := code
  strict := strict
  sound := sound

theorem forall_of_forall₂ {α β : Type} {R : α → β → Prop} {P : α → Prop} {xs : List α} {ys : List β}
    (h : List.Forall₂ R xs ys) (hP : ∀ x y, R x y → P x) : ∀ x ∈ xs, P x := by
  induction h with
  | nil => exact nofun
  | cons hxy _ ih => exact List.forall_mem_cons.2 ⟨hP _ _ hxy, ih⟩

section Whole

variable {s : Scope} {strict : Prop} {π : Pairing} {m n : Machine}
  {sound : ∀ {name params body}, s.code name params body → BodyWithin s.code strict body}

theorem StoreOver.alike {store : Store} (hπ : ∀ {i}, s.known i → π.ids i i)
    (h : StoreOver s store) :
    List.Forall₂ (FieldLike (Value.Alike s.code π)) store store :=
  List.forall₂_same.2 fun f hf => ⟨(h f hf).alike hπ⟩

theorem Engine.Over.alike {e : Engine} (hπ : ∀ {i}, s.known i → π.ids i i) (h : e.Over s) :
    e.Alike (.whole s.code strict sound) π e where
  id := hπ h.id
  floor := Nat.zero_le _
  floor' := Nat.zero_le _
  score := rfl
  frontier := .same fun x hx =>
    have ⟨hk, hvalue, hstore⟩ := h.frontier x hx
    ⟨hk.alike hπ, hvalue.alike hπ, rfl, hstore.alike hπ⟩
  tally := List.forall₂_same.2 fun x hx => ⟨rfl, (h.tally x hx).alike hπ, rfl, rfl⟩
  completed := rfl
  done := rfl
  limit := rfl
  k := h.k.alike hπ
  address := rfl
  store := h.store.alike hπ

theorem Engine.Alike.over {e f : Engine} (hπ : ∀ {i j}, π.ids i j → s.known i)
    (h : e.Alike (.whole s.code strict sound) π f) : e.Over s where
  id := hπ h.id
  frontier := forall_of_forall₂ h.frontier.toList fun _ _ hxy =>
    ⟨hxy.k.over hπ, hxy.value.over hπ, fieldsAlike_over hπ hxy.store⟩
  tally := forall_of_forall₂ h.tally fun _ _ hxy => hxy.value.over hπ
  k := h.k.over hπ
  store := fieldsAlike_over hπ h.store

theorem Machine.Over.alike (hπ : ∀ {i}, s.known i → π.ids i i) (hl : m.nextId = π.left)
    (hr : m.nextId = π.right) (h : m.Over s) : m.Alike (.whole s.code strict sound) π m where
  store := h.store.alike hπ
  output _ := rfl
  counters := ⟨hl, hr⟩
  floor := Nat.zero_le _
  floor' := Nat.zero_le _
  stack := by
    refine ⟨m.stack, m.stack, (List.append_nil _).symm, (List.append_nil _).symm, ?_⟩
    refine List.forall₂_same.2 fun c hc => ?_
    cases c with
    | engine e => exact .engine ((h.stack e hc).alike hπ)
    | script i => exact .script i trivial
  tables := fun _ => List.forall₂_same.2 fun t ht =>
    ⟨hπ (h.tables t ht).1, StoreOver.alike hπ (h.tables t ht).2⟩
  scripts := fun _ => List.forall₂_same.2 fun _ _ => ⟨rfl, rfl⟩
  supply := fun _ => rfl

theorem Machine.Alike.over (hπ : ∀ {i j}, π.ids i j → s.known i)
    (h : m.Alike (.whole s.code strict sound) π n) : m.Over s where
  store := fieldsAlike_over hπ h.store
  stack := by
    obtain ⟨cs, ds, hcs, -, hs⟩ := h.stack
    have hover : ∀ c ∈ cs, ∀ e, c = .engine e → e.Over s := by
      refine forall_of_forall₂ hs ?_
      rintro c d hcd e rfl
      cases hcd with
      | engine hef => exact Engine.Alike.over hπ hef
    intro e he
    rw [hcs.trans (List.append_nil _)] at he
    exact hover _ he e rfl
  tables := forall_of_forall₂ (h.tables trivial) fun _ _ htu => by
    obtain ⟨hi, hs⟩ := htu
    exact ⟨hπ hi, fieldsAlike_over hπ hs⟩

theorem Task.Over.alike {t : Task} (hπ : ∀ {i}, s.known i → π.ids i i) (h : t.Over s) :
    t.Alike (.whole s.code strict sound) π t := by
  have hvalues {vs : List Value} (hvs : ∀ v ∈ vs, v.Over s) :
      List.Forall₂ (Value.Alike s.code π) vs vs :=
    List.forall₂_same.2 fun v hv => (hvs v hv).alike hπ
  cases t with
  | call f args => exact .call (h.1.alike hπ) (hvalues h.2)
  | turn l i rest acc => exact .turn i (h.1.alike hπ) (hvalues h.2.1) (h.2.2.alike hπ)
  | iterate l i rest acc => exact .iterate i (h.1.alike hπ) (hvalues h.2.1) (h.2.2.alike hπ)
  | enter e thunk exit => exact .enter (h.1.alike hπ) (h.2.1.alike hπ) (h.2.2.alike hπ)

theorem Task.Alike.over {t u : Task} (hπ : ∀ {i j}, π.ids i j → s.known i)
    (h : t.Alike (.whole s.code strict sound) π u) : t.Over s := by
  cases h with
  | call hf hs => exact ⟨hf.over hπ, valuesAlike_over hπ hs⟩
  | turn _ hl hs hacc => exact ⟨hl.over hπ, valuesAlike_over hπ hs, hacc.over hπ⟩
  | iterate _ hl hs hacc => exact ⟨hl.over hπ, valuesAlike_over hπ hs, hacc.over hπ⟩
  | enter he hthunk hexit => exact ⟨he.over hπ, hthunk.over hπ, hexit.over hπ⟩

end Whole

/-! ## Computations that stay over a scope -/

/-- The task that a step hands over to. -/
def Step.task? : Step → Option Task
  | .bounce t | .through t => some t
  | .done _ => none

/-- The computation keeps the state over its scope, which may grow with the next identity, and so
does its failure; under the strict reading it does not fail for the form of the code. -/
structure StaysOver (code : Code) (known : Nat → Nat → Prop) (strict : Prop) (x : Exec Step)
    (m : Machine) : Prop where
  next : ∀ {a m'}, x m = .ok a m' →
    m'.Over ⟨code, known m'.nextId⟩ ∧ ∀ t ∈ a.task?, t.Over ⟨code, known m'.nextId⟩
  error : ∀ {e m'}, x m = .error e m' →
    (strict → e.isMalformed = false) ∧ m'.Over ⟨code, known m'.nextId⟩

/-- The pairing pairs what is known with itself, and what it grows to is known. -/
structure Pairing.Fits (known : Nat → Nat → Prop) (next : Nat) (π : Pairing) : Prop where
  same : ∀ {i}, known next i → π.ids i i
  left : next = π.left
  right : next = π.right
  grows : ∀ {ρ i j}, π ≤ ρ → ρ.ids i j → known ρ.left i

section StaysOver

variable {code : Code} {known : Nat → Nat → Prop} {strict : Prop} {m : Machine} {π : Pairing}

theorem StaysOver.of_beside
    {sound : ∀ {name params body}, code name params body → BodyWithin code strict body}
    {x : Exec Step} (hπ : π.Fits known m.nextId)
    (h : Beside (.whole code strict sound) π (Step.Alike (.whole code strict sound)) x x m m) :
    StaysOver code known strict x m := by
  unfold Beside at h
  constructor
  · intro a m' hx
    rw [hx] at h
    obtain ⟨ρ, hρ, a', n', -, ha, hm⟩ := h
    have hi {i j : Nat} (hij : ρ.ids i j) : known m'.nextId i := hm.left ▸ hπ.grows hρ hij
    refine ⟨hm.over hi, ?_⟩
    rintro t ht
    cases ha with
    | bounce htu =>
      cases ht
      exact htu.over hi
    | through htu =>
      cases ht
      exact htu.over hi
    | done => cases ht
  · intro e m' hx
    rw [hx] at h
    obtain ⟨he, ρ, hρ, n', hm⟩ := h
    have hi {i j : Nat} (hij : ρ.ids i j) : known m'.nextId i := hm.left ▸ hπ.grows hρ hij
    exact ⟨he, hm.over hi⟩

theorem Task.perform_staysOver {t : Task}
    (sound : ∀ {name params body}, code name params body → BodyWithin code strict body)
    (hπ : π.Fits known m.nextId) (ht : t.Over ⟨code, known m.nextId⟩)
    (hm : m.Over ⟨code, known m.nextId⟩) : StaysOver code known strict t.perform m := by
  have hbeside := Task.perform_beside (σ := .whole code strict sound) (ht.alike hπ.same)
    (hm.alike hπ.same hπ.left hπ.right)
    ⟨.inl trivial, fun _ => .inl trivial, fun _ _ => Nat.zero_le _⟩
  exact .of_beside hπ hbeside

theorem globalEnv_over (s : Scope) : ∀ frame ∈ globalEnv, ∀ b ∈ frame, b.2.Over s :=
  forall_globalEnv .num .primitive .builtin .object

theorem Program.start_staysOver {p : Program} {k : Value} {name : Option String}
    {params : List String} {body : List Stmt}
    (sound : ∀ {name params body}, code name params body → BodyWithin code strict body)
    (hbody : p.body = [.expr (.func name params body)]) (hcode : code name params body)
    (hπ : π.Fits known m.nextId) (hk : k.Over ⟨code, known m.nextId⟩)
    (hm : m.Over ⟨code, known m.nextId⟩) : StaysOver code known strict (p.start k) m := by
  have hm' : m.Alike (.whole code strict sound) π m := hm.alike hπ.same hπ.left hπ.right
  have henv : EnvAlike (.whole code strict sound) π.extend globalEnv globalEnv :=
    List.forall₂_same.2 fun frame hframe => List.forall₂_same.2 fun b hb =>
      ⟨((globalEnv_over ⟨code, known m.nextId⟩ frame hframe b hb).alike hπ.same).mono π.le_extend⟩
  unfold Program.start
  rw [hbody]
  refine .of_beside hπ (.freshId_bind hm' ?_)
  intro i j m' n' hids _ _ hm'
  have hk' := (hk.alike hπ.same).mono π.le_extend
  exact enterClosure_beside hids hcode henv (.cons hk' (.cons (.str "") .nil)) hm'

end StaysOver

end Chance
