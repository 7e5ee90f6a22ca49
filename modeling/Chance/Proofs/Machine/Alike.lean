import Chance.Proofs.Likeness.Forms
import Chance.Proofs.Likeness.Simulation
import Chance.Proofs.Syntax.Proper

/-!
# Two runs side by side

Two runs of the machine may differ in the identities that they give to functions, continuations and
distributions. A `Pairing` says which identities correspond. On top of it values, engines, tasks and
whole states are alike if they are equal up to corresponding identities.

The runs need not agree below the coroutines that both installed: a `Setting` says what lies below,
whether tables, scripts and random words are shared, and which functions can occur.

- `Pairing.extend`: room for two new identities,
- `Value.Alike`, `Machine.Alike`, `Task.Alike`: likeness up to a pairing,
- `alike_likeness`: likeness goes layer by layer, so primitives respect it.
-/

namespace Chance

/-! ## Pairings -/

/-- Which identities of one run correspond to which of another. Either all paired identities have
been given out, or the two runs give out the same ones. -/
structure Pairing where
  ids : Nat → Nat → Prop
  /-- The next identity of the first run. -/
  left : Nat
  /-- The next identity of the second run. -/
  right : Nat
  unique : ∀ {i j i' j' : Nat}, ids i j → ids i' j' → (i = i' ↔ j = j')
  room : (∀ {i j : Nat}, ids i j → i < left ∧ j < right) ∨
    left = right ∧ ∀ {i j : Nat}, ids i j ↔ i = j

namespace Pairing

/-- All paired identities have been given out. -/
def Bounded (π : Pairing) : Prop :=
  ∀ {i j : Nat}, π.ids i j → i < π.left ∧ j < π.right

/-- The second pairing is one that the first can grow to. -/
structure Le (π ρ : Pairing) : Prop where
  ids : ∀ {i j : Nat}, π.ids i j → ρ.ids i j
  bounded : π.Bounded → ρ.Bounded
  left : π.left ≤ ρ.left
  right : π.right ≤ ρ.right

instance : LE Pairing := ⟨Le⟩

theorem le_refl (π : Pairing) : π ≤ π := ⟨id, id, Nat.le_refl _, Nat.le_refl _⟩

theorem le_trans {π ρ τ : Pairing} (h : π ≤ ρ) (h' : ρ ≤ τ) : π ≤ τ where
  ids := fun hij => h'.ids (h.ids hij)
  bounded := fun hb => h'.bounded (h.bounded hb)
  left := Nat.le_trans h.left h'.left
  right := Nat.le_trans h.right h'.right

/-- The pairing after both runs gave out an identity, which correspond. -/
def extend (π : Pairing) : Pairing where
  ids i j := π.ids i j ∨ i = π.left ∧ j = π.right
  left := π.left + 1
  right := π.right + 1
  unique := by
    intro i j i' j' h h'
    rcases π.room with hb | ⟨hlr, heq⟩
    · rcases h with h | ⟨rfl, rfl⟩
      · rcases h' with h' | ⟨rfl, rfl⟩
        · exact π.unique h h'
        · have := hb h
          omega
      · rcases h' with h' | ⟨rfl, rfl⟩
        · have := hb h'
          omega
        · exact iff_of_true rfl rfl
    · have same {a b : Nat} (hab : π.ids a b ∨ a = π.left ∧ b = π.right) : a = b := by
        rcases hab with hab | ⟨rfl, rfl⟩
        · exact heq.1 hab
        · exact hlr
      rw [same h, same h']
  room := by
    rcases π.room with hb | ⟨hlr, heq⟩
    · left
      rintro i j (h | ⟨rfl, rfl⟩)
      · have := hb h
        omega
      · omega
    · right
      refine ⟨by omega, ?_⟩
      intro i j
      rw [heq, or_iff_left_iff_imp]
      rintro ⟨rfl, rfl⟩
      exact hlr

theorem le_extend (π : Pairing) : π ≤ π.extend where
  ids := .inl
  bounded := by
    rintro hb i j (h | ⟨rfl, rfl⟩)
    · have := hb h
      exact ⟨Nat.lt_succ_of_lt this.1, Nat.lt_succ_of_lt this.2⟩
    · exact ⟨Nat.lt_succ_self _, Nat.lt_succ_self _⟩
  left := Nat.le_succ _
  right := Nat.le_succ _

theorem extend_ids (π : Pairing) : π.extend.ids π.left π.right := .inr ⟨rfl, rfl⟩

end Pairing

/-! ## Values -/

/-- Which functions of the program can occur. -/
abbrev Code := Option String → List String → List Stmt → Prop

mutual

/-- Values that are equal up to paired identities. -/
inductive Value.Alike (code : Code) (π : Pairing) : Value → Value → Prop
  | undefined : Value.Alike code π .undefined .undefined
  | null : Value.Alike code π .null .null
  | bool (b : Bool) : Value.Alike code π (.bool b) (.bool b)
  | num (x : Float) : Value.Alike code π (.num x) (.num x)
  | str (s : String) : Value.Alike code π (.str s) (.str s)
  | array {vs ws : List Value} :
      List.Forall₂ (Value.Alike code π) vs ws → Value.Alike code π (.array vs) (.array ws)
  | object {fs gs : List (String × Value)} :
      List.Forall₂ (FieldLike (Value.Alike code π)) fs gs →
      Value.Alike code π (.object fs) (.object gs)
  | closure {i j : Nat} {name : Option String} {params : List String} {body : List Stmt}
      {env env' : List (List (String × Value))} :
      π.ids i j → code name params body →
      List.Forall₂ (List.Forall₂ (FieldLike (Value.Alike code π))) env env' →
      Value.Alike code π (.closure i name params body env) (.closure j name params body env')
  | primitive (p : Primitive) : Value.Alike code π (.primitive p) (.primitive p)
  | builtin (b : Builtin) : Value.Alike code π (.builtin b) (.builtin b)
  | cached {i j : Nat} {f g : Value} :
      π.ids i j → Value.Alike code π f g → Value.Alike code π (.cached i f) (.cached j g)
  | cont {i j : Nat} {c d : Cont} :
      π.ids i j → Cont.Alike code π c d → Value.Alike code π (.cont i c) (.cont j d)
  | dist {i j : Nat} {d e : Dist} :
      π.ids i j → DistLike (Value.Alike code π) d e → Value.Alike code π (.dist i d) (.dist j e)

inductive Cont.Alike (code : Code) (π : Pairing) : Cont → Cont → Prop
  | exit : Cont.Alike code π .exit .exit
  | collect {l l' : Loop} {rest rest' : List Value} {acc acc' item item' : Value} (index : Nat) :
      Loop.Alike code π l l' → List.Forall₂ (Value.Alike code π) rest rest' →
      Value.Alike code π acc acc' → Value.Alike code π item item' →
      Cont.Alike code π (.collect l index rest acc item) (.collect l' index rest' acc' item')
  | remember {i j : Nat} {k k' : Value} (key : String) :
      π.ids i j → Value.Alike code π k k' →
      Cont.Alike code π (.remember i key k) (.remember j key k')
  | drawn {k k' f f' : Value} (address : String) :
      Value.Alike code π k k' → Value.Alike code π f f' →
      Cont.Alike code π (.drawn k address f) (.drawn k' address f')
  | scored {k k' v v' : Value} (address : String) :
      Value.Alike code π k k' → Value.Alike code π v v' →
      Cont.Alike code π (.scored k address v) (.scored k' address v')
  | weighted {k k' v v' : Value} :
      Value.Alike code π k k' → Value.Alike code π v v' →
      Cont.Alike code π (.weighted k v) (.weighted k' v')
  | leave {i j : Nat} : π.ids i j → Cont.Alike code π (.leave i) (.leave j)

inductive Loop.Alike (code : Code) (π : Pairing) : Loop → Loop → Prop
  | gather {k k' f f' : Value} (how : Gather) (address : String) :
      Value.Alike code π k k' → Value.Alike code π f f' →
      Loop.Alike code π (.gather how k address f) (.gather how k' address f')
  | weigh {i j : Nat} {k k' f f' : Value} {d e : Dist} {store store' : List (String × Value)}
      (address : String) (base : Float) :
      π.ids i j → Value.Alike code π k k' → DistLike (Value.Alike code π) d e →
      Value.Alike code π f f' → List.Forall₂ (FieldLike (Value.Alike code π)) store store' →
      Loop.Alike code π (.weigh i k address d f store base) (.weigh j k' address e f' store' base)

end

section Mono

variable {code : Code} {π ρ : Pairing}

mutual

theorem Value.Alike.mono (hπ : π ≤ ρ) :
    ∀ {v w : Value}, v.Alike code π w → v.Alike code ρ w
  | .undefined, _, h => by cases h; exact .undefined
  | .null, _, h => by cases h; exact .null
  | .bool _, _, h => by cases h; exact .bool _
  | .num _, _, h => by cases h; exact .num _
  | .str _, _, h => by cases h; exact .str _
  | .primitive _, _, h => by cases h; exact .primitive _
  | .builtin _, _, h => by cases h; exact .builtin _
  | .array _, _, h => by
    cases h with
    | array hs => exact .array (valuesAlike_mono hπ hs)
  | .object _, _, h => by
    cases h with
    | object hs => exact .object (fieldsAlike_mono hπ hs)
  | .closure _ _ _ _ _, _, h => by
    cases h with
    | closure hi hc he => exact .closure (hπ.ids hi) hc (framesAlike_mono hπ he)
  | .cached _ _, _, h => by
    cases h with
    | cached hi hf => exact .cached (hπ.ids hi) (hf.mono hπ)
  | .cont _ _, _, h => by
    cases h with
    | cont hi hc => exact .cont (hπ.ids hi) (hc.mono hπ)
  | .dist _ _, _, h => by
    cases h with
    | dist hi hd => exact .dist (hπ.ids hi) (distAlike_mono hπ hd)
termination_by structural v => v

theorem valuesAlike_mono (hπ : π ≤ ρ) :
    ∀ {vs ws : List Value}, List.Forall₂ (Value.Alike code π) vs ws →
      List.Forall₂ (Value.Alike code ρ) vs ws
  | [], _, h => by cases h; exact .nil
  | _ :: _, _, h => by
    cases h with
    | cons hv hs => exact .cons (hv.mono hπ) (valuesAlike_mono hπ hs)
termination_by structural vs => vs

theorem fieldsAlike_mono (hπ : π ≤ ρ) :
    ∀ {fs gs : List (String × Value)}, List.Forall₂ (FieldLike (Value.Alike code π)) fs gs →
      List.Forall₂ (FieldLike (Value.Alike code ρ)) fs gs
  | [], _, h => by cases h; exact .nil
  | (_, _) :: _, _, h => by
    cases h with
    | cons hf hs =>
      obtain ⟨hv⟩ := hf
      exact .cons ⟨hv.mono hπ⟩ (fieldsAlike_mono hπ hs)
termination_by structural fs => fs

theorem framesAlike_mono (hπ : π ≤ ρ) :
    ∀ {env env' : List (List (String × Value))},
      List.Forall₂ (List.Forall₂ (FieldLike (Value.Alike code π))) env env' →
      List.Forall₂ (List.Forall₂ (FieldLike (Value.Alike code ρ))) env env'
  | [], _, h => by cases h; exact .nil
  | _ :: _, _, h => by
    cases h with
    | cons hf hs => exact .cons (fieldsAlike_mono hπ hf) (framesAlike_mono hπ hs)
termination_by structural env => env

theorem sharesAlike_mono (hπ : π ≤ ρ) :
    ∀ {es fs : List (String × Value × Float)},
      List.Forall₂ (ShareLike (Value.Alike code π)) es fs →
      List.Forall₂ (ShareLike (Value.Alike code ρ)) es fs
  | [], _, h => by cases h; exact .nil
  | (_, _, _) :: _, _, h => by
    cases h with
    | cons hf hs =>
      obtain ⟨hv⟩ := hf
      exact .cons ⟨hv.mono hπ⟩ (sharesAlike_mono hπ hs)
termination_by structural es => es

theorem distAlike_mono (hπ : π ≤ ρ) :
    ∀ {d e : Dist}, DistLike (Value.Alike code π) d e → DistLike (Value.Alike code ρ) d e
  | .bernoulli _, _, h => by cases h; exact .bernoulli _
  | .randomInteger _, _, h => by cases h; exact .randomInteger _
  | .categorical _ _, _, h => by
    cases h with
    | categorical _ hs => exact .categorical _ (valuesAlike_mono hπ hs)
  | .discrete _, _, h => by cases h; exact .discrete _
  | .binomial _ _, _, h => by cases h; exact .binomial _ _
  | .delta _, _, h => by
    cases h with
    | delta hv => exact .delta (hv.mono hπ)
  | .uniform _ _, _, h => by cases h; exact .uniform _ _
  | .gaussian _ _, _, h => by cases h; exact .gaussian _ _
  | .marginal _, _, h => by
    cases h with
    | marginal hs => exact .marginal (sharesAlike_mono hπ hs)
termination_by structural d => d

theorem Cont.Alike.mono (hπ : π ≤ ρ) :
    ∀ {c d : Cont}, c.Alike code π d → c.Alike code ρ d
  | .exit, _, h => by cases h; exact .exit
  | .collect _ _ _ _ _, _, h => by
    cases h with
    | collect _ hl hr ha hi =>
      exact .collect _ (hl.mono hπ) (valuesAlike_mono hπ hr) (ha.mono hπ) (hi.mono hπ)
  | .remember _ _ _, _, h => by
    cases h with
    | remember _ hi hk => exact .remember _ (hπ.ids hi) (hk.mono hπ)
  | .drawn _ _ _, _, h => by
    cases h with
    | drawn _ hk hf => exact .drawn _ (hk.mono hπ) (hf.mono hπ)
  | .scored _ _ _, _, h => by
    cases h with
    | scored _ hk hv => exact .scored _ (hk.mono hπ) (hv.mono hπ)
  | .weighted _ _, _, h => by
    cases h with
    | weighted hk hv => exact .weighted (hk.mono hπ) (hv.mono hπ)
  | .leave _, _, h => by
    cases h with
    | leave hi => exact .leave (hπ.ids hi)
termination_by structural c => c

theorem Loop.Alike.mono (hπ : π ≤ ρ) :
    ∀ {l l' : Loop}, l.Alike code π l' → l.Alike code ρ l'
  | .gather _ _ _ _, _, h => by
    cases h with
    | gather _ _ hk hf => exact .gather _ _ (hk.mono hπ) (hf.mono hπ)
  | .weigh _ _ _ _ _ _ _, _, h => by
    cases h with
    | weigh _ _ hi hk hd hf hs =>
      exact .weigh _ _ (hπ.ids hi) (hk.mono hπ) (distAlike_mono hπ hd) (hf.mono hπ)
        (fieldsAlike_mono hπ hs)
termination_by structural l => l

end

end Mono

/-- Likeness up to a pairing goes layer by layer. -/
theorem alike_likeness (code : Code) (π : Pairing) : Likeness (Value.Alike code π) where
  layer := by
    intro v w h
    cases h with
    | undefined => exact .undefined
    | null => exact .null
    | bool b => exact .bool b
    | num x => exact .num x
    | str s => exact .str s
    | array hs => exact .array hs
    | object hs => exact .object hs
    | closure hi hc he => exact .closure
    | primitive p => exact .primitive p
    | builtin b => exact .builtin b
    | cached hi hf => exact .cached
    | cont hi hc =>
      refine .cont ?_
      cases hc with
      | collect _ hl _ _ _ =>
        cases hl with
        | gather how _ _ _ => cases how <;> rfl
        | weigh => rfl
      | _ => rfl
    | dist hi hd => exact .dist hd
  data := by
    intro v w h hid
    cases h with
    | undefined => exact .undefined
    | null => exact .null
    | bool b => exact .bool b
    | num x => exact .num x
    | str s => exact .str s
    | array hs => exact .array hs
    | object hs => exact .object hs
    | primitive p => exact .primitive p
    | builtin b => exact .builtin b
    | closure | cached | cont | dist => cases hid
  unique := by
    have paired {v w : Value} {i j : Nat} (h : v.Alike code π w) (hi : v.id? = some i)
        (hj : w.id? = some j) : π.ids i j := by
      cases h <;> cases hi <;> cases hj <;> assumption
    intro v w v' w' i j i' j' h h' hi hj hi' hj'
    exact π.unique (paired h hi hj) (paired h' hi' hj')

/-! ## Code -/

mutual

/-- The functions that the expression makes when it is evaluated in place can occur. Under the
strict reading it also calls primitives only and assigns to the store only. -/
def Expr.Within (code : Code) (strict : Prop) : Expr → Prop
  | .array es => ExprsWithin code strict es
  | .object fs => FieldsWithin code strict fs
  | .unary _ e => e.Within code strict
  | .binary l r _ => l.Within code strict ∧ r.Within code strict
  | .logic l r _ => l.Within code strict ∧ r.Within code strict
  | .cond t c a => t.Within code strict ∧ c.Within code strict ∧ a.Within code strict
  | .member o p => o.Within code strict ∧ p.Within code strict
  | .call f es => (strict → f.isPrimitive) ∧ f.Within code strict ∧ ExprsWithin code strict es
  | .func name params body => code name params body
  | .assign t v => (strict → t.IsStoreProperty) ∧ t.Within code strict ∧ v.Within code strict
  | .num _ | .str _ | .bool _ | .null | .undefined | .var _ => True
termination_by structural e => e

def ExprsWithin (code : Code) (strict : Prop) : List Expr → Prop
  | [] => True
  | e :: es => e.Within code strict ∧ ExprsWithin code strict es
termination_by structural es => es

def FieldsWithin (code : Code) (strict : Prop) : List (String × Expr) → Prop
  | [] => True
  | (_, e) :: fs => e.Within code strict ∧ FieldsWithin code strict fs
termination_by structural fs => fs

end

section Within

variable {code : Code} {strict : Prop} {e : Expr}

theorem exprsWithin_iff {es : List Expr} :
    ExprsWithin code strict es ↔ ∀ e ∈ es, e.Within code strict := by
  induction es with
  | nil => simp [ExprsWithin]
  | cons e es ih => simp [ExprsWithin, ih]

theorem fieldsWithin_iff {fs : List (String × Expr)} :
    FieldsWithin code strict fs ↔ ∀ f ∈ fs, f.2.Within code strict := by
  induction fs with
  | nil => simp [FieldsWithin]
  | cons f fs ih => simp [FieldsWithin, ih]

theorem Expr.Within.parts (h : e.Within code strict) : e.Parts (Expr.Within code strict) := by
  cases e with
  | array => exact exprsWithin_iff.1 h
  | object => exact fieldsWithin_iff.1 h
  | call => exact ⟨h.2.1, exprsWithin_iff.1 h.2.2⟩
  | assign => exact h.2
  | unary | binary | logic | cond | member => exact h
  | _ => trivial

end Within

/-- The same for an expression in tail position; under the strict reading it ends in a call. -/
def Expr.TailWithin (code : Code) (strict : Prop) : Expr → Prop
  | .cond t c a =>
    t.Within code strict ∧ c.TailWithin code strict ∧ a.TailWithin code strict
  | .call f es =>
    (strict → f.isPrimitive = false) ∧ f.Within code strict ∧ ExprsWithin code strict es
  | e => ¬ strict ∧ e.Within code strict

/-- A function body that can be entered. -/
def BodyWithin (code : Code) (strict : Prop) (body : List Stmt) : Prop :=
  (∀ e, body = [.expr e] → e.TailWithin code strict) ∧ (strict → ∃ e, body = [.expr e])

/-! ## States -/

/-- What two runs have in common besides the values that both made. -/
structure Setting extends Footing where
  /-- The functions that can occur. -/
  code : Code
  /-- Whether these functions have the form that the machine can run. -/
  strict : Prop
  sound : ∀ {name : Option String} {params : List String} {body : List Stmt},
    code name params body → BodyWithin code strict body

def Setting.kinship (σ : Setting) : Kinship where
  toFooting := σ.toFooting
  World := Pairing
  value := Value.Alike σ.code
  receiver := Value.Alike σ.code
  ids := Pairing.ids
  counters π i j := i = π.left ∧ j = π.right
  heard := False
  semblance π := (alike_likeness σ.code π).semblance
  unique {π} := π.unique

section States

variable (σ : Setting) (π : Pairing)

abbrev StoreAlike : Store → Store → Prop :=
  List.Forall₂ (FieldLike (Value.Alike σ.code π))

abbrev EnvAlike : Env → Env → Prop :=
  List.Forall₂ (List.Forall₂ (FieldLike (Value.Alike σ.code π)))

abbrev Entry.Alike : Entry → Entry → Prop := σ.kinship.Entries π

/-- Enumerations in the same state up to paired identities. -/
abbrev Engine.Alike : Engine → Engine → Prop := σ.kinship.Engines π

abbrev Coroutine.Alike : Coroutine → Coroutine → Prop := σ.kinship.Coroutines π

/-- Tables of cached functions with paired identities and alike results. -/
abbrev TableAlike : Nat × List (String × Value) → Nat × List (String × Value) → Prop :=
  σ.kinship.Tables π

/-- States of the machine in the same state up to paired identities. -/
abbrev Machine.Alike : Machine → Machine → Prop := σ.kinship.States π

inductive Task.Alike : Task → Task → Prop
  | call {f g : Value} {vs ws : List Value} :
      f.Alike σ.code π g → List.Forall₂ (Value.Alike σ.code π) vs ws →
      Task.Alike (.call f vs) (.call g ws)
  | turn {l l' : Loop} {vs ws : List Value} {acc acc' : Value} (index : Nat) :
      l.Alike σ.code π l' → List.Forall₂ (Value.Alike σ.code π) vs ws →
      acc.Alike σ.code π acc' → Task.Alike (.turn l index vs acc) (.turn l' index ws acc')
  | iterate {l l' : Loop} {vs ws : List Value} {acc acc' : Value} (index : Nat) :
      l.Alike σ.code π l' → List.Forall₂ (Value.Alike σ.code π) vs ws →
      acc.Alike σ.code π acc' → Task.Alike (.iterate l index vs acc) (.iterate l' index ws acc')
  | enter {e f : Engine} {thunk thunk' exit exit' : Value} :
      e.Alike σ π f → thunk.Alike σ.code π thunk' → exit.Alike σ.code π exit' →
      Task.Alike (.enter e thunk exit) (.enter f thunk' exit')

abbrev Step.Alike : Step → Step → Prop := Step.Layer (Task.Alike σ π) (Value.Alike σ.code π)

end States

section StateMono

variable {σ : Setting} {π ρ : Pairing} {m n : Machine}

theorem Machine.Alike.left (h : m.Alike σ π n) : m.nextId = π.left :=
  h.counters.1

theorem Machine.Alike.right (h : m.Alike σ π n) : n.nextId = π.right :=
  h.counters.2

theorem Entry.Alike.mono (hπ : π ≤ ρ) {e f : Entry} (h : e.Alike σ π f) : e.Alike σ ρ f where
  k := h.k.mono hπ
  value := h.value.mono hπ
  score := h.score
  store := fieldsAlike_mono hπ h.store

theorem Engine.Alike.mono (hπ : π ≤ ρ) {e f : Engine} (h : e.Alike σ π f) : e.Alike σ ρ f :=
  { h with
    id := hπ.ids h.id
    frontier := h.frontier.imp fun _ _ he => Entry.Alike.mono hπ he
    tally := h.tally.imp fun _ _ ht => ⟨ht.key, ht.value.mono hπ, ht.text, ht.score⟩
    k := h.k.mono hπ
    store := fieldsAlike_mono hπ h.store }

theorem Coroutine.Alike.mono (hπ : π ≤ ρ) {c d : Coroutine} (h : c.Alike σ π d) :
    c.Alike σ ρ d := by
  cases h with
  | engine he => exact .engine (Engine.Alike.mono hπ he)
  | script i hs => exact .script i hs

theorem TableAlike.mono (hπ : π ≤ ρ) {t u : Nat × List (String × Value)}
    (h : TableAlike σ π t u) : TableAlike σ ρ t u := by
  obtain ⟨hi, hs⟩ := h
  exact ⟨hπ.ids hi, fieldsAlike_mono hπ hs⟩

theorem stackAlike_mono (hπ : π ≤ ρ) {cs ds : List Coroutine} (h : σ.kinship.Stacks π cs ds) :
    σ.kinship.Stacks ρ cs ds := by
  obtain ⟨cs', ds', hcs, hds, hs⟩ := h
  exact ⟨cs', ds', hcs, hds, hs.imp fun _ _ hc => Coroutine.Alike.mono hπ hc⟩

/-- States are still alike after both runs gave out an identity. -/
theorem Machine.Alike.extend (h : m.Alike σ π n) :
    Machine.Alike σ π.extend { m with nextId := m.nextId + 1 }
      { n with nextId := n.nextId + 1 } :=
  { h with
    store := fieldsAlike_mono π.le_extend h.store
    counters := ⟨by rw [h.counters.1]; rfl, by rw [h.counters.2]; rfl⟩
    floor := Nat.le_succ_of_le h.floor
    floor' := Nat.le_succ_of_le h.floor'
    stack := stackAlike_mono π.le_extend h.stack
    tables := fun hs => (h.tables hs).imp fun _ _ ht => TableAlike.mono π.le_extend ht }

end StateMono

end Chance
