import Chance.Proofs.Akin.Values
import Chance.Proofs.Likeness.Simulation

/-!
# States in which the same goes on

Two runs are in states that correspond if everything they have stored, queued and put off does the
same. A state may have given out more identities than the other; only those that correspond have to
be there in both.

- `Machine.Akin`, `Task.Akin`, `Step.Akin`: states, tasks and steps that correspond,
- `Abreast`: two computations end with related results in states that correspond, or both fail with
  the same error,
- `Abreast.bind`, `Abreast.freshId_bind`, …: the rules by which computations are put together.
-/

namespace Chance

/-! ## States -/

variable {T : Ties} {π : Matching}

section States

variable (T : Ties) (π : Matching)

abbrev StoreAkin : Store → Store → Prop :=
  List.Forall₂ (FieldLike (Value.Akin T π))

/-- Choices that were put off alike. -/
structure Entry.Akin (e f : Entry) : Prop where
  k : e.k.Receives T π f.k
  value : e.value.Akin T π f.value
  score : e.score = f.score
  store : StoreAkin T π e.store f.store

/-- Enumerations in the same state. -/
structure Engine.Akin (e f : Engine) : Prop where
  id : π.ids e.id f.id
  score : e.score = f.score
  frontier : e.frontier.Pointwise (Entry.Akin T π) f.frontier
  tally : List.Forall₂ (TallyEntry.Like (Value.Akin T π)) e.tally.entries f.tally.entries
  completed : e.completed = f.completed
  done : e.done = f.done
  limit : e.limit = f.limit
  k : e.k.Receives T π f.k
  address : e.address = f.address
  store : StoreAkin T π e.store f.store

inductive Coroutine.Akin : Coroutine → Coroutine → Prop
  | engine {e f : Engine} : e.Akin T π f → Coroutine.Akin (.engine e) (.engine f)
  | script (i : Nat) : Coroutine.Akin (.script i) (.script i)

/-- Tables of cached functions that correspond. -/
inductive TableAkin : Nat × List (String × Value) → Nat × List (String × Value) → Prop
  | mk {i j : Nat} {t u : List (String × Value)} :
      π.ids i j → StoreAkin T π t u → TableAkin (i, t) (j, u)

/-- States in which the same goes on. All identities that correspond have been given out. -/
structure Machine.Akin (m n : Machine) : Prop where
  store : StoreAkin T π m.store n.store
  output : m.output = n.output
  left : ∀ i j, π.ids i j → i < m.nextId
  right : ∀ i j, π.ids i j → j < n.nextId
  tables : List.Forall₂ (TableAkin T π) m.tables n.tables
  stack : List.Forall₂ (Coroutine.Akin T π) m.stack n.stack
  scripts : List.Forall₂ ScriptAlike m.scripts n.scripts
  supply : m.supply = n.supply

/-- Tasks that do the same: a function is called with a continuation, or a continuation gets a
value. -/
inductive Task.Akin : Task → Task → Prop
  | call {f g k k' : Value} {vs ws : List Value} :
      f.Akin T π g → k.Receives T π k' → List.Forall₂ (Value.Akin T π) vs ws →
      Task.Akin (.call f (k :: vs)) (.call g (k' :: ws))
  | resume {k k' v w : Value} :
      k.Receives T π k' → v.Akin T π w → Task.Akin (.call k [v]) (.call k' [w])
  | turn {l l' : Loop} {rest rest' : List Value} {acc acc' : Value} (index : Nat) :
      l.Akin T π l' → List.Forall₂ (Value.Akin T π) rest rest' → acc.Akin T π acc' →
      Task.Akin (.turn l index rest acc) (.turn l' index rest' acc')
  | iterate {l l' : Loop} {rest rest' : List Value} {acc acc' : Value} (index : Nat) :
      l.Akin T π l' → List.Forall₂ (Value.Akin T π) rest rest' → acc.Akin T π acc' →
      Task.Akin (.iterate l index rest acc) (.iterate l' index rest' acc')
  | enter {e f : Engine} {thunk thunk' exit exit' : Value} :
      e.Akin T π f → thunk.Akin T π thunk' → exit.Receives T π exit' →
      Task.Akin (.enter e thunk exit) (.enter f thunk' exit')

abbrev Step.Akin : Step → Step → Prop := Step.Layer (Task.Akin T π) (Value.Akin T π)

end States

section StateMono

variable {T U : Ties} {π ρ : Matching} {m n : Machine}

theorem Entry.Akin.mono {e f : Entry} (h : e.Akin T π f) (hT : T ≤ U) (hπ : π ≤ ρ) :
    e.Akin U ρ f where
  k := h.k.mono hT hπ
  value := h.value.mono hT hπ
  score := h.score
  store := fieldsAkin_mono hT hπ h.store

theorem tallyAkin_mono {es fs : List TallyEntry}
    (h : List.Forall₂ (TallyEntry.Like (Value.Akin T π)) es fs) (hT : T ≤ U) (hπ : π ≤ ρ) :
    List.Forall₂ (TallyEntry.Like (Value.Akin U ρ)) es fs :=
  h.imp fun _ _ he => ⟨he.key, he.value.mono hT hπ, he.text, he.score⟩

theorem Engine.Akin.mono {e f : Engine} (h : e.Akin T π f) (hT : T ≤ U) (hπ : π ≤ ρ) :
    e.Akin U ρ f :=
  { h with
    id := hπ _ _ h.id
    frontier := h.frontier.imp fun _ _ he => he.mono hT hπ
    tally := tallyAkin_mono h.tally hT hπ
    k := h.k.mono hT hπ
    store := fieldsAkin_mono hT hπ h.store }

theorem Coroutine.Akin.mono {c d : Coroutine} (h : c.Akin T π d) (hT : T ≤ U) (hπ : π ≤ ρ) :
    c.Akin U ρ d := by
  cases h with
  | engine he => exact .engine (he.mono hT hπ)
  | script i => exact .script i

theorem TableAkin.mono {t u : Nat × List (String × Value)} (h : TableAkin T π t u) (hT : T ≤ U)
    (hπ : π ≤ ρ) : TableAkin U ρ t u := by
  obtain ⟨hij, hs⟩ := h
  exact ⟨hπ _ _ hij, fieldsAkin_mono hT hπ hs⟩

theorem Task.Akin.mono {t u : Task} (h : t.Akin T π u) (hT : T ≤ U) (hπ : π ≤ ρ) :
    t.Akin U ρ u := by
  cases h with
  | call hf hk hs => exact .call (hf.mono hT hπ) (hk.mono hT hπ) (valuesAkin_mono hT hπ hs)
  | resume hk hv => exact .resume (hk.mono hT hπ) (hv.mono hT hπ)
  | turn index hl hrest hacc =>
    exact .turn index (hl.mono hT hπ) (valuesAkin_mono hT hπ hrest) (hacc.mono hT hπ)
  | iterate index hl hrest hacc =>
    exact .iterate index (hl.mono hT hπ) (valuesAkin_mono hT hπ hrest) (hacc.mono hT hπ)
  | enter he hthunk hexit =>
    exact .enter (he.mono hT hπ) (hthunk.mono hT hπ) (hexit.mono hT hπ)

theorem Machine.Akin.mono (h : m.Akin T π n) (hT : T ≤ U) (hπ : π ≤ ρ)
    (hleft : ∀ i j, ρ.ids i j → i < m.nextId) (hright : ∀ i j, ρ.ids i j → j < n.nextId) :
    m.Akin U ρ n where
  store := fieldsAkin_mono hT hπ h.store
  output := h.output
  left := hleft
  right := hright
  tables := h.tables.imp fun _ _ ht => ht.mono hT hπ
  stack := h.stack.imp fun _ _ hc => hc.mono hT hπ
  scripts := h.scripts
  supply := h.supply

theorem Machine.Akin.weaken (h : m.Akin T π n) (hT : T ≤ U) : m.Akin U π n :=
  h.mono hT (Matching.le_refl π) h.left h.right

end StateMono

namespace Machine.Akin

variable {T : Ties} {π : Matching} {m n : Machine}

theorem skip (h : m.Akin T π n) (i j : Nat) :
    Machine.Akin T π { m with nextId := m.nextId + i } { n with nextId := n.nextId + j } :=
  { h with
    left := fun a b hab => Nat.lt_of_lt_of_le (h.left a b hab) (Nat.le_add_right _ _)
    right := fun a b hab => Nat.lt_of_lt_of_le (h.right a b hab) (Nat.le_add_right _ _) }

/-- The correspondence after both runs gave out an identity for the same thing. -/
def extend (h : m.Akin T π n) : Matching :=
  π.insert m.nextId n.nextId (fun _ hij => Nat.lt_irrefl _ (h.left _ _ hij))
    fun _ hij => Nat.lt_irrefl _ (h.right _ _ hij)

theorem grows_extend (h : m.Akin T π n) : π.Grows h.extend m.nextId n.nextId where
  le := Matching.le_insert _ _
  since _ _ hij := hij.imp_right fun hnew => ⟨Nat.le_of_eq hnew.1.symm, Nat.le_of_eq hnew.2.symm⟩

theorem le_extend (h : m.Akin T π n) : π ≤ h.extend := h.grows_extend.le

theorem extend_ids (h : m.Akin T π n) : h.extend.ids m.nextId n.nextId := .inr ⟨rfl, rfl⟩

theorem extended (h : m.Akin T π n) :
    Machine.Akin T h.extend { m with nextId := m.nextId + 1 }
      { n with nextId := n.nextId + 1 } := by
  refine (h.skip 1 1).mono (Ties.le_refl T) h.le_extend ?_ ?_
  · rintro i j (hij | ⟨rfl, rfl⟩)
    · exact Nat.lt_succ_of_lt (h.left i j hij)
    · exact Nat.lt_succ_self _
  · rintro i j (hij | ⟨rfl, rfl⟩)
    · exact Nat.lt_succ_of_lt (h.right i j hij)
    · exact Nat.lt_succ_self _

theorem withStore (h : m.Akin T π n) {s t : Store} (hs : StoreAkin T π s t) :
    Machine.Akin T π { m with store := s } { n with store := t } :=
  { h with store := hs }

theorem withStack (h : m.Akin T π n) {cs ds : List Coroutine}
    (hs : List.Forall₂ (Coroutine.Akin T π) cs ds) :
    Machine.Akin T π { m with stack := cs } { n with stack := ds } :=
  { h with stack := hs }

end Machine.Akin

/-! ## Computations -/

/-- Related results in states that correspond, or the same error. Meanwhile both runs gave out
identities from a number of their own on. -/
inductive SameResult {α β : Type} (T : Ties) (π : Matching) (first first' : Nat)
    (Q : Matching → α → β → Prop) :
    EStateM.Result Error Machine α → EStateM.Result Error Machine β → Prop
  | ok {ρ : Matching} {a : α} {b : β} {m n : Machine} :
      π.Grows ρ first first' → first ≤ m.nextId → first' ≤ n.nextId → Q ρ a b → m.Akin T ρ n →
      SameResult T π first first' Q (.ok a m) (.ok b n)
  | error {ρ : Matching} {e : Error} {m n : Machine} :
      π ≤ ρ → m.Akin T ρ n → SameResult T π first first' Q (.error e m) (.error e n)

theorem SameResult.grow {α β : Type} {ρ : Matching} {first first' later later' : Nat}
    {Q : Matching → α → β → Prop} {r : EStateM.Result Error Machine α}
    {s : EStateM.Result Error Machine β} (h : SameResult T ρ later later' Q r s)
    (hπ : π.Grows ρ first first') (hle : first ≤ later) (hle' : first' ≤ later') :
    SameResult T π first first' Q r s := by
  cases h with
  | ok hρ hids hids' hab hm =>
    exact .ok (hπ.trans hρ hle hle') (Nat.le_trans hle hids) (Nat.le_trans hle' hids') hab hm
  | error hρ hm => exact .error (Matching.le_trans hπ.le hρ) hm

/-- Two computations from two states have the same result. -/
def Abreast {α β : Type} (T : Ties) (π : Matching) (Q : Matching → α → β → Prop) (x : Exec α)
    (y : Exec β) (m n : Machine) : Prop :=
  SameResult T π m.nextId n.nextId Q (x m) (y n)

namespace Abreast

variable {T : Ties} {π ρ : Matching} {α β γ δ : Type} {Q : Matching → α → β → Prop}
  {S : Matching → γ → δ → Prop} {m n : Machine} {x : Exec α} {y : Exec β}

theorem pure {a : α} {b : β} (hm : m.Akin T π n) (h : Q π a b) :
    Abreast T π Q (pure a) (pure b) m n :=
  .ok (.refl π _ _) (Nat.le_refl _) (Nat.le_refl _) h hm

theorem throw (e : Error) (hm : m.Akin T π n) : Abreast T π Q (throw e) (throw e) m n :=
  .error (Matching.le_refl π) hm

theorem bind {f : α → Exec γ} {g : β → Exec δ} (h : Abreast T π Q x y m n)
    (k : ∀ ρ a b m' n', π ≤ ρ → Q ρ a b → m'.Akin T ρ n' → Abreast T ρ S (f a) (g b) m' n') :
    Abreast T π S (x >>= f) (y >>= g) m n := by
  unfold Abreast at h ⊢
  simp only [Bind.bind, EStateM.bind]
  generalize x m = r at h ⊢
  generalize y n = s at h ⊢
  cases h with
  | ok hρ hids hids' hab hm => exact SameResult.grow (k _ _ _ _ _ hρ.le hab hm) hρ hids hids'
  | error hρ hm => exact .error hρ hm

theorem lift_bind {R : α → β → Prop} {x : Except Error α} {y : Except Error β} {f : α → Exec γ}
    {g : β → Exec δ} (hm : m.Akin T π n) (h : Agrees (Value.Akin T π) R x y)
    (k : ∀ a b, R a b → Abreast T π S (f a) (g b) m n) :
    Abreast T π S (liftM x >>= f) (liftM y >>= g) m n := by
  cases h with
  | ok hab => exact k _ _ hab
  | error he =>
    obtain rfl := he.same fun hv => (akin_likeness T π).text_eq _ _ hv
    exact .error (Matching.le_refl π) hm

theorem modify_bind {f g : Machine → Machine} {x : PUnit → Exec γ} {y : PUnit → Exec δ}
    (hids : (f m).nextId = m.nextId) (hids' : (g n).nextId = n.nextId)
    (k : Abreast T π S (x ⟨⟩) (y ⟨⟩) (f m) (g n)) :
    Abreast T π S (modify f >>= x) (modify g >>= y) m n :=
  SameResult.grow k (.refl π _ _) (Nat.le_of_eq hids.symm) (Nat.le_of_eq hids'.symm)

/-- Both runs give out an identity for the same thing. -/
theorem freshId_bind {f : Nat → Exec γ} {g : Nat → Exec δ} (hm : m.Akin T π n)
    (k : ∀ ρ i j m' n', π ≤ ρ → ρ.ids i j → m'.Akin T ρ n' → Abreast T ρ S (f i) (g j) m' n') :
    Abreast T π S (Exec.freshId >>= f) (Exec.freshId >>= g) m n :=
  SameResult.grow (k _ _ _ _ _ hm.le_extend hm.extend_ids hm.extended) hm.grows_extend
    (Nat.le_succ _) (Nat.le_succ _)

theorem newCont_bind {c d : Cont} {f : Value → Exec γ} {g : Value → Exec δ} (hm : m.Akin T π n)
    (hc : c.Akin T π d)
    (k : ∀ v w m' n', v.Receives T π w → m'.Akin T π n' → Abreast T π S (f v) (g w) m' n') :
    Abreast T π S (Exec.newCont c >>= f) (Exec.newCont d >>= g) m n :=
  SameResult.grow (k (.cont m.nextId c) (.cont n.nextId d) _ _ (.cont hc) (hm.skip 1 1))
    (.refl π _ _) (Nat.le_succ _) (Nat.le_succ _)

theorem newDist {d e : Dist} (hm : m.Akin T π n) (hd : DistLike (Value.Akin T π) d e) :
    Abreast T π (Value.Akin T) (Exec.newDist d) (Exec.newDist e) m n :=
  .ok hm.grows_extend (Nat.le_succ _) (Nat.le_succ _)
    (.dist hm.extend_ids (distAkin_mono (Ties.le_refl T) hm.le_extend hd)) hm.extended

end Abreast

theorem InStep.abreast {x y : Exec Value} (h : InStep (Value.Akin T π) x y) {m n : Machine}
    (hm : m.Akin T π n) : Abreast T π (Value.Akin T) x y m n := by
  have L := akin_likeness T π
  induction h with
  | pure h => exact .pure hm h
  | throw he =>
    obtain rfl := he.same fun hv => L.text_eq _ _ hv
    exact .throw _ hm
  | lift h =>
    cases h with
    | ok hv => exact .pure hm hv
    | error he =>
      obtain rfl := he.same fun hv => L.text_eq _ _ hv
      exact .throw _ hm
  | bind h _ ih => exact .lift_bind hm h ih
  | newDist hd => exact .newDist hm hd.like
  | print _ hkeys =>
    refine .modify_bind rfl rfl (.pure { hm with output := ?_ } .undefined)
    simp only [hm.output, hkeys]

end Chance
