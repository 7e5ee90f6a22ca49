import Chance.Proofs.Enumeration.Exploration
import Chance.Proofs.Machine.Levels

/-!
# Enumerations on top of one another

The enumerations that are installed stand on coroutines that were there before. What an enumeration
has put off belongs to it, and the continuation of its call belongs to those below. A step of the
machine keeps the tower and the sites at which the run may still ask; it changes the innermost
enumeration at most, and when it removes one, the run is back where that one was called.

- `Machine.Fits`: a state with such a tower,
- `Shift`: what a step does to the coroutines,
- `Task.perform_outcome`: every step from a fitting task ends in one.
-/

namespace Chance

/-! ## The tower -/

/-- A choice that was put off within the enumerations `σ`. -/
structure Entry.Fits (σ : List Nat) (x : Entry) : Prop where
  continues : Continues σ ∅ x.k
  value : x.value.Held
  store : StoreHeld x.store

/-- An enumeration that was called within the enumerations `σ`. -/
structure Engine.Fits (σ : List Nat) (e : Engine) : Prop where
  above : ∀ i ∈ σ, i < e.id
  entries : ∀ x ∈ e.frontier.toList, x.Fits (e.id :: σ)
  tally : ∀ t ∈ e.tally.entries, t.value.Held
  store : StoreHeld e.store

/-- Coroutines of which none is an enumeration. -/
def Bare (S : List Coroutine) : Prop :=
  ∀ e, .engine e ∉ S

theorem Bare.head? {S : List Coroutine} (hS : Bare S) :
    S.head? = none ∨ ∃ i, S.head? = some (.script i) := by
  cases S with
  | nil => exact .inl rfl
  | cons c S =>
    cases c with
    | engine e => exact absurd List.mem_cons_self (hS e)
    | script i => exact .inr ⟨i, rfl⟩

/-- The enumerations `σ` stand on `S`. Once they are done the run asks at sites of `T` only. -/
inductive Tower (S : List Coroutine) (T : Set Site) : List Nat → List Coroutine → Prop
  | base : Tower S T [] S
  | install {σ : List Nat} {cs : List Coroutine} {e : Engine} : Tower S T σ cs → e.Fits σ →
      Continues σ (shown σ T) e.k → Tower S T (e.id :: σ) (.engine e :: cs)

structure Machine.Fits (S : List Coroutine) (T : Set Site) (σ : List Nat) (m : Machine) : Prop where
  held : m.Held
  tower : Tower S T σ m.stack
  next : ∀ i ∈ σ, i < m.nextId

section Towers

variable {S cs : List Coroutine} {T : Set Site} {σ : List Nat} {m n : Machine}

theorem Tower.suffix (h : Tower S T σ cs) : S <:+ cs := by
  induction h with
  | base => exact List.suffix_rfl
  | install _ _ _ ih => exact ih.trans (List.suffix_cons _ _)

theorem Tower.id_mem (hS : Bare S) (h : Tower S T σ cs) {e : Engine} (he : .engine e ∈ cs) :
    e.id ∈ σ := by
  induction h with
  | base => exact absurd he (hS e)
  | install _ _ _ ih =>
    rcases List.mem_cons.1 he with heq | he
    · cases heq
      exact List.mem_cons_self
    · exact List.mem_cons_of_mem _ (ih he)

theorem Machine.Fits.settles (h : m.Fits S T σ) (hn : m.Settles n) : n.Fits S T σ where
  held := hn.held
  tower := hn.stack ▸ h.tower
  next := fun i hi => (h.next i hi).trans_le hn.nextId

theorem Tower.top {i : Nat} (h : Tower S T (i :: σ) cs) :
    ∃ e outer, cs = .engine e :: outer ∧ e.id = i ∧ Tower S T σ outer ∧ e.Fits σ ∧
      Continues σ (shown σ T) e.k := by
  cases h with
  | install htower he hk => exact ⟨_, _, rfl, rfl, htower, he, hk⟩

theorem Tower.eq_base (h : Tower S T [] cs) : cs = S := by
  cases h
  rfl

end Towers

/-! ## What steps do -/

/-- The enumeration that a task is about to install. -/
def Task.entered? : Task → Option Engine
  | .enter e _ _ => some e
  | _ => none

/-- The stores that an enumeration has saved, with the choices that it put off. -/
def Engine.stores (e : Engine) : List Store :=
  e.frontier.toList.map Entry.store

/-- What happens to the coroutines in the step from task `t` in state `m` to task `t'` in state
`m'`. -/
inductive Shift (t : Task) (m : Machine) (t' : Task) (m' : Machine) : Prop
  | stays : m'.stack = m.stack → t'.entered? = none → Shift t m t' m'
  /-- An enumeration is called. -/
  | calls {e : Engine} : m'.stack = m.stack → t'.entered? = some e → m.nextId ≤ e.id →
      e.id < m'.nextId → e.store = m.store → m'.store = m.store → Shift t m t' m'
  /-- An enumeration is installed. -/
  | opens {e : Engine} : t.entered? = some e → m'.stack = .engine e :: m.stack →
      t'.entered? = none → m'.store = m.store → e.stores = [] → Shift t m t' m'
  /-- The innermost enumeration goes on with its work. It saves no store but the present one, and
  reinstates none but those it has saved. -/
  | explores {e e' : Engine} {outer : List Coroutine} : m.stack = .engine e :: outer →
      m'.stack = .engine e' :: outer → e'.id = e.id → e'.k = e.k → e'.store = e.store →
      t'.entered? = none → m'.store ∈ m.store :: e.stores → e'.stores ⊆ m.store :: e.stores →
      Shift t m t' m'
  /-- The innermost enumeration hands over its result. -/
  | closes {e : Engine} {i : Nat} {d : Dist} : m.stack = .engine e :: m'.stack →
      m'.store = e.store → t' = .call e.k [.dist i d] → Shift t m t' m'

/-- What happens to the coroutines in a step from state `m` that fails in state `m'`. -/
inductive Halt (m m' : Machine) : Prop
  | stays : m'.stack = m.stack → Halt m m'
  /-- The innermost enumeration fails in the midst of its work. -/
  | explores {e e' : Engine} {outer : List Coroutine} : m.stack = .engine e :: outer →
      m'.stack = .engine e' :: outer → e'.id = e.id → m'.store ∈ m.store :: e.stores → Halt m m'

/-- How a step from task `t` in state `m` may end. -/
inductive Outcome (S : List Coroutine) (T : Set Site) (t : Task) (m : Machine) :
    EStateM.Result Error Machine Step → Prop
  | goes {s : Step} {t' : Task} {m' : Machine} {σ : List Nat} : s.task? = some t' →
      m'.Fits S T σ → t'.Fits σ (shown σ T) → m.nextId ≤ m'.nextId → Shift t m t' m' →
      Outcome S T t m (.ok s m')
  | ends {v : Value} : m.stack = S → Outcome S T t m (.ok (.done v) m)
  | fails {e : Error} {m' : Machine} : Halt m m' → Outcome S T t m (.error e m')

section Outcomes

variable {S : List Coroutine} {T : Set Site} {σ : List Nat} {t : Task} {m n : Machine}

theorem Halt.suffix (h : Halt m n) (htower : Tower S T σ m.stack) (hS : Bare S) :
    S <:+ n.stack := by
  cases h with
  | stays hstack => exact hstack ▸ htower.suffix
  | explores hm hn =>
    rw [hm] at htower
    rw [hn]
    cases htower with
    | base => exact absurd List.mem_cons_self (hS _)
    | install htower _ _ => exact htower.suffix.trans (List.suffix_cons _ _)

theorem Outcome.next {s : Step} {t' : Task} (hm : m.Fits S T σ) (hn : m.Settles n)
    (hs : s.task? = some t') (ht' : t'.Fits σ (shown σ T)) (hentered : t'.entered? = none) :
    Outcome S T t m (.ok s n) :=
  .goes hs (hm.settles hn) ht' hn.nextId (.stays hn.stack hentered)

theorem Outcome.resume {k v : Value} (hm : m.Fits S T σ) (hn : m.Settles n)
    (hk : Continues σ (shown σ T) k) (hv : v.Held) : Outcome S T t m (.ok (.resume k v) n) :=
  .next hm hn rfl (.resume hk hv) rfl

theorem Outcome.of_stays {P : Step → Prop} {x : Exec Step} (hm : m.Fits S T σ) (hn : m.Settles n)
    (h : x.Stays P n) (hP : ∀ s, P s → ∃ t', s.task? = some t' ∧ t'.Fits σ (shown σ T) ∧
      t'.entered? = none) : Outcome S T t m (x n) := by
  unfold Exec.Stays at h
  cases hx : x n with
  | ok s n' =>
    rw [hx] at h
    obtain ⟨t', hs, ht', hentered⟩ := hP s h.1
    exact .next hm (hn.trans h.2) hs ht' hentered
  | error e n' =>
    rw [hx] at h
    exact .fails (.stays (Eq.trans h hn.stack))

/-- A computation in place before the rest of a step. -/
theorem Outcome.bind {α : Type} {P : α → Prop} {x : Exec α} {f : α → Exec Step}
    (hn : m.Settles n) (h : x.Stays P n)
    (hf : ∀ a n', P a → m.Settles n' → Outcome S T t m (f a n')) :
    Outcome S T t m ((x >>= f) n) := by
  unfold Exec.Stays at h
  simp only [Bind.bind, EStateM.bind]
  cases hx : x n with
  | ok a n' =>
    rw [hx] at h
    exact hf a n' h.1 (hn.trans h.2)
  | error e n' =>
    rw [hx] at h
    exact .fails (.stays (Eq.trans h hn.stack))

theorem Outcome.throw (hn : m.Settles n) (e : Error) :
    Outcome S T t m ((throw e : Exec Step) n) :=
  .fails (.stays hn.stack)

theorem Outcome.lift {α : Type} {x : Except Error α} {f : α → Exec Step} (hn : Halt m n)
    (hf : ∀ a, x = .ok a → Outcome S T t m (f a n)) :
    Outcome S T t m (((liftM x : Exec α) >>= f) n) := by
  cases x with
  | ok a => exact hf a rfl
  | error e => exact .fails hn

end Outcomes

/-! ## Results -/

theorem push_stores {f : Frontier} {x : Entry} :
    (f.push x).toList.map Entry.store ⊆ x.store :: f.toList.map Entry.store :=
  (List.Perm.map Entry.store (Frontier.push_perm x f)).subset

theorem postpone_stores (e : Engine) (k : Value) (d : Dist) (store : Store) (values : List Value) :
    (e.postpone k d store values).stores ⊆ store :: e.stores := by
  suffices h : ∀ (score : Value → Float) (f : Frontier),
      (values.foldl (fun f v => f.push ⟨k, v, score v, store⟩) f).toList.map Entry.store ⊆
        store :: f.toList.map Entry.store from h _ _
  intro score
  induction values with
  | nil => exact fun f => List.subset_cons_self _ _
  | cons v values ih =>
    refine fun f => List.Subset.trans (ih _) ?_
    exact List.cons_subset.2 ⟨List.mem_cons_self, push_stores⟩

/-! ## The innermost enumeration -/

/-- The enumeration is the innermost one in state `n`, in a step that began in state `m`. -/
structure Working (S : List Coroutine) (T : Set Site) (σ : List Nat) (m : Machine) (e : Engine)
    (n : Machine) : Prop where
  held : n.Held
  next : ∀ i ∈ e.id :: σ, i < n.nextId
  grows : m.nextId ≤ n.nextId
  fits : e.Fits σ
  continues : Continues σ (shown σ T) e.k
  stack : ∃ e₀ outer, m.stack = .engine e₀ :: outer ∧ n.stack = .engine e :: outer ∧
    Tower S T σ outer ∧ e.id = e₀.id ∧ e.k = e₀.k ∧ e.store = e₀.store ∧
      n.store ∈ m.store :: e₀.stores ∧ e.stores ⊆ m.store :: e₀.stores

namespace Working

variable {S : List Coroutine} {T : Set Site} {σ : List Nat} {t : Task} {m n : Machine} {e : Engine}
  {k : Value} {d : Dist}

theorem halt (h : Working S T σ m e n) : Halt m n := by
  obtain ⟨_, _, hm, hn, _, hid, _, _, hsaved, _⟩ := h.stack
  exact .explores hm hn hid hsaved

theorem machineFits (h : Working S T σ m e n) : n.Fits S T (e.id :: σ) where
  held := h.held
  tower := by
    obtain ⟨_, outer, _, hn, htower, _⟩ := h.stack
    rw [hn]
    exact .install htower h.fits h.continues
  next := h.next

theorem below (hS : Bare S) {outer : List Coroutine} (h : Working S T σ m e n)
    (houter : Tower S T σ outer) {g : Engine} (hg : .engine g ∈ outer) : g.id < e.id :=
  h.fits.above _ (houter.id_mem hS hg)

theorem save (hS : Bare S) (h : Working S T σ m e n) {e' : Engine} (he' : e'.Fits σ)
    (hid : e'.id = e.id) (hk : e'.k = e.k) (hstore : e'.store = e.store)
    (hstores : e'.stores ⊆ n.store :: e.stores) : Working S T σ m e' (n.putEngine e') := by
  obtain ⟨e₀, outer, hm, hn, htower, hid₀, hk₀, hstore₀, hnow, hsaved⟩ := h.stack
  rw [putEngine_onTop hn hid (h.below hS htower)]
  exact
    { held := ⟨h.held.store, h.held.tables⟩
      next := hid ▸ h.next
      grows := h.grows
      fits := he'
      continues := hk ▸ h.continues
      stack := ⟨e₀, outer, hm, rfl, htower, hid.trans hid₀, hk.trans hk₀, hstore.trans hstore₀,
        hnow, List.Subset.trans hstores (List.cons_subset.2 ⟨hnow, hsaved⟩)⟩ }

theorem outcome (h : Working S T σ m e n) {s : Step} {t' : Task} (hs : s.task? = some t')
    (ht' : t'.Fits (e.id :: σ) ∅) (hentered : t'.entered? = none) :
    Outcome S T t m (.ok s n) := by
  obtain ⟨e₀, outer, hm, hn, _, hid, hk, hstore, hnow, hsaved⟩ := h.stack
  refine .goes hs h.machineFits ?_ h.grows (.explores hm hn hid hk hstore hentered hnow hsaved)
  rw [shown_cons]
  exact ht'

theorem finish (hS : Bare S) (h : Working S T σ m e n) : Outcome S T t m (e.finish n) := by
  obtain ⟨e₀, outer, hm, hn, htower, _, hk, hstore, _⟩ := h.stack
  rw [finish_onTop hn (h.below hS htower)]
  cases hd : e.tally.marginal with
  | error er => exact .fails h.halt
  | ok d =>
    refine .goes rfl ⟨⟨h.fits.store, h.held.tables⟩, htower, fun i hi => ?_⟩
      (.resume h.continues (.dist (marginal_inherits h.fits.tally hd))) ?_
      (.closes hm hstore (congrArg (Task.call · _) hk))
    · exact (h.next i (List.mem_cons_of_mem _ hi)).trans (Nat.lt_succ_self _)
    · exact h.grows.trans (Nat.le_succ _)

theorem advance (hS : Bare S) (h : Working S T σ m e n) : Outcome S T t m (e.advance n) := by
  obtain ⟨e₀, outer, hm, hn, htower, hid, hk, hstore, _, hsaved⟩ := h.stack
  cases hpop : e.frontier.pop? with
  | none =>
    have hfinish : e.advance = e.finish := by simp only [Engine.advance, hpop]
    rw [hfinish]
    exact h.finish hS
  | some xs =>
    obtain ⟨x, rest⟩ := xs
    rw [advance_onTop hn (h.below hS htower) hpop]
    have hentries := h.fits.entries
    rw [Frontier.toList_of_pop? hpop] at hentries
    obtain ⟨hx, hrest⟩ := List.forall_mem_cons.1 hentries
    rw [Engine.stores, Frontier.toList_of_pop? hpop, List.map_cons] at hsaved
    obtain ⟨hnow, hsaved⟩ := List.cons_subset.1 hsaved
    have hworking : Working S T σ m { e with score := x.score, frontier := rest }
        { n with
          stack := .engine { e with score := x.score, frontier := rest } :: outer
          store := x.store } :=
      { held := ⟨hx.store, h.held.tables⟩
        next := h.next
        grows := h.grows
        fits := { h.fits with entries := hrest }
        continues := h.continues
        stack := ⟨e₀, outer, hm, rfl, htower, hid, hk, hstore, hnow, hsaved⟩ }
    exact hworking.outcome rfl (.resume hx.continues hx.value) rfl

theorem leave (hS : Bare S) (h : Working S T σ m e n) {v : Value} (hv : v.Held) :
    Outcome S T t m (e.leave v n) := by
  have hcounted : Engine.Fits σ
      { e with tally := e.tally.add v e.score, completed := e.completed + 1 } :=
    { h.fits with tally := tally_add_inherits h.fits.tally hv _ }
  have hsaved := h.save hS hcounted rfl rfl rfl (List.subset_cons_self _ _)
  simp only [Engine.leave]
  split_ifs
  · exact hsaved.advance hS
  · exact hsaved.finish hS

theorem sample (hS : Bare S) (h : Working S T σ m e n) (hk : Continues (e.id :: σ) ∅ k)
    (hd : d.Held) : Outcome S T t m (e.sample k d n) := by
  refine .lift h.halt fun values hvalues => ?_
  have hpostponed : (e.postpone k d n.store values).Fits σ :=
    { h.fits with
      entries := Frontier.forall_mem_pushAll h.fits.entries fun v hv =>
        ⟨hk, held_inherited.enumerable hd hvalues v hv, h.held.store⟩ }
  exact (h.save hS hpostponed rfl rfl rfl (postpone_stores ..)).advance hS

theorem factor (hS : Bare S) (h : Working S T σ m e n) (hk : Continues (e.id :: σ) ∅ k)
    (x : Float) : Outcome S T t m (e.factor k x n) := by
  have hscored : Engine.Fits σ { e with score := e.score + x } := { h.fits with }
  have hsaved := h.save hS hscored rfl rfl rfl (List.subset_cons_self _ _)
  simp only [Engine.factor]
  split_ifs
  · exact hsaved.leave hS .undefined
  · exact hsaved.outcome rfl (.resume hk .undefined) rfl

theorem sampleWithFactor (h : Working S T σ m e n) {score : Value} (address : String)
    (hk : Continues (e.id :: σ) ∅ k) (hd : d.Held) (hscore : score.Held) :
    Outcome S T t m (e.sampleWithFactor k address d score n) := by
  refine .lift h.halt fun values hvalues => ?_
  have hloop : Loop.Fits (e.id :: σ) ∅ (.weigh e.id k address d score n.store e.score) 0 values :=
    .weigh rfl hk hscore hd h.held.store (held_inherited.enumerable hd hvalues)
  exact h.outcome rfl (.iterate hloop .undefined) rfl

end Working

theorem Machine.Fits.working {S : List Coroutine} {T : Set Site} {σ : List Nat} {m n : Machine}
    {i : Nat} (h : m.Fits S T (i :: σ)) (hn : m.Settles n) (hstore : n.store = m.store) :
    ∃ e outer, n.stack = .engine e :: outer ∧ e.id = i ∧ Working S T σ m e n := by
  obtain ⟨e, outer, hstack, rfl, htower, hfits, hk⟩ := h.tower.top
  refine ⟨e, outer, hn.stack.trans hstack, rfl, hn.held, ?_, hn.nextId, hfits, hk, e, outer, hstack,
    hn.stack.trans hstack, htower, rfl, rfl, rfl, hstore ▸ List.mem_cons_self,
    List.subset_cons_self _ _⟩
  exact fun i hi => (h.next i hi).trans_le hn.nextId

end Chance
