import Chance.Proofs.Likeness.Enumerations
import Chance.Machine.Step

/-!
# States that correspond

Two runs correspond if everything they have stored, queued and put off corresponds. What that means
for values and for identities is up to a `Kinship`; what it means for states follows from it. The
runs need not agree below the coroutines that both installed: a `Footing` says what lies there.

- `Footing`: what lies below what both runs have installed,
- `Kinship`: which values and identities correspond, in a world that grows while the runs go on,
- `Kinship.Engines`, `Kinship.States`: enumerations and states that correspond,
- `Kinship.States.putEngine`, `Kinship.States.engine?`, …: what is done to states that correspond.
-/

namespace Chance

variable {cs : List Coroutine}

/-- What lies below the coroutines that two runs have both installed. -/
structure Footing where
  /-- Whether the runs agree on tables, scripts and random words. -/
  shared : Prop
  /-- The coroutines of the first run below those that both installed. -/
  base : List Coroutine
  /-- The coroutines of the second run below those that both installed. -/
  base' : List Coroutine
  /-- Enumerations that both runs installed have at least this identity in the first run. -/
  floor : Nat
  /-- Enumerations that both runs installed have at least this identity in the second run. -/
  floor' : Nat
  below : ∀ {e : Engine}, .engine e ∈ base → e.id < floor
  below' : ∀ {e : Engine}, .engine e ∈ base' → e.id < floor'
  alone : shared → base = [] ∧ base' = [] ∧ floor = 0

/-- Both runs installed everything. -/
def Footing.even : Footing where
  shared := True
  base := []
  base' := []
  floor := 0
  floor' := 0
  below := nofun
  below' := nofun
  alone := fun _ => ⟨rfl, rfl, rfl⟩

/-- The innermost coroutine is one that both runs installed. -/
def Footing.Deep (F : Footing) (m : Machine) : Prop :=
  F.base.length < m.stack.length

/-- How two runs correspond. -/
structure Kinship extends Footing where
  /-- What is known about the runs. -/
  World : Type
  value : World → Value → Value → Prop
  /-- Continuations that are handed over. -/
  receiver : World → Value → Value → Prop
  ids : World → Nat → Nat → Prop
  /-- The next identities. -/
  counters : World → Nat → Nat → Prop
  /-- Whether the runs print the same. -/
  heard : Prop
  semblance : ∀ w, Semblance (value w)
  unique : ∀ {w i j i' j'}, ids w i j → ids w i' j' → (i = i' ↔ j = j')

/-! ## Enumerations in a stack -/

/-- Replaces the state of an enumeration in a stack. -/
def replaceEngine (e : Engine) : Coroutine → Coroutine
  | .engine f => if f.id = e.id then .engine e else .engine f
  | .script i => .script i

theorem putEngine_eq (m : Machine) (e : Engine) :
    m.putEngine e = { m with stack := m.stack.map (replaceEngine e) } :=
  rfl

theorem map_replaceEngine_of_lt {e : Engine} (h : ∀ {f}, .engine f ∈ cs → f.id < e.id) :
    cs.map (replaceEngine e) = cs := by
  refine (List.map_congr_left (g := id) fun c hc => ?_).trans (List.map_id cs)
  cases c with
  | script i => rfl
  | engine f =>
    have hne : f.id ≠ e.id := Nat.ne_of_lt (h hc)
    simp only [replaceEngine, hne, if_false, id]

/-- The enumeration with the given identity among coroutines. -/
def findEngine? (id : Nat) (cs : List Coroutine) : Option Engine :=
  cs.findSome? fun
    | .engine e => if e.id = id then some e else none
    | .script _ => none

theorem engine?_append {m : Machine} {ds : List Coroutine} (h : m.stack = cs ++ ds) (i : Nat) :
    m.engine? i = (findEngine? i cs).or (findEngine? i ds) := by
  rw [Machine.engine?, h, List.findSome?_append]
  rfl

theorem Exec.get_bind (f : Machine → Exec Step) (m : Machine) : (get >>= f) m = f m m :=
  rfl

theorem Engine.live_bind (i : Nat) (f : Engine → Exec Step) (m : Machine) :
    (Engine.live i >>= f) m =
      match m.engine? i with
      | some e => if e.done then .error (.stale "Enumerate") m else f e m
      | none => .error (.stale "Enumerate") m := by
  change ((match m.engine? i with
    | some e => if e.done then throw (.stale "Enumerate") else pure e
    | none => throw (.stale "Enumerate") : Exec Engine) >>= f) m = _
  cases m.engine? i with
  | none => rfl
  | some e => cases hdone : e.done <;> simp only [hdone] <;> rfl

theorem currentCoroutine_bind (f : Option Coroutine → Exec Step) (m : Machine) :
    (currentCoroutine >>= f) m = f m.stack.head? m :=
  rfl

/-! ## States -/

/-- Scripts that will give the same answers. -/
structure ScriptAlike (s t : Script) : Prop where
  choices : s.choices = t.choices
  answered : s.answered = t.answered

namespace Kinship

section Definitions

variable (K : Kinship) (w : K.World)

abbrev Stores : Store → Store → Prop :=
  List.Forall₂ (FieldLike (K.value w))

/-- Choices that were put off alike. -/
structure Entries (e f : Entry) : Prop where
  k : K.receiver w e.k f.k
  value : K.value w e.value f.value
  score : e.score = f.score
  store : K.Stores w e.store f.store

/-- Enumerations in the same state. -/
structure Engines (e f : Engine) : Prop where
  id : K.ids w e.id f.id
  floor : K.floor ≤ e.id
  floor' : K.floor' ≤ f.id
  score : e.score = f.score
  frontier : e.frontier.Pointwise (K.Entries w) f.frontier
  tally : List.Forall₂ (TallyEntry.Like (K.value w)) e.tally.entries f.tally.entries
  completed : e.completed = f.completed
  done : e.done = f.done
  limit : e.limit = f.limit
  k : K.receiver w e.k f.k
  address : e.address = f.address
  store : K.Stores w e.store f.store

inductive Coroutines : Coroutine → Coroutine → Prop
  | engine {e f : Engine} : K.Engines w e f → Coroutines (.engine e) (.engine f)
  | script (i : Nat) : K.shared → Coroutines (.script i) (.script i)

/-- The coroutines that both runs installed correspond, above those of each run alone. -/
def Stacks (cs ds : List Coroutine) : Prop :=
  ∃ cs' ds', cs = cs' ++ K.base ∧ ds = ds' ++ K.base' ∧ List.Forall₂ (K.Coroutines w) cs' ds'

/-- Tables of cached functions that correspond. -/
inductive Tables : Nat × List (String × Value) → Nat × List (String × Value) → Prop
  | mk {i j : Nat} {t u : List (String × Value)} :
      K.ids w i j → K.Stores w t u → Tables (i, t) (j, u)

/-- States in which the same goes on. -/
structure States (m n : Machine) : Prop where
  store : K.Stores w m.store n.store
  counters : K.counters w m.nextId n.nextId
  floor : K.floor ≤ m.nextId
  floor' : K.floor' ≤ n.nextId
  stack : K.Stacks w m.stack n.stack
  tables : K.shared → List.Forall₂ (K.Tables w) m.tables n.tables
  scripts : K.shared → List.Forall₂ ScriptAlike m.scripts n.scripts
  supply : K.shared → m.supply = n.supply
  output : K.heard → m.output = n.output

end Definitions

variable {K : Kinship} {w : K.World} {m n : Machine} {e f : Engine} {i j : Nat}
  {ds : List Coroutine}

theorem Engines.withinLimit_eq (h : K.Engines w e f) : e.withinLimit = f.withinLimit := by
  rw [Engine.withinLimit, Engine.withinLimit, h.limit, h.completed]

theorem Engines.postpone {k k' : Value} {d d' : Dist} {s t : Store} {vs ws : List Value}
    (h : K.Engines w e f) (hk : K.receiver w k k') (hs : K.Stores w s t)
    (hvs : List.Forall₂ (fun v v' => K.value w v v' ∧ d.score v = d'.score v') vs ws) :
    K.Engines w (e.postpone k d s vs) (f.postpone k' d' t ws) := by
  refine { h with frontier := ?_ }
  rw [Engine.postpone, Engine.postpone, h.score]
  have hx := h.frontier
  dsimp only
  generalize e.frontier = x at hx ⊢
  generalize f.frontier = y at hx ⊢
  induction hvs generalizing x y with
  | nil => exact hx
  | cons hv _ ih => exact ih _ _ (hx.push (fun _ _ h => h.score) ⟨hk, hv.1, by rw [hv.2], hs⟩)

theorem floor_le (h : K.shared) (i : Nat) : K.floor ≤ i := by
  rw [(K.alone h).2.2]
  exact Nat.zero_le i

theorem replaceEngine_coroutines {c d : Coroutine} (h : K.Engines w e f)
    (hc : K.Coroutines w c d) : K.Coroutines w (replaceEngine e c) (replaceEngine f d) := by
  cases hc with
  | script i hs => exact .script i hs
  | engine hg =>
    simp only [replaceEngine, K.unique hg.id h.id]
    split_ifs
    · exact .engine h
    · exact .engine hg

theorem findEngine?_coroutines (hids : K.ids w i j) (hs : List.Forall₂ (K.Coroutines w) cs ds) :
    Option.Rel (K.Engines w) (findEngine? i cs) (findEngine? j ds) := by
  induction hs with
  | nil => exact .none
  | cons hc _ ih =>
    simp only [findEngine?, List.findSome?_cons]
    cases hc with
    | script => exact ih
    | engine he =>
      simp only [K.unique he.id hids]
      split_ifs
      · exact .some he
      · exact ih

theorem Stacks.uncons (h : K.Stacks w cs ds) (hdeep : K.base.length < cs.length) :
    ∃ c d cs' ds', cs = c :: cs' ∧ ds = d :: ds' ∧ K.Coroutines w c d ∧ K.Stacks w cs' ds' := by
  obtain ⟨cs', ds', rfl, rfl, hs⟩ := h
  cases hs with
  | nil => simp at hdeep
  | cons hc hs => exact ⟨_, _, _, _, rfl, rfl, hc, _, _, rfl, rfl, hs⟩

theorem Deep.putEngine (hdeep : K.Deep m) (e : Engine) : K.Deep (m.putEngine e) := by
  simpa only [Footing.Deep, Machine.putEngine, List.length_map] using hdeep

theorem lookup_tables {ts us : List (Nat × List (String × Value))} (hids : K.ids w i j)
    (hs : List.Forall₂ (K.Tables w) ts us) :
    Option.Rel (K.Stores w) (ts.lookup i) (us.lookup j) := by
  induction hs with
  | nil => exact .none
  | cons ht _ ih =>
    obtain ⟨hids', hentries⟩ := ht
    simp only [List.lookup_cons, beq_eq_decide, K.unique hids hids']
    split
    · exact .some hentries
    · exact ih

theorem lookup_stores {fs gs : List (String × Value)} (key : String) (hs : K.Stores w fs gs) :
    Option.Rel (K.value w) (fs.lookup key) (gs.lookup key) := by
  induction hs with
  | nil => exact .none
  | cons hf _ ih =>
    obtain ⟨hv⟩ := hf
    simp only [List.lookup_cons]
    split
    · exact .some hv
    · exact ih

namespace States

theorem withStore (hm : K.States w m n) {s t : Store} (h : K.Stores w s t) :
    K.States w { m with store := s } { n with store := t } :=
  { hm with store := h }

theorem withStack (hm : K.States w m n) {cs ds : List Coroutine} (h : K.Stacks w cs ds) :
    K.States w { m with stack := cs } { n with stack := ds } :=
  { hm with stack := h }

theorem install (hm : K.States w m n) (h : K.Engines w e f) :
    K.States w (m.install (.engine e)) (n.install (.engine f)) := by
  refine hm.withStack ?_
  obtain ⟨cs, ds, hcs, hds, hs⟩ := hm.stack
  refine ⟨.engine e :: cs, .engine f :: ds, ?_, ?_, .cons (.engine h) hs⟩
  · rw [hcs, List.cons_append]
  · rw [hds, List.cons_append]

theorem uninstall (hm : K.States w m n) (hdeep : K.Deep m) :
    K.States w m.uninstall.2 n.uninstall.2 := by
  obtain ⟨c, d, cs, ds, hcs, hds, _, hs⟩ := hm.stack.uncons hdeep
  refine hm.withStack ?_
  rw [hcs, hds]
  exact hs

theorem putEngine (hm : K.States w m n) (h : K.Engines w e f) :
    K.States w (m.putEngine e) (n.putEngine f) := by
  refine hm.withStack ?_
  obtain ⟨cs, ds, hcs, hds, hs⟩ := hm.stack
  refine ⟨cs.map (replaceEngine e), ds.map (replaceEngine f), ?_, ?_, ?_⟩
  · have hbase : K.base.map (replaceEngine e) = K.base :=
      map_replaceEngine_of_lt fun hg => Nat.lt_of_lt_of_le (K.below hg) h.floor
    rw [hcs, ← hbase, ← List.map_append, hbase]
    rfl
  · have hbase : K.base'.map (replaceEngine f) = K.base' :=
      map_replaceEngine_of_lt fun hg => Nat.lt_of_lt_of_le (K.below' hg) h.floor'
    rw [hds, ← hbase, ← List.map_append, hbase]
    rfl
  · rw [List.forall₂_map_left_iff, List.forall₂_map_right_iff]
    exact hs.imp fun c d hc => replaceEngine_coroutines h hc

/-- An enumeration that the first run finds at or above the floor was installed by both runs. -/
theorem engine? (hm : K.States w m n) (hids : K.ids w i j) (hfloor : K.floor ≤ i)
    (he : m.engine? i = some e) :
    K.Deep m ∧ ∃ f, n.engine? j = some f ∧ K.Engines w e f := by
  obtain ⟨cs, ds, hcs, hds, hs⟩ := hm.stack
  have hbase : findEngine? i K.base = none := by
    rw [findEngine?, List.findSome?_eq_none_iff]
    intro c hc
    cases c with
    | script => rfl
    | engine f =>
      have hne : f.id ≠ i := Nat.ne_of_lt (Nat.lt_of_lt_of_le (K.below hc) hfloor)
      simp only [hne, if_false]
  have hrel := findEngine?_coroutines hids hs
  rw [engine?_append hcs, hbase, Option.or_none] at he
  rw [he] at hrel
  rw [engine?_append hds]
  generalize findEngine? j ds = y at hrel ⊢
  cases hrel with
  | some hef =>
    refine ⟨?_, _, rfl, hef⟩
    cases cs with
    | nil => cases he
    | cons c cs =>
      rw [Footing.Deep, hcs, List.cons_append, List.length_cons, List.length_append]
      omega

/-- What the first run does not find, the second does not find either, if the runs share all they
have. -/
theorem engine?_none (hm : K.States w m n) (hids : K.ids w i j) (hshared : K.shared)
    (hnone : m.engine? i = none) : n.engine? j = none := by
  obtain ⟨cs, ds, hcs, hds, hs⟩ := hm.stack
  obtain ⟨hbase, hbase', _⟩ := K.alone hshared
  have hrel := findEngine?_coroutines hids hs
  rw [engine?_append hcs, hbase] at hnone
  rw [engine?_append hds, hbase']
  generalize findEngine? i cs = x at hrel hnone
  generalize findEngine? j ds = y at hrel ⊢
  cases hrel with
  | none => rfl
  | some => cases hnone

/-- The innermost coroutines correspond, if it is one that both runs installed or if the runs share
all they have. -/
theorem head? (hm : K.States w m n) (h : K.shared ∨ K.Deep m) :
    Option.Rel (fun c d => K.Coroutines w c d ∧ K.Deep m) m.stack.head? n.stack.head? ∧
      (m.stack.head? = none → K.shared) := by
  by_cases hdeep : K.Deep m
  · obtain ⟨c, d, cs, ds, hcs, hds, hcd, _⟩ := hm.stack.uncons hdeep
    rw [hcs, hds]
    exact ⟨.some ⟨hcd, hdeep⟩, nofun⟩
  · have hshared := h.resolve_right hdeep
    obtain ⟨cs, ds, hcs, hds, hs⟩ := hm.stack
    obtain ⟨hbase, hbase', _⟩ := K.alone hshared
    cases hs with
    | nil =>
      rw [hcs, hds, hbase, hbase']
      exact ⟨.none, fun _ => hshared⟩
    | cons =>
      rw [Footing.Deep, hcs, hbase] at hdeep
      simp at hdeep

theorem answer {d d' : Dist} (o o' : Value) (i : Nat) (address : String) (hm : K.States w m n)
    (hshared : K.shared) (hd : DistLike (K.value w) d d') :
    K.value w (m.answer i address d o).1 (n.answer i address d' o').1 ∧
      K.States w (m.answer i address d o).2 (n.answer i address d' o').2 := by
  have hscript := getElem?_rel (hm.scripts hshared) i
  have hundefined := (K.semblance w).undefined
  have hsupport : List.Forall₂ (K.value w) (d.support.getD []) (d'.support.getD []) :=
    optionGetD_rel ((K.semblance w).support hd) .nil
  simp only [Machine.answer]
  generalize m.scripts[i]? = x at hscript ⊢
  generalize n.scripts[i]? = y at hscript ⊢
  cases hscript with
  | none => exact ⟨hundefined, hm⟩
  | @some s t h =>
    obtain ⟨hchoices, hanswered⟩ := h
    simp only [hchoices, hanswered, hsupport.length_eq]
    refine ⟨optionGetD_rel (getElem?_rel hsupport _) hundefined, ?_⟩
    exact { hm with scripts := fun _ => set_rel (hm.scripts hshared) i ⟨rfl, rfl⟩ }

theorem note (i : Nat) (address : String) (x : Float) (hm : K.States w m n) (hshared : K.shared) :
    K.States w (m.note i address x) (n.note i address x) := by
  have hscript := getElem?_rel (hm.scripts hshared) i
  simp only [Machine.note]
  generalize m.scripts[i]? = x at hscript ⊢
  generalize n.scripts[i]? = y at hscript ⊢
  cases hscript with
  | none => exact hm
  | some h =>
    exact { hm with
      scripts := fun _ => set_rel (hm.scripts hshared) i ⟨h.choices, h.answered⟩ }

theorem cached? (key : String) (hm : K.States w m n) (hids : K.ids w i j) (hshared : K.shared) :
    Option.Rel (K.value w) (m.cached? i key) (n.cached? j key) := by
  have htable := lookup_tables hids (hm.tables hshared)
  simp only [Machine.cached?]
  generalize m.tables.lookup i = x at htable ⊢
  generalize n.tables.lookup j = y at htable ⊢
  cases htable with
  | none => exact .none
  | some hs => exact lookup_stores key hs

theorem remember {v v' : Value} (key : String) (hm : K.States w m n) (hids : K.ids w i j)
    (hv : K.value w v v') : K.States w (m.remember i key v) (n.remember j key v') := by
  refine { hm with tables := fun hshared => ?_ }
  have htable := lookup_tables hids (hm.tables hshared)
  refine .cons ⟨hids, .cons ⟨hv⟩ (optionGetD_rel htable .nil)⟩ ?_
  refine filter_rel (hm.tables hshared) ?_
  rintro _ _ ⟨hids', _⟩
  simp only [ne_eq, K.unique hids' hids]

end States

end Kinship

end Chance
