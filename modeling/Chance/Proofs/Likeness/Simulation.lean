import Chance.Proofs.Likeness.Kinship

/-!
# Steps of runs that correspond

A `Simulation` says what it means that two computations go alike, with one rule for each way to put
computations together. The rules are all that is needed to see that whatever the machine does, other
than entering a function of the program, goes alike in states that correspond. What a run takes the
text of is left to the hypotheses, as is what it asks of coroutines that only one run installed.

- `Loop.Layer`, `Cont.Layer`: loops and continuations that do the same,
- `Simulation`: computations that go alike,
- `Simulation.builtin`, `Simulation.callCached`, `Simulation.receive`, `Simulation.iterateLoop`: the
  parts of a step.
-/

namespace Chance

/-- The score that a loop over the values of a distribution gives to an item. -/
def Loop.scoreOf : Loop → Value → Option Float
  | .gather .., _ => none
  | .weigh _ _ _ d _ _ _, v => some (d.score v)

/-- Loops that do the same, with functions and values related by `V`, continuations by `R` and
identities by `I`. -/
inductive Loop.Layer (V R : Value → Value → Prop) (I : Nat → Nat → Prop) : Loop → Loop → Prop
  | gather {k k' f f' : Value} (how : Gather) (address : String) :
      R k k' → V f f' → Loop.Layer V R I (.gather how k address f) (.gather how k' address f')
  | weigh {i j : Nat} {k k' f f' : Value} {d d' : Dist} {s s' : Store} (address : String)
      (base : Float) : I i j → R k k' → DistLike V d d' → V f f' →
      List.Forall₂ (FieldLike V) s s' →
      Loop.Layer V R I (.weigh i k address d f s base) (.weigh j k' address d' f' s' base)

/-- Loops that do the same and give the same scores to the items that are left. -/
structure Loop.Items (L : Loop → Loop → Prop) (V : Value → Value → Prop) (l l' : Loop)
    (rest rest' : List Value) : Prop where
  loop : L l l'
  items : List.Forall₂ V rest rest'
  scores : rest.map l.scoreOf = rest'.map l'.scoreOf

/-- Continuations of the machine's own that do the same. -/
inductive Cont.Layer (V R : Value → Value → Prop) (I : Nat → Nat → Prop) (L : Loop → Loop → Prop) :
    Cont → Cont → Prop
  | exit : Cont.Layer V R I L .exit .exit
  | collect {l l' : Loop} {rest rest' : List Value} {acc acc' item item' : Value} (index : Nat) :
      Loop.Items L V l l' rest rest' → V acc acc' → V item item' →
      l.scoreOf item = l'.scoreOf item' →
      Cont.Layer V R I L (.collect l index rest acc item) (.collect l' index rest' acc' item')
  | remember {i j : Nat} {k k' : Value} (key : String) :
      I i j → R k k' → Cont.Layer V R I L (.remember i key k) (.remember j key k')
  | drawn {k k' f f' : Value} (address : String) :
      R k k' → V f f' → Cont.Layer V R I L (.drawn k address f) (.drawn k' address f')
  | scored {k k' v v' : Value} (address : String) :
      R k k' → V v v' → Cont.Layer V R I L (.scored k address v) (.scored k' address v')
  | weighted {k k' v v' : Value} :
      R k k' → V v v' → Cont.Layer V R I L (.weighted k v) (.weighted k' v')
  | leave {i j : Nat} : I i j → Cont.Layer V R I L (.leave i) (.leave j)

/-- Steps with related tasks, or with related values at the end. -/
inductive Step.Layer (T : Task → Task → Prop) (V : Value → Value → Prop) : Step → Step → Prop
  | bounce {t u : Task} : T t u → Step.Layer T V (.bounce t) (.bounce u)
  | through {t u : Task} : T t u → Step.Layer T V (.through t) (.through u)
  | done {v v' : Value} : V v v' → Step.Layer T V (.done v) (.done v')

/-- A continuation, if there is one, and further arguments. -/
inductive Kinship.Args (K : Kinship) (w : K.World) : List Value → List Value → Prop
  | nil : K.receiver w .undefined .undefined → Args K w [] []
  | cons {k k' : Value} {vs ws : List Value} :
      K.receiver w k k' → List.Forall₂ (K.value w) vs ws → Args K w (k :: vs) (k' :: ws)

/-- Computations that go alike in states that correspond. -/
structure Simulation extends Kinship where
  along : ∀ {α β : Type}, World → (World → α → β → Prop) → Exec α → Exec β →
    Machine → Machine → Prop
  le : World → World → Prop
  cont : World → Cont → Cont → Prop
  loop : World → Loop → Loop → Prop
  task : World → Task → Task → Prop
  /-- Whether the second run is free where the first one fails. -/
  lax : Prop
  grounded : lax ∨ shared
  value_mono : ∀ {w w' v v'}, le w w' → value w v v' → value w' v v'
  receiver_mono : ∀ {w w' v v'}, le w w' → receiver w v v' → receiver w' v v'
  ids_mono : ∀ {w w' i j}, le w w' → ids w i j → ids w' i j
  cached : ∀ {w i j f g}, ids w i j → value w f g → value w (.cached i f) (.cached j g)
  loop_iff : ∀ {w l l'}, loop w l l' ↔ Loop.Layer (value w) (receiver w) (ids w) l l'
  cont_iff : ∀ {w c d}, cont w c d ↔ Cont.Layer (value w) (receiver w) (ids w) (loop w) c d
  call : ∀ {w f g vs ws}, value w f g → toKinship.Args w vs ws → task w (.call f vs) (.call g ws)
  resume : ∀ {w k k' v v'}, receiver w k k' → value w v v' → task w (.call k [v]) (.call k' [v'])
  turn : ∀ {w l l' rest rest' acc acc'} (index), Loop.Items (loop w) (value w) l l' rest rest' →
    value w acc acc' → task w (.turn l index rest acc) (.turn l' index rest' acc')
  iterate : ∀ {w l l' rest rest' acc acc'} (index),
    Loop.Items (loop w) (value w) l l' rest rest' → value w acc acc' →
    task w (.iterate l index rest acc) (.iterate l' index rest' acc')
  enter : ∀ {w e f thunk thunk' exit exit'}, toKinship.Engines w e f → value w thunk thunk' →
    receiver w exit exit' → task w (.enter e thunk exit) (.enter f thunk' exit')
  pure : ∀ {α β w m n a b} {Q : World → α → β → Prop}, toKinship.States w m n → Q w a b →
    along w Q (pure a) (pure b) m n
  throw : ∀ {α β w m n e e'} {Q : World → α → β → Prop}, toKinship.States w m n →
    e.SameFault (value w) e' → along w Q (throw e) (throw e') m n
  throw_lax : ∀ {α β w m n e y} {Q : World → α → β → Prop}, lax → toKinship.States w m n →
    e.isMalformed = false → along w Q (MonadExcept.throw e) y m n
  bind : ∀ {α β γ δ w m n x y} {Q : World → α → β → Prop} {S : World → γ → δ → Prop}
    {f : α → Exec γ} {g : β → Exec δ}, along w Q x y m n →
    (∀ w' a b m' n', le w w' → Q w' a b → toKinship.States w' m' n' →
      along w' S (f a) (g b) m' n') → along w S (x >>= f) (y >>= g) m n
  /-- All that counts is how the computations end. -/
  of_eq : ∀ {α β w m n m' n' x' y'} {Q : World → α → β → Prop} {x : Exec α} {y : Exec β},
    along w Q x' y' m' n' → x m = x' m' → y n = y' n' → m'.nextId = m.nextId →
    n'.nextId = n.nextId → along w Q x y m n
  freshId : ∀ {γ δ w m n} {S : World → γ → δ → Prop} {f : Nat → Exec γ} {g : Nat → Exec δ},
    toKinship.States w m n →
    (∀ w' i j m' n', le w w' → ids w' i j → floor ≤ i → floor' ≤ j →
      toKinship.States w' m' n' → along w' S (f i) (g j) m' n') →
    along w S (Exec.freshId >>= f) (Exec.freshId >>= g) m n
  newCont : ∀ {γ δ w m n c d} {S : World → γ → δ → Prop} {f : Value → Exec γ}
    {g : Value → Exec δ}, toKinship.States w m n → cont w c d →
    (∀ w' k k' m' n', le w w' → receiver w' k k' → toKinship.States w' m' n' →
      along w' S (f k) (g k') m' n') →
    along w S (Exec.newCont c >>= f) (Exec.newCont d >>= g) m n
  newDist : ∀ {w m n d e}, toKinship.States w m n → DistAlike (value w) d e →
    along w value (Exec.newDist d) (Exec.newDist e) m n

namespace Simulation

variable (S : Simulation) {w : S.World} {m n : Machine} {α β γ δ : Type} {k k' : Value}

abbrev step (w : S.World) : Step → Step → Prop :=
  Step.Layer (S.task w) (S.value w)

theorem resume_step {v v' : Value} (hk : S.receiver w k k') (hv : S.value w v v') :
    S.step w (Step.resume k v) (Step.resume k' v') :=
  .bounce (S.resume hk hv)

/-! ## Rules -/

section Rules

variable {Q : S.World → γ → δ → Prop} {x : PUnit → Exec γ} {y : PUnit → Exec δ}

theorem lift_bind {R : α → β → Prop} {x : Except Error α} {y : Except Error β} {f : α → Exec γ}
    {g : β → Exec δ} (hm : S.States w m n) (h : Agrees (S.value w) R x y)
    (hk : ∀ a b, R a b → S.along w Q (f a) (g b) m n) :
    S.along w Q (liftM x >>= f) (liftM y >>= g) m n := by
  cases h with
  | ok hab => exact hk _ _ hab
  | error he => exact S.throw hm he

theorem get_bind {f : Machine → Exec γ} {g : Machine → Exec δ}
    (h : S.along w Q (f m) (g n) m n) : S.along w Q (get >>= f) (get >>= g) m n :=
  S.of_eq h rfl rfl rfl rfl

theorem modify_bind {f g : Machine → Machine} (hf : (f m).nextId = m.nextId)
    (hg : (g n).nextId = n.nextId) (h : S.along w Q (x ⟨⟩) (y ⟨⟩) (f m) (g n)) :
    S.along w Q (modify f >>= x) (modify g >>= y) m n :=
  S.of_eq h rfl rfl hf hg

theorem set_bind {m' n' : Machine} (hm : m'.nextId = m.nextId) (hn : n'.nextId = n.nextId)
    (h : S.along w Q (x ⟨⟩) (y ⟨⟩) m' n') : S.along w Q (set m' >>= x) (set n' >>= y) m n :=
  S.of_eq h rfl rfl hm hn

end Rules

/-! ## Enumerations -/

section Enumerations

variable {S} {e f : Engine} {d d' : Dist}

theorem live_bind {i j : Nat} (hids : S.ids w i j) (hfloor : S.floor ≤ i) (hm : S.States w m n)
    {f g : Engine → Exec Step}
    (h : ∀ e e', S.Engines w e e' → m.engine? i = some e → S.Deep m →
      S.along w S.step (f e) (g e') m n) :
    S.along w S.step (Engine.live i >>= f) (Engine.live j >>= g) m n := by
  have hstale {x : Engine → Exec Step} {y : Exec Step}
      (hleft : (Engine.live i >>= x) m = .error (.stale "Enumerate") m)
      (hright : S.shared → y n = .error (.stale "Enumerate") n) :
      S.along w S.step (Engine.live i >>= x) y m n := by
    rcases S.grounded with hlax | hshared
    · exact S.of_eq (S.throw_lax hlax hm rfl) hleft rfl rfl rfl
    · exact S.of_eq (S.throw hm (.refl rfl)) hleft (hright hshared) rfl rfl
  cases he : m.engine? i with
  | none =>
    refine hstale (by rw [Engine.live_bind, he]) fun hshared => ?_
    rw [Engine.live_bind, hm.engine?_none hids hshared he]
  | some e =>
    obtain ⟨hdeep, e', he', hee'⟩ := hm.engine? hids hfloor he
    cases hdone : e.done with
    | true =>
      refine hstale (by simp only [Engine.live_bind, he, hdone, if_true]) fun _ => ?_
      simp only [Engine.live_bind, he', ← hee'.done, hdone, if_true]
    | false =>
      refine S.of_eq (h e e' hee' he hdeep) ?_ ?_ rfl rfl
      · simp only [Engine.live_bind, he, hdone, Bool.false_eq_true, if_false]
      · simp only [Engine.live_bind, he', ← hee'.done, hdone, Bool.false_eq_true, if_false]

theorem finish (he : S.Engines w e f) (hm : S.States w m n) (hdeep : S.Deep m) :
    S.along w S.step e.finish f.finish m n := by
  refine S.lift_bind hm (Tally.marginal_like he.tally) fun d d' hd => ?_
  have hclosed : S.Engines w { e with done := true, frontier := e.frontier.clear }
      { f with done := true, frontier := f.frontier.clear } :=
    { he with done := rfl, frontier := he.frontier.clear }
  have hm' := ((hm.putEngine hclosed).uninstall (Kinship.Deep.putEngine hdeep _)).withStore he.store
  refine S.modify_bind rfl rfl (S.modify_bind rfl rfl (S.modify_bind rfl rfl ?_))
  refine S.bind (S.newDist hm' hd) ?_
  intro w' v v' m' n' hw hv hm''
  exact S.pure hm'' (S.resume_step (S.receiver_mono hw he.k) hv)

theorem advance (he : S.Engines w e f) (hm : S.States w m n) (hdeep : S.Deep m) :
    S.along w S.step e.advance f.advance m n := by
  have hpop := he.frontier.pop?
  have hfinish := finish he hm hdeep
  simp only [Engine.advance]
  generalize e.frontier.pop? = x at hpop ⊢
  generalize f.frontier.pop? = y at hpop ⊢
  cases hpop with
  | none => exact hfinish
  | @some p q h =>
    obtain ⟨entry, rest⟩ := p
    obtain ⟨entry', rest'⟩ := q
    obtain ⟨hentry, hrest⟩ := h
    have htaken : S.Engines w { e with score := entry.score, frontier := rest }
        { f with score := entry'.score, frontier := rest' } :=
      { he with score := hentry.score, frontier := hrest }
    exact S.modify_bind rfl rfl (S.modify_bind rfl rfl
      (S.pure ((hm.putEngine htaken).withStore hentry.store)
        (S.resume_step hentry.k hentry.value)))

theorem leave {v v' : Value} (he : S.Engines w e f) (hv : S.value w v v')
    (htext : Tally.counts e.score = true → v.text = v'.text) (hm : S.States w m n)
    (hdeep : S.Deep m) : S.along w S.step (e.leave v) (f.leave v') m n := by
  have hcounted : S.Engines w
      { e with tally := e.tally.add v e.score, completed := e.completed + 1 }
      { f with tally := f.tally.add v' f.score, completed := f.completed + 1 } :=
    { he with
      tally := he.score ▸ Tally.add_like e.score he.tally hv htext
      completed := by rw [he.completed] }
  have hm' := hm.putEngine hcounted
  have hdeep' := Kinship.Deep.putEngine hdeep
    { e with tally := e.tally.add v e.score, completed := e.completed + 1 }
  refine S.modify_bind rfl rfl ?_
  simp only [hcounted.withinLimit_eq, hcounted.frontier.isEmpty_eq]
  split_ifs
  · exact advance hcounted hm' hdeep'
  · exact finish hcounted hm' hdeep'

theorem sample (he : S.Engines w e f) (hk : S.receiver w k k') (hd : DistAlike (S.value w) d d')
    (hm : S.States w m n) (hdeep : S.Deep m) :
    S.along w S.step (e.sample k d) (f.sample k' d') m n := by
  refine S.lift_bind hm ((S.semblance w).enumerable hd) fun vs ws hvs => ?_
  have hpostponed := he.postpone hk hm.store hvs
  exact S.get_bind (S.modify_bind rfl rfl
    (advance hpostponed (hm.putEngine hpostponed) (Kinship.Deep.putEngine hdeep _)))

theorem factor (x : Float) (he : S.Engines w e f) (hk : S.receiver w k k') (hm : S.States w m n)
    (hdeep : S.Deep m) : S.along w S.step (e.factor k x) (f.factor k' x) m n := by
  have hscored : S.Engines w { e with score := e.score + x } { f with score := f.score + x } :=
    { he with score := by rw [he.score] }
  have hundefined := (S.semblance w).undefined
  have hm' := hm.putEngine hscored
  have hleave := leave hscored hundefined (fun _ => rfl) hm' (Kinship.Deep.putEngine hdeep _)
  refine S.modify_bind rfl rfl ?_
  dsimp only
  rw [← he.score]
  rw [← he.score] at hleave hm'
  split_ifs
  · exact hleave
  · exact S.pure hm' (S.resume_step hk hundefined)

theorem sampleWithFactor {s s' : Value} (address : String) (he : S.Engines w e f)
    (hk : S.receiver w k k') (hd : DistAlike (S.value w) d d') (hs : S.value w s s')
    (hm : S.States w m n) :
    S.along w S.step (e.sampleWithFactor k address d s) (f.sampleWithFactor k' address d' s')
      m n := by
  refine S.lift_bind hm ((S.semblance w).enumerable hd) fun vs ws hvs => S.get_bind ?_
  rw [← he.score]
  refine S.pure hm (.through (S.iterate 0 ⟨?_, hvs.imp fun _ _ hv => hv.1, ?_⟩
    (S.semblance w).undefined))
  · exact S.loop_iff.2 (.weigh address e.score he.id hk hd.like hs hm.store)
  · exact map_eq_of_forall₂ hvs fun v v' hv => congrArg some hv.2

/-! ## Requests -/

theorem sampleAt {o o' : Value} (address : String) (hk : S.receiver w k k')
    (hd : DistAlike (S.value w) d d') (hm : S.States w m n) (h : S.shared ∨ S.Deep m) :
    S.along w S.step (Chance.sampleAt k address d o) (Chance.sampleAt k' address d' o') m n := by
  obtain ⟨hhead, hnone⟩ := hm.head? h
  refine S.get_bind ?_
  generalize m.stack.head? = x at hhead hnone ⊢
  generalize n.stack.head? = y at hhead ⊢
  cases hhead with
  | some hc =>
    obtain ⟨hc, hdeep⟩ := hc
    cases hc with
    | engine he => exact sample he hk hd hm hdeep
    | script i hshared =>
      have hanswer := hm.answer o o' i address hshared hd.like
      have hids (m : Machine) (d : Dist) (o : Value) :
          (m.answer i address d o).2.nextId = m.nextId := by
        unfold Machine.answer
        split <;> rfl
      exact S.get_bind (S.set_bind (hids _ _ _) (hids _ _ _)
        (S.pure hanswer.2 (S.resume_step hk hanswer.1)))
  | none =>
    have hsample := (S.semblance w).sample hd.like n.supply
    refine S.get_bind (S.set_bind rfl rfl ?_)
    rw [hm.supply (hnone rfl)]
    exact S.pure { hm with supply := fun _ => hsample.2 } (S.resume_step hk hsample.1)

theorem factorAt (address : String) (x : Float) (hk : S.receiver w k k') (hm : S.States w m n)
    (h : S.shared ∨ S.Deep m) :
    S.along w S.step (Chance.factorAt k address x) (Chance.factorAt k' address x) m n := by
  obtain ⟨hhead, _⟩ := hm.head? h
  refine S.get_bind ?_
  generalize m.stack.head? = c at hhead ⊢
  generalize n.stack.head? = c' at hhead ⊢
  cases hhead with
  | some hc =>
    obtain ⟨hc, hdeep⟩ := hc
    cases hc with
    | engine he => exact factor x he hk hm hdeep
    | script i hshared =>
      have hids (m : Machine) : (m.note i address x).nextId = m.nextId := by
        unfold Machine.note
        split <;> rfl
      exact S.modify_bind (hids m) (hids n)
        (S.pure (hm.note i address x hshared) (S.resume_step hk (S.semblance w).undefined))
  | none => exact S.throw hm (.refl rfl)

theorem sampleWithFactorAt {s s' : Value} (address : String) (hk : S.receiver w k k')
    (hd : DistAlike (S.value w) d d') (hs : S.value w s s') (hm : S.States w m n)
    (hshared : S.shared) :
    S.along w S.step (Chance.sampleWithFactorAt k address d s)
      (Chance.sampleWithFactorAt k' address d' s') m n := by
  obtain ⟨hhead, _⟩ := hm.head? (.inl hshared)
  have hdraw : S.along w S.step
      (do let after ← Exec.newCont (.drawn k address s)
          Chance.sampleAt after address d .undefined)
      (do let after ← Exec.newCont (.drawn k' address s')
          Chance.sampleAt after address d' .undefined) m n :=
    S.newCont hm (S.cont_iff.2 (.drawn address hk hs)) fun w' v v' m' n' hw hv hm' =>
      sampleAt address hv ⟨hd.like.imp (S.value_mono hw), hd.texts⟩ hm' (.inl hshared)
  refine S.get_bind ?_
  generalize m.stack.head? = c at hhead ⊢
  generalize n.stack.head? = c' at hhead ⊢
  cases hhead with
  | some hc =>
    obtain ⟨hc, -⟩ := hc
    cases hc with
    | engine he => exact sampleWithFactor address he hk hd hs hm
    | script i _ => exact hdraw
  | none => exact hdraw

end Enumerations

/-! ## Calls -/

section Calls

variable {S} {vs ws : List Value}

theorem startEnumeration {thunk thunk' : Value} (address : String) (options : EnumerateOptions)
    (hk : S.receiver w k k') (ht : S.value w thunk thunk') (hm : S.States w m n) :
    S.along w S.step (Chance.startEnumeration k address thunk options)
      (Chance.startEnumeration k' address thunk' options) m n := by
  refine S.freshId hm fun w₁ i j m₁ n₁ hw₁ hids hfloor hfloor' hm₁ => S.get_bind ?_
  refine S.newCont hm₁ (S.cont_iff.2 (.leave hids)) fun w₂ v v' m₂ n₂ hw₂ hv hm₂ => ?_
  refine S.pure hm₂ (.bounce (S.enter ?_ (S.value_mono hw₂ (S.value_mono hw₁ ht)) hv))
  exact
    { id := S.ids_mono hw₂ hids
      floor := hfloor
      floor' := hfloor'
      score := rfl
      frontier := .empty _
      tally := .nil
      completed := rfl
      done := rfl
      limit := rfl
      k := S.receiver_mono hw₂ (S.receiver_mono hw₁ hk)
      address := rfl
      store := hm₁.store.imp fun _ _ hf => hf.imp (S.value_mono hw₂) }

theorem args_caller (hs : S.Args w vs ws) :
    S.receiver w (argument vs 0) (argument ws 0) := by
  cases hs with
  | nil hk => exact hk
  | cons hk _ => exact hk

theorem args_drop (hs : S.Args w vs ws) (i : Nat) :
    List.Forall₂ (S.value w) (vs.drop (i + 1)) (ws.drop (i + 1)) := by
  cases hs with
  | nil _ => exact .nil
  | cons _ hs => exact List.forall₂_drop i hs

theorem args_argument (hs : S.Args w vs ws) (i : Nat) :
    S.value w (argument vs (i + 1)) (argument ws (i + 1)) := by
  cases hs with
  | nil _ => exact (S.semblance w).undefined
  | cons _ hs => exact (S.semblance w).argument hs i

theorem callerOf (hs : S.Args w vs ws) :
    Agrees (S.value w) (fun p q => S.receiver w p.1 q.1 ∧ p.2 = q.2) (Chance.callerOf vs)
      (Chance.callerOf ws) := by
  refine ((S.semblance w).toAddress (args_argument hs 0)).bind ?_
  rintro a _ rfl
  exact .ok ⟨args_caller hs, rfl⟩

theorem gatherCalls (how : Gather) (hs : S.Args w vs ws) (hm : S.States w m n) :
    S.along w S.step (Chance.gatherCalls how vs) (Chance.gatherCalls how ws) m n := by
  have L := S.semblance w
  refine S.lift_bind hm (callerOf hs) ?_
  rintro ⟨k, a⟩ ⟨k', _⟩ ⟨hk, rfl⟩
  refine S.lift_bind hm (L.toItems (args_argument hs 2)) fun items items' hitems => ?_
  refine S.pure hm (.through (S.iterate 0 ⟨?_, hitems, ?_⟩ ?_))
  · exact S.loop_iff.2 (.gather how a hk (args_argument hs 1))
  · exact map_eq_of_forall₂ hitems fun _ _ _ => rfl
  · cases how with
    | forEach => exact L.undefined
    | _ => exact L.array .nil

theorem repeatCalls (hs : S.Args w vs ws) (hm : S.States w m n) :
    S.along w S.step (Chance.repeatCalls vs) (Chance.repeatCalls ws) m n := by
  have L := S.semblance w
  refine S.lift_bind hm (callerOf hs) ?_
  rintro ⟨k, a⟩ ⟨k', _⟩ ⟨hk, rfl⟩
  refine S.lift_bind hm (L.toNumber (args_argument hs 1)) ?_
  rintro x _ rfl
  dsimp only
  split_ifs
  · exact S.throw hm (.refl rfl)
  · refine S.pure hm (.through (S.iterate 0 ⟨?_, ?_, ?_⟩ (L.array .nil)))
    · exact S.loop_iff.2 (.gather .times a hk (args_argument hs 2))
    · rw [List.forall₂_same]
      intro v hv
      rw [List.eq_of_mem_replicate hv]
      exact L.undefined
    · simp only [List.map_replicate, Loop.scoreOf]

theorem makeCached (hs : S.Args w vs ws) (hm : S.States w m n) :
    S.along w S.step (Chance.makeCached vs) (Chance.makeCached ws) m n := by
  have hf := args_argument hs 1
  simp only [Chance.makeCached, (S.semblance w).isCallable_eq hf]
  split_ifs
  · refine S.freshId hm fun w' i j m' n' hw hids _ _ hm' => S.pure hm' ?_
    exact S.resume_step (S.receiver_mono hw (args_caller hs))
      (S.cached hids (S.value_mono hw hf))
  · exact S.throw hm (.text hf (fun t => .type (.functionExpected "cache" t)) (fun _ _ => rfl)
      fun _ => rfl)

theorem callWithItems (hs : S.Args w vs ws) (hm : S.States w m n) :
    S.along w S.step (Chance.callWithItems vs) (Chance.callWithItems ws) m n := by
  have L := S.semblance w
  refine S.lift_bind hm (callerOf hs) ?_
  rintro ⟨k, a⟩ ⟨k', _⟩ ⟨hk, rfl⟩
  have hv := args_argument hs 2
  have hto := L.toItems hv
  have hcall {items items' : List Value} (hitems : List.Forall₂ (S.value w) items items') :
      S.along w S.step (Pure.pure (.through (.call (argument vs 2) (k :: .str a :: items))))
        (Pure.pure (.through (.call (argument ws 2) (k' :: .str a :: items')))) m n :=
    S.pure hm (.through (S.call (args_argument hs 1) (.cons hk (.cons (L.str a) hitems))))
  dsimp only
  generalize argument vs 3 = v at hv hto ⊢
  generalize argument ws 3 = v' at hv hto ⊢
  cases L.layer hv with
  | undefined => exact hcall .nil
  | _ => exact S.lift_bind hm hto fun _ _ hitems => hcall hitems

theorem enumerateCall (hs : S.Args w vs ws) (hm : S.States w m n) :
    S.along w S.step (Chance.enumerateCall vs) (Chance.enumerateCall ws) m n := by
  have L := S.semblance w
  refine S.lift_bind hm (callerOf hs) ?_
  rintro ⟨k, a⟩ ⟨k', _⟩ ⟨hk, rfl⟩
  have hthunk := args_argument hs 1
  dsimp only
  rw [L.isCallable_eq hthunk]
  split_ifs
  · refine S.lift_bind hm (L.ofValue _ (args_argument hs 2)) ?_
    rintro options _ rfl
    exact startEnumeration a options hk hthunk hm
  · exact S.throw hm (.text hthunk (fun t => .type (.functionExpected "Enumerate" t))
      (fun _ _ => rfl) fun _ => rfl)

theorem inferCall (hs : S.Args w vs ws) (hm : S.States w m n) :
    S.along w S.step (Chance.inferCall vs) (Chance.inferCall ws) m n := by
  have L := S.semblance w
  refine S.lift_bind hm (callerOf hs) ?_
  rintro ⟨k, a⟩ ⟨k', _⟩ ⟨hk, rfl⟩
  have hthunk := args_argument hs 2
  refine S.lift_bind hm (L.ofMethod (args_argument hs 1) hthunk) ?_
  rintro options _ rfl
  exact startEnumeration a options hk hthunk hm

theorem builtin (b : Builtin) (hs : S.Args w vs ws) (hm : S.States w m n)
    (hasked : b = .sample ∨ b = .factor → S.shared ∨ S.Deep m)
    (hshared : b = .sampleWithFactor → S.shared) :
    S.along w S.step (b.run vs) (b.run ws) m n := by
  have L := S.semblance w
  cases b with
  | map | filter | forEach => exact gatherCalls _ hs hm
  | times => exact repeatCalls hs hm
  | cache => exact makeCached hs hm
  | sample =>
    refine S.lift_bind hm (callerOf hs) ?_
    rintro ⟨k, a⟩ ⟨k', _⟩ ⟨hk, rfl⟩
    refine S.lift_bind hm (L.toDist (args_argument hs 1)) fun d d' hd => ?_
    exact sampleAt a hk hd hm (hasked (.inl rfl))
  | factor =>
    refine S.lift_bind hm (callerOf hs) ?_
    rintro ⟨k, a⟩ ⟨k', _⟩ ⟨hk, rfl⟩
    refine S.lift_bind hm (L.toNumber (args_argument hs 1)) ?_
    rintro x _ rfl
    exact factorAt a x hk hm (hasked (.inr rfl))
  | sampleWithFactor =>
    refine S.lift_bind hm (callerOf hs) ?_
    rintro ⟨k, a⟩ ⟨k', _⟩ ⟨hk, rfl⟩
    refine S.lift_bind hm (L.toDist (args_argument hs 1)) fun d d' hd => ?_
    exact sampleWithFactorAt a hk hd (args_argument hs 2) hm (hshared rfl)
  | incrementalize => exact callWithItems hs hm
  | enumerate => exact enumerateCall hs hm
  | infer => exact inferCall hs hm

/-- A cached function takes the text of its arguments. -/
theorem callCached {i j : Nat} {f g : Value} (hids : S.ids w i j) (hf : S.value w f g)
    (hs : S.Args w vs ws) (hm : S.States w m n) (hshared : S.shared)
    (htext : (Value.array (vs.drop 2)).text = (Value.array (ws.drop 2)).text) :
    S.along w S.step (Chance.callCached i f vs) (Chance.callCached j g ws) m n := by
  have hcached := hm.cached? (Value.array (ws.drop 2)).text hids hshared
  refine S.get_bind ?_
  simp only [htext]
  generalize m.cached? i _ = x at hcached ⊢
  generalize n.cached? j _ = y at hcached ⊢
  cases hcached with
  | some hv => exact S.pure hm (S.resume_step (args_caller hs) hv)
  | none =>
    refine S.newCont hm (S.cont_iff.2 (.remember _ hids (args_caller hs))) ?_
    intro w' v v' m' n' hw hv hm'
    refine S.pure hm' (.through (S.call (S.value_mono hw hf) (.cons hv (.cons ?_ ?_))))
    · exact S.value_mono hw (args_argument hs 0)
    · exact (args_drop hs 1).imp fun _ _ => S.value_mono hw

end Calls

/-! ## Loops and continuations -/

section Loops

variable {S} {l l' : Loop} {rest rest' : List Value} {acc acc' item item' v v' : Value}

theorem gatherNext (how : Gather) (hacc : S.value w acc acc') (hitem : S.value w item item')
    (hv : S.value w v v') : S.value w (how.next acc item v) (how.next acc' item' v') := by
  have L := S.semblance w
  have hpush {u u' : Value} (hu : S.value w u u') :
      S.value w (Gather.map.next acc item u) (Gather.map.next acc' item' u') := by
    cases L.layer hacc with
    | array hs => exact L.array (List.rel_append hs (.cons hu .nil))
    | _ => exact L.array (.cons hu .nil)
  cases how with
  | map | times => exact hpush hv
  | filter =>
    simp only [Gather.next, L.truthy_eq hv]
    split_ifs
    · exact hpush hitem
    · exact hacc
  | forEach => exact L.undefined

theorem collectLoop (index : Nat) (hl : Loop.Items (S.loop w) (S.value w) l l' rest rest')
    (hacc : S.value w acc acc') (hitem : S.value w item item')
    (hscore : l.scoreOf item = l'.scoreOf item') (hv : S.value w v v') (hm : S.States w m n)
    (hshared : S.shared ∨ ∃ how k a f, l = .gather how k a f) :
    S.along w S.step (l.collect index rest acc item v) (l'.collect index rest' acc' item' v')
      m n := by
  cases S.loop_iff.1 hl.loop with
  | gather how a hk hf =>
    exact S.pure hm (.bounce (S.turn _ hl (gatherNext how hacc hitem hv)))
  | @weigh i j k k' f f' d d' s s' a base hids hk hd hf hstore =>
    have hall : S.shared := hshared.resolve_right (by rintro ⟨_, _, _, _, h⟩; cases h)
    have hscore : d.score item = d'.score item' := Option.some.inj hscore
    refine S.lift_bind hm ((S.semblance w).toNumber hv) ?_
    rintro extra _ rfl
    refine live_bind hids (Kinship.floor_le hall _) hm fun e e' he _ hdeep => S.get_bind ?_
    have hpushed : S.Engines w
        { e with frontier := e.frontier.push ⟨k, item, base + d.score item + extra, m.store⟩ }
        { e' with
          frontier := e'.frontier.push ⟨k', item', base + d'.score item' + extra, n.store⟩ } :=
      { he with
        frontier := he.frontier.push (fun _ _ h => h.score)
          ⟨hk, hitem, by rw [hscore], hm.store⟩ }
    exact S.modify_bind rfl rfl (S.pure (hm.putEngine hpushed)
      (.bounce (S.turn _ hl (S.semblance w).undefined)))

theorem iterateLoop (index : Nat) (hl : Loop.Items (S.loop w) (S.value w) l l' rest rest')
    (hacc : S.value w acc acc') (hm : S.States w m n)
    (hshared : S.shared ∨ ∃ how k a f, l = .gather how k a f) :
    S.along w S.step (l.iterate index rest acc) (l'.iterate index rest' acc') m n := by
  have L (w : S.World) := S.semblance w
  obtain ⟨hloop, hitems, hscores⟩ := hl
  cases hitems with
  | nil =>
    cases S.loop_iff.1 hloop with
    | gather how a hk hf => exact S.pure hm (S.resume_step hk hacc)
    | weigh a base hids hk hd hf hstore =>
      have hall : S.shared := hshared.resolve_right (by rintro ⟨_, _, _, _, h⟩; cases h)
      exact live_bind hids (Kinship.floor_le hall _) hm fun e e' he _ hdeep =>
        advance he hm hdeep
  | cons hitem hrest =>
    rw [List.map_cons, List.map_cons, List.cons.injEq] at hscores
    have hcollect := S.cont_iff.2 (.collect index ⟨hloop, hrest, hscores.2⟩ hacc hitem hscores.1)
    cases S.loop_iff.1 hloop with
    | gather how a hk hf =>
      refine S.newCont hm hcollect fun w' v v' m' n' hw hv hm' => ?_
      refine S.pure hm' (.through (S.call (S.value_mono hw hf)
        (.cons hv (.cons ((L w').str _) ?_))))
      split_ifs
      · exact .nil
      · exact .cons (S.value_mono hw hitem) .nil
    | weigh a base hids hk hd hf hstore =>
      refine S.modify_bind rfl rfl (S.newCont (hm.withStore hstore) hcollect ?_)
      intro w' v v' m' n' hw hv hm'
      exact S.pure hm' (.through (S.call (S.value_mono hw hf)
        (.cons hv (.cons ((L w').str _) (.cons (S.value_mono hw hitem) .nil)))))

/-- What the machine's own continuations do with a value. -/
theorem receive {c d : Cont} (hc : S.cont w c d) (hv : S.value w v v') (hm : S.States w m n)
    (hloop : ∀ {l index rest acc item}, c = .collect l index rest acc item →
      S.shared ∨ ∃ how k a f, l = .gather how k a f)
    (hscored : ∀ {k a u}, c = .scored k a u → S.shared)
    (hleave : ∀ {i}, c = .leave i → S.floor ≤ i ∧
      ∀ e, m.engine? i = some e → Tally.counts e.score = true → v.text = v'.text) :
    S.along w S.step (c.receive v) (d.receive v') m n := by
  have L (w : S.World) := S.semblance w
  cases S.cont_iff.1 hc with
  | exit => exact S.pure hm (.done hv)
  | collect index hl hacc hitem hscore =>
    exact collectLoop index hl hacc hitem hscore hv hm (hloop rfl)
  | remember key hids hk =>
    exact S.modify_bind rfl rfl (S.pure (hm.remember key hids hv) (S.resume_step hk hv))
  | drawn a hk hf =>
    refine S.newCont hm (S.cont_iff.2 (.scored a hk hv)) fun w' u u' m' n' hw hu hm' => ?_
    exact S.pure hm' (.through (S.call (S.value_mono hw hf)
      (.cons hu (.cons ((L w').str _) (.cons (S.value_mono hw hv) .nil)))))
  | scored a hk hvalue =>
    refine S.lift_bind hm ((L w).toNumber hv) ?_
    rintro x _ rfl
    exact S.newCont hm (S.cont_iff.2 (.weighted hk hvalue)) fun w' u u' m' n' _ hu hm' =>
      factorAt a x hu hm' (.inl (hscored rfl))
  | weighted hk hvalue => exact S.pure hm (S.resume_step hk hvalue)
  | leave hids =>
    obtain ⟨hfloor, htext⟩ := hleave rfl
    exact live_bind hids hfloor hm fun e e' he hfound hdeep =>
      leave he hv (htext e hfound) hm hdeep

end Loops

end Simulation

end Chance
