import Chance.Proofs.Akin.States

/-!
# Tasks that end alike

Tasks that do the same, done in states in which the same goes on, end alike, as long as no function
of the program is entered: what such functions do is what ties are about.

- `akinSimulation`: runs in which the same goes on simulate one another,
- `Task.perform_abreast`: tasks that enter no function of the program.
-/

namespace Chance

variable {T : Ties} {π : Matching} {m n : Machine} {l l' : Loop} {vs ws : List Value}

/-! ## States -/

def akinKinship (T : Ties) : Kinship where
  toFooting := .even
  World := Matching
  value := Value.Akin T
  receiver := Value.Receives T
  ids := Matching.ids
  counters π i j := (∀ a b, π.ids a b → a < i) ∧ ∀ a b, π.ids a b → b < j
  heard := True
  semblance π := (akin_likeness T π).semblance
  unique {π} := π.unique

theorem engine_akin_iff {e f : Engine} : e.Akin T π f ↔ (akinKinship T).Engines π e f where
  mp h :=
    { h with
      floor := Nat.zero_le _
      floor' := Nat.zero_le _
      frontier := h.frontier.imp fun _ _ he => ⟨he.k, he.value, he.score, he.store⟩ }
  mpr h :=
    { h with frontier := h.frontier.imp fun _ _ he => ⟨he.k, he.value, he.score, he.store⟩ }

theorem coroutine_akin_iff {c d : Coroutine} :
    c.Akin T π d ↔ (akinKinship T).Coroutines π c d := by
  constructor
  · intro h
    cases h with
    | engine he => exact .engine (engine_akin_iff.1 he)
    | script i => exact .script i trivial
  · intro h
    cases h with
    | engine he => exact .engine (engine_akin_iff.2 he)
    | script i => exact .script i

theorem tables_akin_iff {t u : Nat × List (String × Value)} :
    TableAkin T π t u ↔ (akinKinship T).Tables π t u := by
  constructor <;> rintro ⟨hids, hs⟩ <;> exact ⟨hids, hs⟩

theorem machine_akin_iff : m.Akin T π n ↔ (akinKinship T).States π m n where
  mp h :=
    { h with
      counters := ⟨h.left, h.right⟩
      floor := Nat.zero_le _
      floor' := Nat.zero_le _
      stack := ⟨_, _, (List.append_nil _).symm, (List.append_nil _).symm,
        h.stack.imp fun _ _ => coroutine_akin_iff.1⟩
      tables := fun _ => h.tables.imp fun _ _ => tables_akin_iff.1
      output := fun _ => h.output
      scripts := fun _ => h.scripts
      supply := fun _ => h.supply }
  mpr h :=
    { h with
      left := h.counters.1
      right := h.counters.2
      stack := by
        obtain ⟨cs, ds, hcs, hds, hs⟩ := h.stack
        rw [hcs.trans (List.append_nil _), hds.trans (List.append_nil _)]
        exact hs.imp fun _ _ => coroutine_akin_iff.2
      tables := (h.tables trivial).imp fun _ _ => tables_akin_iff.2
      output := h.output trivial
      scripts := h.scripts trivial
      supply := h.supply trivial }

/-! ## Loops and continuations -/

theorem Loop.Akin.items (h : l.Akin T π l') (hs : List.Forall₂ (Value.Akin T π) vs ws) :
    Loop.Items (Loop.Akin T π) (Value.Akin T π) l l' vs ws := by
  refine ⟨h, hs, map_eq_of_forall₂ hs fun v w hv => ?_⟩
  cases h with
  | gather => rfl
  | weigh a base hids hk hd hf hstore =>
    exact congrArg some ((akin_likeness T π).score_eq hd hv)

theorem loop_akin_iff : l.Akin T π l' ↔
    Loop.Layer (Value.Akin T π) (Value.Receives T π) π.ids l l' := by
  constructor <;> intro h <;> cases h <;> constructor <;> assumption

theorem cont_akin_iff {c d : Cont} : c.Akin T π d ↔
    Cont.Layer (Value.Akin T π) (Value.Receives T π) π.ids (Loop.Akin T π) c d := by
  constructor
  · intro h
    cases h with
    | collect index hl hrest hacc hitem =>
      have hscores := (hl.items (.cons hitem .nil)).scores
      exact .collect index (hl.items hrest) hacc hitem (List.cons.inj hscores).1
    | _ => constructor <;> assumption
  · intro h
    cases h with
    | collect index hl hacc hitem _ => exact .collect index hl.loop hl.items hacc hitem
    | _ => constructor <;> assumption

/-! ## The simulation -/

def akinSimulation (T : Ties) : Simulation where
  toKinship := akinKinship T
  along π Q := Abreast T π Q
  le := fun (π ρ : Matching) => π ≤ ρ
  cont := Cont.Akin T
  loop := Loop.Akin T
  task := Task.Akin T
  lax := False
  grounded := .inr trivial
  value_mono hπ h := h.mono (Ties.le_refl T) hπ
  receiver_mono hπ h := h.mono (Ties.le_refl T) hπ
  ids_mono hπ h := hπ _ _ h
  cached hids hf := .cached hids hf
  loop_iff := loop_akin_iff
  cont_iff := cont_akin_iff
  call hf hs := by
    cases hs with
    | nil h => cases h
    | cons hk hs => exact .call hf hk hs
  resume hk hv := .resume hk hv
  turn index hl hacc := .turn index hl.loop hl.items hacc
  iterate index hl hacc := .iterate index hl.loop hl.items hacc
  enter he hthunk hexit := .enter (engine_akin_iff.2 he) hthunk hexit
  pure hm h := .pure (machine_akin_iff.2 hm) h
  throw {_ _ π _ _ _ _ _} hm h := by
    obtain rfl := h.same fun hv => (akin_likeness T π).text_eq _ _ hv
    exact .throw _ (machine_akin_iff.2 hm)
  throw_lax h := h.elim
  bind h k := .bind h fun ρ a b m' n' hρ hab hm => k ρ a b m' n' hρ hab (machine_akin_iff.1 hm)
  of_eq h hx hy hm hn := by
    unfold Abreast at h ⊢
    rwa [hx, hy, ← hm, ← hn]
  freshId hm k := .freshId_bind (machine_akin_iff.2 hm) fun ρ i j m' n' hρ hids hm' =>
    k ρ i j m' n' hρ hids (Nat.zero_le _) (Nat.zero_le _) (machine_akin_iff.1 hm')
  newCont hm hc k := .newCont_bind (machine_akin_iff.2 hm) hc fun v w m' n' hv hm' =>
    k _ v w m' n' (Matching.le_refl _) hv (machine_akin_iff.1 hm')
  newDist hm hd := .newDist (machine_akin_iff.2 hm) hd.like

/-! ## Tasks -/

/-- Whether the value is a function of the program. -/
def Value.isClosure : Value → Bool
  | .closure .. => true
  | _ => false

theorem applyValue_abreast {f g k k' : Value} (hf : f.Akin T π g) (hclosure : f.isClosure = false)
    (hk : k.Receives T π k') (hs : List.Forall₂ (Value.Akin T π) vs ws) (hm : m.Akin T π n) :
    Abreast T π (Step.Akin T) (applyValue f (k :: vs)) (applyValue g (k' :: ws)) m n := by
  have L := akin_likeness T π
  have htext := L.text_eq _ _ hf
  have hargs : (akinKinship T).Args π (k :: vs) (k' :: ws) := .cons hk hs
  cases hf with
  | closure => cases hclosure
  | builtin b =>
    exact Simulation.builtin (S := akinSimulation T) b hargs (machine_akin_iff.1 hm)
      (fun _ => .inl trivial) fun _ => trivial
  | cached hij hf =>
    exact Simulation.callCached (S := akinSimulation T) hij hf hargs (machine_akin_iff.1 hm) trivial
      (L.text_eq _ _ (.array (List.forall₂_drop 1 hs)))
  | primitive p =>
    cases hs with
    | nil => exact .throw _ hm
    | cons ha hs =>
      refine .bind ((L.run_inStep p hs).abreast hm) ?_
      intro ρ v w m' n' hρ hv hm'
      exact .pure hm' (.bounce (.resume (hk.mono (Ties.le_refl T) hρ) hv))
  | _ =>
    simp only [applyValue, htext]
    exact .throw _ hm

/-- A task begins with a function of the program. -/
def Task.entersClosure : Task → Bool
  | .call f _ => f.isClosure
  | _ => false

theorem Task.perform_abreast {t u : Task} (ht : t.Akin T π u) (henters : t.entersClosure = false)
    (hm : m.Akin T π n) : Abreast T π (Step.Akin T) t.perform u.perform m n := by
  cases ht with
  | call hf hk hs => exact applyValue_abreast hf henters hk hs hm
  | resume hk hv =>
    cases hk with
    | closure => cases henters
    | cont hc =>
      exact Simulation.receive (S := akinSimulation T) hc hv (machine_akin_iff.1 hm)
        (fun _ => .inl trivial) (fun _ => trivial) fun _ =>
          ⟨Nat.zero_le _, fun _ _ _ => (akin_likeness T π).text_eq _ _ hv⟩
  | turn index hl hrest hacc => exact .pure hm (.bounce (.iterate index hl hrest hacc))
  | iterate index hl hrest hacc =>
    exact Simulation.iterateLoop (S := akinSimulation T) index (hl.items hrest) hacc
      (machine_akin_iff.1 hm) (.inl trivial)
  | enter he hthunk hexit =>
    refine .modify_bind rfl rfl (.pure (hm.withStack (.cons (.engine he) hm.stack)) (.through ?_))
    exact .call hthunk hexit (.cons (he.address ▸ .str _) .nil)

end Chance
