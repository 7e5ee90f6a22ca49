import Chance.Proofs.Machine.Parallel

/-!
# Tasks side by side

Alike tasks in alike states end alike (`Task.perform_beside`). Runs that do not share their tables
and random words can do so for tasks that need neither, and as long as requests are answered by
coroutines that both runs installed (`Ordinary`).
-/

namespace Chance

variable {σ : Setting} {π : Pairing} {m n : Machine} {l l' : Loop} {vs ws : List Value}

/-! ## Runs side by side as a simulation -/

theorem Loop.Alike.items (h : l.Alike σ.code π l')
    (hs : List.Forall₂ (Value.Alike σ.code π) vs ws) :
    Loop.Items (Loop.Alike σ.code π) (Value.Alike σ.code π) l l' vs ws := by
  refine ⟨h, hs, map_eq_of_forall₂ hs fun v w hv => ?_⟩
  cases h with
  | gather => rfl
  | weigh a base hids hk hd hf hstore =>
    exact congrArg some ((alike_likeness σ.code π).score_eq hd hv)

theorem loop_alike_iff : l.Alike σ.code π l' ↔
    Loop.Layer (Value.Alike σ.code π) (Value.Alike σ.code π) π.ids l l' := by
  constructor <;> intro h <;> cases h <;> constructor <;> assumption

theorem cont_alike_iff {c d : Cont} : c.Alike σ.code π d ↔
    Cont.Layer (Value.Alike σ.code π) (Value.Alike σ.code π) π.ids (Loop.Alike σ.code π) c d := by
  constructor
  · intro h
    cases h with
    | collect index hl hrest hacc hitem =>
      have hscores := (hl.items (.cons hitem .nil)).scores
      exact .collect index (hl.items hrest) hacc hitem (List.cons.inj hscores).1
    | _ => constructor <;> assumption
  · intro h
    cases h with
    | collect index hl hacc hitem _ => exact .collect index hl.loop hl.items hacc hitem
    | _ => constructor <;> assumption

theorem args_alike (hs : List.Forall₂ (Value.Alike σ.code π) vs ws) : σ.kinship.Args π vs ws := by
  cases hs with
  | nil => exact .nil .undefined
  | cons hk hs => exact .cons hk hs

def Setting.simulation (σ : Setting) : Simulation where
  toKinship := σ.kinship
  along π Q := Beside σ π Q
  le := Pairing.Le
  cont := Cont.Alike σ.code
  loop := Loop.Alike σ.code
  task := Task.Alike σ
  lax := True
  grounded := .inl trivial
  value_mono hπ h := h.mono hπ
  receiver_mono hπ h := h.mono hπ
  ids_mono hπ h := hπ.ids h
  cached hids hf := .cached hids hf
  loop_iff := loop_alike_iff
  cont_iff := cont_alike_iff
  call hf hs := by
    cases hs with
    | nil => exact .call hf .nil
    | cons hk hs => exact .call hf (.cons hk hs)
  resume hk hv := .call hk (.cons hv .nil)
  turn index hl hacc := .turn index hl.loop hl.items hacc
  iterate index hl hacc := .iterate index hl.loop hl.items hacc
  enter he hthunk hexit := .enter he hthunk hexit
  pure hm h := .pure hm h
  throw hm h := .throw hm fun _ => h.proper
  throw_lax _ hm h := .throw hm fun _ => h
  bind h k := .bind h k
  of_eq h hx hy _ _ := by
    unfold Beside at h ⊢
    rwa [hx, hy]
  freshId hm k := .freshId_bind hm fun i j m' n' hids hfloor hfloor' hm' =>
    k _ i j m' n' (Pairing.le_extend _) hids hfloor hfloor' hm'
  newCont hm hc k := .freshId_bind hm fun i j m' n' hids _ _ hm' =>
    k _ _ _ m' n' (Pairing.le_extend _) (.cont hids (hc.mono (Pairing.le_extend _))) hm'
  newDist hm hd := .newDist hm hd.like

/-! ## Tasks -/

/-- Continuations and loops that have nothing to do with tables and extra scores. -/
def Loop.Plain : Loop → Prop
  | .gather .. => True
  | .weigh .. => False

def Cont.Plain : Cont → Prop
  | .exit | .leave _ => True
  | .collect l .. => l.Plain
  | _ => False

/-- Tasks that need neither tables nor extra scores. -/
def Task.Plain : Task → Prop
  | .call (.builtin b) _ => b ≠ .cache ∧ b ≠ .sampleWithFactor
  | .call (.cached ..) _ => False
  | .call (.cont _ c) _ => c.Plain
  | .call .. => True
  | .turn l .. => l.Plain
  | .iterate l .. => l.Plain
  | .enter .. => True

/-- Tasks that ask the innermost coroutine. -/
def Task.Asks : Task → Prop
  | .call (.builtin b) _ => b = .sample ∨ b = .factor
  | _ => False

/-- The enumeration whose path the task ends. -/
def Task.left? : Task → Option Nat
  | .call (.cont _ (.leave e)) _ => some e
  | _ => none

/-- What two runs in a setting can do side by side. -/
structure Ordinary (σ : Setting) (m : Machine) (t : Task) : Prop where
  plain : σ.shared ∨ t.Plain
  answered : t.Asks → σ.shared ∨ σ.Deep m
  inner : ∀ e, t.left? = some e → σ.floor ≤ e

theorem Loop.Plain.gather {l : Loop} (h : l.Plain) : ∃ how k a f, l = .gather how k a f := by
  cases l with
  | gather how k a f => exact ⟨how, k, a, f, rfl⟩
  | weigh => exact h.elim

theorem applyValue_beside {f g : Value} (hf : f.Alike σ.code π g)
    (hs : List.Forall₂ (Value.Alike σ.code π) vs ws) (hm : m.Alike σ π n)
    (ho : Ordinary σ m (.call f vs)) :
    Beside σ π (Step.Alike σ) (applyValue f vs) (applyValue g ws) m n := by
  have L := alike_likeness σ.code π
  cases hf with
  | closure hids hcode henv => exact enterClosure_beside hids hcode henv hs hm
  | builtin b =>
    refine Simulation.builtin (S := σ.simulation) b (args_alike hs) hm ho.answered ?_
    rintro rfl
    exact ho.plain.resolve_right fun h => h.2 rfl
  | cached hids hf =>
    refine Simulation.callCached (S := σ.simulation) hids hf (args_alike hs) hm
      (ho.plain.resolve_right id) ?_
    exact L.text_eq _ _ (L.array (List.forall₂_drop 2 hs))
  | cont hids hc =>
    have hv := L.argument hs 0
    refine Simulation.receive (S := σ.simulation) hc hv hm ?_ ?_ ?_
    · rintro l index rest acc item rfl
      exact ho.plain.imp_right Loop.Plain.gather
    · rintro k a u rfl
      exact ho.plain.resolve_right id
    · rintro e rfl
      exact ⟨ho.inner e rfl, fun _ _ _ => L.text_eq _ _ hv⟩
  | primitive p =>
    cases hs with
    | nil => exact .throw hm fun _ => rfl
    | cons hk hs =>
      cases hs with
      | nil => exact .throw hm fun _ => rfl
      | cons ha hs =>
        refine .bind ((L.run_inStep p hs).inPlace.beside hm) ?_
        intro ρ v w m' n' hρ hv hm'
        exact .pure hm' (.bounce (.call (hk.mono hρ) (.cons hv .nil)))
  | _ => exact .throw hm fun _ => rfl

/-- Alike tasks end alike. -/
theorem Task.perform_beside {t u : Task} (ht : t.Alike σ π u) (hm : m.Alike σ π n)
    (ho : Ordinary σ m t) : Beside σ π (Step.Alike σ) t.perform u.perform m n := by
  cases ht with
  | call hf hs => exact applyValue_beside hf hs hm ho
  | turn index hl hrest hacc => exact .pure hm (.bounce (.iterate index hl hrest hacc))
  | iterate index hl hrest hacc =>
    exact Simulation.iterateLoop (S := σ.simulation) index (hl.items hrest) hacc hm
      (ho.plain.imp_right Loop.Plain.gather)
  | enter he hthunk hexit =>
    refine .modify_bind (.pure (hm.install he) (.through (.call hthunk ?_)))
    exact .cons hexit (.cons (he.address ▸ .str _) .nil)

end Chance
