import Chance.Proofs.Renaming.Evaluation

/-!
# Runs of renamed code

Related tasks in related states end alike, and so do whole runs, as long as they are quiet
(`Task.perform_renamed`, `Task.drive_renamed`).
-/

namespace Chance

variable {m n : Machine} {vs ws : List Value} {t u : Task}

/-! ## Renamed runs as a simulation -/

theorem loop_renamed_iff {l l' : Loop} : l.Renamed l' ↔
    Loop.Layer Value.Renamed Value.Renamed (· = ·) l l' := by
  constructor
  · intro h
    cases h with
    | gather how a hk hf => exact .gather how a hk hf
    | weigh i a base hk hd hf hs => exact .weigh a base rfl hk hd hf hs
  · intro h
    cases h with
    | gather how a hk hf => exact .gather how a hk hf
    | weigh a base hids hk hd hf hs =>
      subst hids
      exact .weigh _ a base hk hd hf hs

theorem cont_renamed_iff {c d : Cont} : c.Renamed d ↔
    Cont.Layer Value.Renamed Value.Renamed (· = ·) Loop.Renamed c d := by
  constructor
  · intro h
    cases h with
    | exit => exact .exit
    | collect index hl hrest hacc hitem hscores hscore =>
      exact .collect index ⟨hl, hrest, hscores⟩ hacc hitem hscore
    | remember i key hk => exact .remember key rfl hk
    | drawn a hk hf => exact .drawn a hk hf
    | scored a hk hv => exact .scored a hk hv
    | weighted hk hv => exact .weighted hk hv
    | leave i => exact .leave rfl
  · intro h
    cases h with
    | exit => exact .exit
    | collect index hl hacc hitem hscore =>
      exact .collect index hl.loop hl.items hacc hitem hl.scores hscore
    | remember key hids hk =>
      subst hids
      exact .remember _ key hk
    | drawn a hk hf => exact .drawn a hk hf
    | scored a hk hv => exact .scored a hk hv
    | weighted hk hv => exact .weighted hk hv
    | leave hids =>
      subst hids
      exact .leave _

theorem args_renamed (hs : List.Forall₂ Value.Renamed vs ws) : renamedKinship.Args () vs ws := by
  cases hs with
  | nil => exact .nil .undefined
  | cons hk hs => exact .cons hk hs

def renamedSimulation : Simulation where
  toKinship := renamedKinship
  along _ Q := Lockstep (Q ())
  le _ _ := True
  cont _ := Cont.Renamed
  loop _ := Loop.Renamed
  task _ := Task.Renamed
  lax := False
  grounded := .inr trivial
  value_mono _ h := h
  receiver_mono _ h := h
  ids_mono _ h := h
  cached hids hf := by
    obtain rfl := hids
    exact .cached _ hf
  loop_iff := loop_renamed_iff
  cont_iff := cont_renamed_iff
  call hf hs := by
    cases hs with
    | nil => exact .call hf .nil
    | cons hk hs => exact .call hf (.cons hk hs)
  resume hk hv := .call hk (.cons hv .nil)
  turn index hl hacc := .turn index hl hacc
  iterate index hl hacc := .iterate index hl hacc
  enter he hthunk hexit := .enter he hthunk hexit
  pure hm h := .pure hm h
  throw hm h := .throw hm h.kind
  throw_lax h := h.elim
  bind h k := .bind h fun a b m' n' _ hab hm' => k () a b m' n' trivial hab hm'
  of_eq h hx hy _ _ := by
    unfold Lockstep at h ⊢
    rwa [hx, hy]
  freshId hm k := .freshId_bind hm fun i m' n' hm' =>
    k () i i m' n' trivial rfl (Nat.zero_le _) (Nat.zero_le _) hm'
  newCont hm hc k := .freshId_bind hm fun i m' n' hm' =>
    k () _ _ m' n' trivial (.cont i hc) hm'
  newDist hm hd := .newDist hm hd

/-! ## Tasks -/

theorem applyValue_lockstep {f g : Value} (hf : f.Renamed g)
    (hs : List.Forall₂ Value.Renamed vs ws) (hm : m.Renamed n) (hq : callIsQuiet f vs m = true) :
    Lockstep Step.Renamed (applyValue f vs) (applyValue g ws) m n := by
  have L := renamed_semblance
  cases hf with
  | closure i hσ hbody henv => exact enterClosure_renamed hσ hbody henv hs hm hq
  | builtin b =>
    exact Simulation.builtin (S := renamedSimulation) b (args_renamed hs) hm
      (fun _ => .inl trivial) fun _ => trivial
  | cached i hf =>
    refine Simulation.callCached (S := renamedSimulation) rfl hf (args_renamed hs) hm trivial ?_
    exact (Value.Renamed.array (List.forall₂_drop 2 hs)).text_eq hq
  | cont i hc =>
    have hv := L.argument hs 0
    refine Simulation.receive (S := renamedSimulation) hc hv hm (fun _ => .inl trivial)
      (fun _ => trivial) ?_
    rintro j rfl
    refine ⟨Nat.zero_le _, fun e he hcounts => hv.text_eq ?_⟩
    simpa only [callIsQuiet, he, hcounts, Bool.not_true, Bool.false_or] using hq
  | primitive p =>
    cases hs with
    | nil => exact .throw hm rfl
    | cons hk hs =>
      cases hs with
      | nil => exact .throw hm rfl
      | cons ha hs =>
        refine .bind ((primitive_inStep p hs hq).lockstep hm) ?_
        intro v w m' n' _ hv hm'
        exact .pure hm' (.bounce (.call hk (.cons hv .nil)))
  | _ => exact .throw hm rfl

/-- Related tasks end alike. -/
theorem Task.perform_renamed (ht : t.Renamed u) (hm : m.Renamed n) (hq : t.isQuiet m = true) :
    Lockstep Step.Renamed t.perform u.perform m n := by
  cases ht with
  | call hf hs => exact applyValue_lockstep hf hs hm hq
  | turn index hl hacc => exact .pure hm (.bounce (.iterate index hl hacc))
  | iterate index hl hacc =>
    exact Simulation.iterateLoop (S := renamedSimulation) index hl hacc hm (.inl trivial)
  | enter he hthunk hexit =>
    refine .modify_bind (.pure (hm.install he) (.through (.call hthunk ?_)))
    exact .cons hexit (.cons (he.address ▸ .str _) .nil)

/-! ## Runs -/

/-- Runs from related tasks end alike. -/
theorem Task.drive_renamed (fuel : Nat) (ht : t.Renamed u) (hm : m.Renamed n)
    (hq : t.quietFor fuel m = true) :
    Lockstep (Option.Rel Value.Renamed) (t.drive fuel) (u.drive fuel) m n := by
  induction fuel generalizing t u m n with
  | zero => exact .pure hm .none
  | succ fuel ih =>
    obtain ⟨hnow, hlater⟩ := Bool.and_eq_true_iff.1 hq
    refine .bind (Task.perform_renamed ht hm hnow) ?_
    intro s s' m' n' hstep hs hm'
    have hrest := after_ok hlater hstep
    cases hs with
    | done hv => exact .pure hm' (.some hv)
    | bounce ht => exact ih ht hm' hrest
    | through ht => exact ih ht hm' hrest

theorem Step.drive_renamed (fuel : Nat) {s s' : Step} (hs : s.Renamed s') (hm : m.Renamed n)
    (hq : s.quietFor fuel m = true) :
    Lockstep (Option.Rel Value.Renamed) (s.drive fuel) (s'.drive fuel) m n := by
  cases hs with
  | done hv => exact .pure hm (.some hv)
  | bounce ht => exact Task.drive_renamed fuel ht hm hq
  | through ht => exact Task.drive_renamed fuel ht hm hq

theorem Lockstep.guarded {α β : Type} {Q : α → β → Prop} {x : Exec α} {y : Exec β}
    (h : Lockstep Q x y m n) (hm : m.Renamed n) : Lockstep Q x.guarded y.guarded m n := by
  unfold Lockstep at h ⊢
  simp only [Exec.guarded]
  generalize x m = r at h ⊢
  generalize y n = s at h ⊢
  cases h with
  | ok hab hm' => exact .ok hab hm'
  | error he hm' =>
    obtain ⟨cs, ds, hcs, hds, hs⟩ := hm.stack
    obtain ⟨cs', ds', hcs', hds', hs'⟩ := hm'.stack
    refine .error he (hm'.withStack ⟨_, _, (List.append_nil _).symm, (List.append_nil _).symm, ?_⟩)
    simp only [Machine.depth, hcs, hds, hcs', hds', renamedKinship, Footing.even, List.append_nil,
      hs'.length_eq, hs.length_eq]
    exact List.forall₂_drop _ hs'

end Chance
