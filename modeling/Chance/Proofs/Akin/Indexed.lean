import Chance.Proofs.Akin.Steps
import Chance.Proofs.Machine.Slices
import Chance.Proofs.Meaning.Handing

/-!
# Runs that end alike

Two runs end alike if they end with values that are the same up to functions, or with the same
error, and leave the same behind. Functions are the same if all runs through them end alike; as runs
through functions call functions, this is said of so many tasks at a time (`ties`).

- `SameEnd`: results of runs that are the same,
- `Sim`: whatever one of two runs ends with, so does the other, up to a number of tasks,
- `ties`: functions that do the same for so many tasks,
- `Sim.of_step`: what does the same ends alike,
- `call_tie`, `resume_tie`: how functions are shown to do the same.
-/

namespace Chance

/-! ## Results -/

/-- What a run has come to with the fuel it had. -/
abbrev RunResult := EStateM.Result Error Machine (Option Value)

/-- The run was over before its fuel. -/
def Ended (r : RunResult) : Prop :=
  ∀ m, r ≠ .ok none m

/-- The same value or the same error, in states that are the same up to functions. -/
inductive SameEnd : RunResult → RunResult → Prop
  | value {ρ : Matching} {v w : Value} {m n : Machine} :
      v.Akin .none ρ w → m.Akin .none ρ n → SameEnd (.ok (some v) m) (.ok (some w) n)
  | error {ρ : Matching} {e : Error} {m n : Machine} :
      m.Akin .none ρ n → SameEnd (.error e m) (.error e n)

theorem Exec.bind_error {α β : Type} {x : Exec α} {m m' : Machine} {e : Error}
    (h : x m = .error e m') (f : α → Exec β) : (x >>= f) m = .error e m' := by
  simp only [bind, EStateM.bind, h]

section RunResults

variable {x : Exec Step} {m : Machine}

theorem Ended.add {fuel : Nat} (h : Ended ((x >>= Step.drive fuel) m)) (more : Nat) :
    (x >>= Step.drive (fuel + more)) m = (x >>= Step.drive fuel) m := by
  simp only [bind, EStateM.bind] at h ⊢
  generalize x m = r at h ⊢
  cases r with
  | error e l => rfl
  | ok s l => exact congrArg Prod.fst (Step.course_add h more)

theorem Arrives.outcome {y : Exec Step} {n : Machine} (h : Arrives x m y n) {fuel : Nat}
    (hended : Ended ((x >>= Step.drive fuel) m)) :
    (x >>= Step.drive fuel) m = (y >>= Step.drive fuel) n := by
  obtain ⟨tasks, htasks⟩ := h
  rw [← htasks fuel, Nat.add_comm, hended.add]

end RunResults

/-! ## Runs -/

/-- Whatever one run ends with after at most so many tasks, the other ends with as well. -/
structure Sim (n : Nat) (x : Exec Step) (m : Machine) (y : Exec Step) (m' : Machine) : Prop where
  left : ∀ f ≤ n, Ended ((x >>= Step.drive f) m) →
    ∃ g, SameEnd ((x >>= Step.drive f) m) ((y >>= Step.drive g) m')
  right : ∀ g ≤ n, Ended ((y >>= Step.drive g) m') →
    ∃ f, SameEnd ((x >>= Step.drive f) m) ((y >>= Step.drive g) m')

namespace Sim

variable {n : Nat} {x x' y y' : Exec Step} {m m' l l' : Machine} {ρ : Matching}

theorem after_left (h : Sim n x' l y m') (harrives : Arrives x m x' l) : Sim n x m y m' := by
  refine ⟨fun f hf hended => ?_, fun g hg hended => ?_⟩
  · have heq := harrives.outcome hended
    rw [heq] at hended ⊢
    exact h.left f hf hended
  · obtain ⟨tasks, htasks⟩ := harrives
    obtain ⟨f, hf⟩ := h.right g hg hended
    refine ⟨tasks + f, ?_⟩
    rw [htasks f]
    exact hf

theorem after_right (h : Sim n x m y' l') (harrives : Arrives y m' y' l') :
    Sim n x m y m' := by
  refine ⟨fun f hf hended => ?_, fun g hg hended => ?_⟩
  · obtain ⟨tasks, htasks⟩ := harrives
    obtain ⟨g, hg⟩ := h.left f hf hended
    refine ⟨tasks + g, ?_⟩
    rw [htasks g]
    exact hg
  · have heq := harrives.outcome hended
    rw [heq] at hended ⊢
    exact h.right g hg hended

theorem after (h : Sim n x' l y' l') (hleft : Arrives x m x' l) (hright : Arrives y m' y' l') :
    Sim n x m y m' :=
  (h.after_left hleft).after_right hright

theorem of_errors {e : Error} (hx : x m = .error e l) (hy : y m' = .error e l')
    (h : l.Akin .none ρ l') : Sim n x m y m' := by
  have hsame (f g : Nat) : SameEnd ((x >>= Step.drive f) m) ((y >>= Step.drive g) m') := by
    rw [Exec.bind_error hx, Exec.bind_error hy]
    exact .error h
  exact ⟨fun f _ _ => ⟨0, hsame f 0⟩, fun g _ _ => ⟨0, hsame 0 g⟩⟩

theorem of_done {v w : Value} (hv : v.Akin .none ρ w) (hm : m.Akin .none ρ m') :
    Sim n (pure (.done v)) m (pure (.done w)) m' :=
  ⟨fun _ _ _ => ⟨0, .value hv hm⟩, fun _ _ _ => ⟨0, .value hv hm⟩⟩

theorem of_tasks {s s' : Step} {t u : Task} (hs : ∀ f, s.drive f = t.drive f)
    (hs' : ∀ f, s'.drive f = u.drive f)
    (h : ∀ k, k + 1 = n → Sim k t.perform m u.perform m') :
    Sim n (pure s) m (pure s') m' := by
  have hdrive {s : Step} {t : Task} (hs : ∀ f, s.drive f = t.drive f) (f : Nat) (m : Machine) :
      ((pure s : Exec Step) >>= Step.drive (f + 1)) m = (t.perform >>= Step.drive f) m := by
    rw [pure_bind, hs, Task.drive_succ]
    simp only [bind, EStateM.bind]
    cases t.perform m <;> rfl
  have hzero {s : Step} {t : Task} (hs : ∀ f, s.drive f = t.drive f) (m : Machine) :
      ¬ Ended (((pure s : Exec Step) >>= Step.drive 0) m) := by
    rw [pure_bind, hs]
    exact fun hended => hended m rfl
  -- Performing the task costs one step on either side, which is what the index pays for.
  refine ⟨fun f hf hended => ?_, fun g hg hended => ?_⟩
  · cases f with
    | zero => exact absurd hended (hzero hs m)
    | succ f =>
      obtain ⟨k, rfl⟩ := Nat.exists_eq_add_of_lt (Nat.lt_of_lt_of_le (Nat.zero_lt_succ f) hf)
      rw [hdrive hs] at hended ⊢
      obtain ⟨g, hg⟩ := (h _ rfl).left f (by omega) hended
      refine ⟨g + 1, ?_⟩
      rw [hdrive hs']
      exact hg
  · cases g with
    | zero => exact absurd hended (hzero hs' m')
    | succ g =>
      obtain ⟨k, rfl⟩ := Nat.exists_eq_add_of_lt (Nat.lt_of_lt_of_le (Nat.zero_lt_succ g) hg)
      rw [hdrive hs'] at hended ⊢
      obtain ⟨f, hf⟩ := (h _ rfl).right g (by omega) hended
      refine ⟨f + 1, ?_⟩
      rw [hdrive hs]
      exact hf

end Sim

/-! ## Functions -/

/-- What is asked of functions for one task more: that calling them leads to runs that end alike. -/
def Ties.further (n : Nat) (T : Ties) : Ties where
  call π f g := T.call π f g ∧ ∀ ρ, π ≤ ρ → ∀ (k k' : Value) (vs ws : List Value) (m m' : Machine),
    k.Receives T ρ k' → List.Forall₂ (Value.Akin T ρ) vs ws → m.Akin T ρ m' →
    Sim n (applyValue f (k :: vs)) m (applyValue g (k' :: ws)) m'
  resume π k k' := T.resume π k k' ∧ ∀ ρ, π ≤ ρ → ∀ (v w : Value) (m m' : Machine),
    v.Akin T ρ w → m.Akin T ρ m' → Sim n (applyValue k [v]) m (applyValue k' [w]) m'
  call_mono hπ h := ⟨T.call_mono hπ h.1, fun ρ hρ => h.2 ρ (Matching.le_trans hπ hρ)⟩
  resume_mono hπ h := ⟨T.resume_mono hπ h.1, fun ρ hρ => h.2 ρ (Matching.le_trans hπ hρ)⟩

/-- Functions that do the same for so many tasks. -/
def ties : Nat → Ties
  | 0 => .none
  | n + 1 => (ties n).further n

section Ties

variable {k n : Nat} {π : Matching} {m m' : Machine}

theorem ties_anti (h : k ≤ n) : ties n ≤ ties k := by
  induction h with
  | refl => exact Ties.le_refl _
  | step _ ih => exact Ties.le_trans ⟨fun hf => hf.1, fun hk => hk.1⟩ ih

theorem ties_le_none (n : Nat) : ties n ≤ .none :=
  ties_anti (Nat.zero_le n)

/-- Functions do the same if they do as long as they can be relied on for fewer tasks. -/
theorem call_tie {f g : Value}
    (h : ∀ k < n, (ties k).call π f g → ∀ ρ, π ≤ ρ → ∀ κ κ' vs ws m m',
      κ.Receives (ties k) ρ κ' → List.Forall₂ (Value.Akin (ties k) ρ) vs ws →
      m.Akin (ties k) ρ m' →
      Sim k (applyValue f (κ :: vs)) m (applyValue g (κ' :: ws)) m') :
    (ties n).call π f g := by
  induction n with
  | zero => trivial
  | succ n ih =>
    have hless := ih fun k hk => h k (Nat.lt_succ_of_lt hk)
    exact ⟨hless, h n (Nat.lt_succ_self n) hless⟩

theorem resume_tie {κ κ' : Value}
    (h : ∀ k < n, ∀ ρ, π ≤ ρ → ∀ v w m m', v.Akin (ties k) ρ w → m.Akin (ties k) ρ m' →
      Sim k (applyValue κ [v]) m (applyValue κ' [w]) m') :
    (ties n).resume π κ κ' := by
  induction n with
  | zero => trivial
  | succ n ih =>
    exact ⟨ih fun k hk => h k (Nat.lt_succ_of_lt hk), h n (Nat.lt_succ_self n)⟩

theorem Task.perform_sim {t u : Task} (ht : t.Akin (ties (n + 1)) π u)
    (hm : m.Akin (ties n) π m') (henters : t.entersClosure = true) :
    Sim n t.perform m u.perform m' := by
  have hless : ties (n + 1) ≤ ties n := ties_anti (Nat.le_succ n)
  cases ht with
  | call hf hk hs =>
    cases hf with
    | closure hij htie =>
      exact htie.2 π (Matching.le_refl π) _ _ _ _ _ _ (hk.mono hless (Matching.le_refl π))
        (valuesAkin_mono hless (Matching.le_refl π) hs) hm
    | _ => cases henters
  | resume hk hv =>
    cases hk with
    | closure htie =>
      exact htie.2 π (Matching.le_refl π) _ _ _ _ (hv.mono hless (Matching.le_refl π)) hm
    | cont _ => cases henters
  | _ => cases henters

namespace Sim

variable {x y : Exec Step}

theorem of_results
    (hstep : ∀ {π : Matching} {s s' : Step} {m m' : Machine}, s.Akin (ties n) π s' →
      m.Akin (ties n) π m' → Sim n (pure s) m (pure s') m')
    (h : Abreast (ties n) π (Step.Akin (ties n)) x y m m') : Sim n x m y m' := by
  unfold Abreast at h
  generalize hx : x m = r at h
  generalize hy : y m' = r' at h
  cases h with
  | ok _ _ _ hs hl => exact (hstep hs hl).after (.of_eq hx) (.of_eq hy)
  | error _ hl => exact of_errors hx hy (hl.weaken (ties_le_none n))

/-- What does the same ends alike. -/
theorem of_step {s s' : Step} (hs : s.Akin (ties n) π s') (hm : m.Akin (ties n) π m') :
    Sim n (pure s) m (pure s') m' := by
  induction n generalizing π s s' m m' with
  | zero =>
    cases hs with
    | done hv => exact of_done hv hm
    | bounce ht | through ht =>
      exact of_tasks (fun _ => rfl) (fun _ => rfl) fun k hk => absurd hk (Nat.succ_ne_zero k)
  | succ n ih =>
    have hless : ties (n + 1) ≤ ties n := ties_anti (Nat.le_succ n)
    have htask {t u : Task} (ht : t.Akin (ties (n + 1)) π u) :
        Sim n t.perform m u.perform m' := by
      cases henters : t.entersClosure with
      | true => exact Task.perform_sim ht (hm.weaken hless) henters
      | false =>
        exact of_results ih (Task.perform_abreast (ht.mono hless (Matching.le_refl π)) henters
          (hm.weaken hless))
    cases hs with
    | done hv =>
      exact of_done (hv.mono (ties_le_none _) (Matching.le_refl π)) (hm.weaken (ties_le_none _))
    | bounce ht | through ht =>
      refine of_tasks (fun _ => rfl) (fun _ => rfl) fun k hk => ?_
      obtain rfl := Nat.succ.inj hk
      exact htask ht

theorem of_abreast (h : Abreast (ties n) π (Step.Akin (ties n)) x y m m') :
    Sim n x m y m' :=
  of_results of_step h

end Sim

end Ties

end Chance
