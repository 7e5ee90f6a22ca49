import Chance.Proofs.Enumeration.Returning
import Chance.Proofs.Machine.Slices
import Chance.Proofs.Machine.Outcomes

/-!
# Runs that fail

A run that fails, or is cancelled between two slices, stops in the middle of the enumerations that
are in progress. What they leave behind depends on who drives the run. A run in one go removes
their coroutines; a run in slices does not. Neither reinstates the store of the outermost call: what
has been written since that call stays.

- `Program.Reaches`: the states that the machine passes through,
- `InProgress`: an enumeration is installed and has not returned,
- `failed_slices_leave_enumerations`: the coroutines after a failed or cancelled run in slices,
- `Written`: a store that was made from another one by steps of the run,
- `failed_run_leaves_writes`: the store after a failed run.
-/

namespace Chance

/-! ## The machine's own runs -/

variable {p q : Program} {fuel i : Nat} {m m₀ : Machine} {steps : List Transition} {t : Task}
  {source : String} {changes : List (Machine × Machine)} {s s₀ : Store} {e : Error}

/-- The machine, when it starts a program in state `m₀` with `k` for its value, performs these
steps, the latest first, and comes to the task in the state. -/
inductive Program.Reaches (p : Program) (k : Value) (m₀ : Machine) :
    List Transition → Task → Machine → Prop
  | start {s : Step} {t : Task} {m : Machine} : p.start k m₀ = .ok s m → s.task? = some t →
      Reaches p k m₀ [] t m
  | step {steps : List Transition} {s : Step} {t t' : Task} {m m' : Machine} :
      Reaches p k m₀ steps t m → t.perform m = .ok s m' → s.task? = some t' →
      Reaches p k m₀ (⟨m, t', m'⟩ :: steps) t' m'

section Reaching

variable {p : Program} {k : Value} {m₀ m m' : Machine} {steps : List Transition} {t : Task}

theorem Program.Reaches.of_error {e : Error} (h : p.Reaches k m₀ steps t m)
    (hdrive : t.drive fuel m = .error e m') :
    ∃ steps' t' n, p.Reaches k m₀ steps' t' n ∧ t'.perform n = .error e m' := by
  induction fuel generalizing steps t m with
  | zero => cases hdrive
  | succ fuel ih =>
    rw [Task.drive_succ] at hdrive
    cases hstep : t.perform m with
    | error e' n =>
      rw [hstep] at hdrive
      cases hdrive
      exact ⟨steps, t, m, h, hstep⟩
    | ok s n =>
      rw [hstep] at hdrive
      cases s with
      | done v => cases hdrive
      | bounce u | through u => exact ih (h.step hstep rfl) hdrive

theorem Program.Reaches.of_ok {o : Option Value} (h : p.Reaches k m₀ steps t m)
    (hdrive : t.drive fuel m = .ok o m') : ∃ steps' t' n, p.Reaches k m₀ steps' t' n ∧
      (n = m' ∨ ∃ v, t'.perform n = .ok (.done v) m') := by
  induction fuel generalizing steps t m with
  | zero =>
    cases hdrive
    exact ⟨steps, t, _, h, .inl rfl⟩
  | succ fuel ih =>
    rw [Task.drive_succ] at hdrive
    cases hstep : t.perform m with
    | error e' n =>
      rw [hstep] at hdrive
      cases hdrive
    | ok s n =>
      rw [hstep] at hdrive
      cases s with
      | done v =>
        cases hdrive
        exact ⟨steps, t, m, h, .inr ⟨v, hstep⟩⟩
      | bounce u | through u => exact ih (h.step hstep rfl) hdrive

end Reaching

theorem Program.Reaches.kept (hq : p.compile = .ok q)
    (hnames : ∀ x ∈ stmtsNames p.body, ¬ IsGenerated x) (hS : Bare m₀.stack) (hm₀ : m₀.Held)
    (h : q.Reaches (.cont i .exit) m₀ steps t m) :
    (∃ σ, Ready m₀.stack Set.univ σ t m) ∧ Recorded steps t.entered? m := by
  induction h with
  | start hstart hs =>
    obtain ⟨hm, hready, hentered⟩ :=
      p.start_ready hq hnames rfl hm₀ (Set.subset_univ _) hstart hs
    refine ⟨⟨[], hready⟩, fun {e outer} hsuffix => ?_, fun he => ?_, nofun, nofun⟩
    · rw [hm.stack] at hsuffix
      exact absurd (hsuffix.subset List.mem_cons_self) (hS e)
    · cases hentered.symm.trans he
  | step _ hstep hs ih =>
    obtain ⟨⟨σ, hready⟩, hrecorded⟩ := ih
    obtain ⟨σ', hready', _⟩ := hready.next hS hstep hs
    exact ⟨⟨σ', hready'⟩, hrecorded.step hS hready hstep hs⟩

/-! ## Enumerations in progress -/

/-- The step installs the enumeration. -/
def Transition.Installs (s : Transition) (e : Engine) : Prop :=
  s.after.stack = .engine e :: s.before.stack

/-- One of the steps installed the enumeration with the identity `i`, and none handed over its
result. -/
def InProgress (steps : List Transition) (i : Nat) : Prop :=
  (∃ s ∈ steps, ∃ e, s.Installs e ∧ e.id = i) ∧ ∀ s ∈ steps, ∀ e, s.Returns e → e.id ≠ i

section Progress

variable {steps : List Transition} {s : Transition} {e : Engine} {i : Nat}

theorem inProgress_cons_of_neither (hinstalls : ∀ e, ¬ s.Installs e)
    (hreturns : ∀ e, ¬ s.Returns e) : InProgress (s :: steps) i ↔ InProgress steps i := by
  simp [InProgress, hinstalls, hreturns]

theorem inProgress_cons_of_installs (hinstalls : s.Installs e) (hreturns : ∀ e, ¬ s.Returns e)
    (hnew : ∀ r ∈ steps, ∀ f, r.Returns f → f.id ≠ e.id) :
    InProgress (s :: steps) i ↔ i = e.id ∨ InProgress steps i := by
  have honly {f : Engine} (hf : s.Installs f) : f = e := by
    cases (List.cons.inj (hf.symm.trans hinstalls)).1
    rfl
  constructor
  · rintro ⟨⟨r, hr, f, hf, hid⟩, hreturned⟩
    rcases List.mem_cons.1 hr with rfl | hr
    · exact .inl (honly hf ▸ hid.symm)
    · exact .inr ⟨⟨r, hr, f, hf, hid⟩, fun r hr => hreturned r (List.mem_cons_of_mem _ hr)⟩
  · rintro (rfl | ⟨⟨r, hr, hf⟩, hreturned⟩)
    · refine ⟨⟨s, List.mem_cons_self, e, hinstalls, rfl⟩, ?_⟩
      exact List.forall_mem_cons.2 ⟨fun f hf => absurd hf (hreturns f), hnew⟩
    · refine ⟨⟨r, List.mem_cons_of_mem _ hr, hf⟩, ?_⟩
      exact List.forall_mem_cons.2 ⟨fun f hf => absurd hf (hreturns f), hreturned⟩

theorem inProgress_cons_of_returns (hreturns : s.Returns e) (honly : ∀ f, s.Returns f → f = e)
    (hinstalls : ∀ f, ¬ s.Installs f) :
    InProgress (s :: steps) i ↔ i ≠ e.id ∧ InProgress steps i := by
  constructor
  · rintro ⟨⟨r, hr, f, hf, hid⟩, hreturned⟩
    obtain ⟨hs, hsteps⟩ := List.forall_mem_cons.1 hreturned
    rcases List.mem_cons.1 hr with rfl | hr
    · exact absurd hf (hinstalls f)
    · exact ⟨(hs e hreturns).symm, ⟨r, hr, f, hf, hid⟩, hsteps⟩
  · rintro ⟨hne, ⟨r, hr, hf⟩, hreturned⟩
    refine ⟨⟨r, List.mem_cons_of_mem _ hr, hf⟩, List.forall_mem_cons.2 ⟨fun f hf => ?_, hreturned⟩⟩
    rw [honly f hf]
    exact hne.symm

end Progress

section Towers

variable {S cs : List Coroutine} {T : Set Site} {σ : List Nat} {t t' : Task} {m m' : Machine}
  {steps : List Transition}

theorem Tower.exists_engines (h : Tower S T σ cs) :
    ∃ inner : List Engine, cs = inner.map .engine ++ S ∧ inner.map Engine.id = σ := by
  induction h with
  | base => exact ⟨[], rfl, rfl⟩
  | @install _ _ e _ _ _ ih =>
    obtain ⟨inner, rfl, rfl⟩ := ih
    exact ⟨e :: inner, rfl, rfl⟩

theorem Tower.mem_iff (hS : Bare S) (h : Tower S T σ cs) {i : Nat} :
    i ∈ σ ↔ ∃ e, .engine e ∈ cs ∧ e.id = i := by
  constructor
  · obtain ⟨inner, rfl, rfl⟩ := h.exists_engines
    intro hi
    obtain ⟨e, he, rfl⟩ := List.mem_map.1 hi
    exact ⟨e, List.mem_append_left _ (List.mem_map_of_mem he), rfl⟩
  · rintro ⟨e, he, rfl⟩
    exact h.id_mem hS he

/-- The enumerations in progress are those that are installed. -/
def Balanced (steps : List Transition) (m : Machine) : Prop :=
  ∀ i, (∃ e, .engine e ∈ m.stack ∧ e.id = i) ↔ InProgress steps i

theorem Balanced.step (hS : Bare S) (h : Balanced steps m) (hready : Ready S T σ t m)
    (hrecorded : Recorded steps t.entered? m) {s : Step} (hstep : t.perform m = .ok s m')
    (hs : s.task? = some t') : Balanced (⟨m, t', m'⟩ :: steps) m' := by
  obtain ⟨σ', hready', -, hshift⟩ := hready.next hS hstep hs
  have hreturns {e : Engine} (he : Transition.Returns ⟨m, t', m'⟩ e) :
      m.stack = .engine e :: m'.stack := (hready.returns hS hstep hs he).1
  -- Who is installed or returns can be read off the heights of the two stacks.
  have hlevel (hlength : m'.stack.length = m.stack.length) (i : Nat) :
      InProgress (⟨m, t', m'⟩ :: steps) i ↔ InProgress steps i := by
    refine inProgress_cons_of_neither (fun e he => ?_) fun e he => ?_
    · have := congrArg List.length he
      simp only [List.length_cons] at this
      omega
    · have := congrArg List.length (hreturns he)
      simp only [List.length_cons] at this
      omega
  intro i
  cases hshift with
  | stays hstack | calls hstack =>
    rw [hlevel (congrArg List.length hstack), ← h i, hstack]
  | @opens e hentered hstack =>
    have hinstalls : Transition.Installs ⟨m, t', m'⟩ e := hstack
    have hnone (f : Engine) : ¬ Transition.Returns ⟨m, t', m'⟩ f := by
      intro hf
      have hlength := congrArg List.length (hreturns hf)
      rw [hstack] at hlength
      simp only [List.length_cons] at hlength
      omega
    -- An identity that is about to be installed is new, so nothing has returned under it.
    have hnew : ∀ r ∈ steps, ∀ f, r.Returns f → f.id ≠ e.id := fun r hr f hf =>
      ((hrecorded.returned hr hf).2.2 hentered).symm
    rw [inProgress_cons_of_installs hinstalls hnone hnew, ← h i, hstack]
    constructor
    · rintro ⟨f, hf, rfl⟩
      rcases List.mem_cons.1 hf with heq | hf
      · cases heq
        exact .inl rfl
      · exact .inr ⟨f, hf, rfl⟩
    · rintro (rfl | ⟨f, hf, rfl⟩)
      · exact ⟨e, List.mem_cons_self, rfl⟩
      · exact ⟨f, List.mem_cons_of_mem _ hf, rfl⟩
  | @explores e e' outer hstack hstack' hid =>
    rw [hlevel (by rw [hstack, hstack']; rfl), ← h i, hstack, hstack']
    simp only [List.mem_cons, Coroutine.engine.injEq, or_and_right, exists_or, exists_eq_left, hid]
  | @closes e j d hstack _ htask =>
    have hreturned : Transition.Returns ⟨m, t', m'⟩ e :=
      ⟨hstack ▸ List.mem_cons_self, .dist j d, htask⟩
    have honly (f : Engine) (hf : Transition.Returns ⟨m, t', m'⟩ f) : f = e := by
      cases (List.cons.inj ((hreturns hf).symm.trans hstack)).1
      rfl
    have hnone (f : Engine) : ¬ Transition.Installs ⟨m, t', m'⟩ f := by
      intro hf
      have hlength := congrArg List.length (hf : m'.stack = _)
      rw [hstack] at hlength
      simp only [List.length_cons] at hlength
      omega
    rw [inProgress_cons_of_returns hreturned honly hnone, ← h i, hstack]
    constructor
    · rintro ⟨f, hf, rfl⟩
      refine ⟨?_, f, List.mem_cons_of_mem _ hf, rfl⟩
      -- The enumerations below have earlier identities.
      have htower := hready.machine.tower
      rw [hstack] at htower
      cases htower with
      | base => exact absurd List.mem_cons_self (hS e)
      | install htower he _ => exact (he.above _ (htower.id_mem hS hf)).ne
    · rintro ⟨hne, f, hf, rfl⟩
      rcases List.mem_cons.1 hf with heq | hf
      · cases heq
        exact absurd rfl hne
      · exact ⟨f, hf, rfl⟩

theorem Halt.exists_engines (hS : Bare S) (h : Halt m m') (htower : Tower S T σ m.stack) :
    ∃ inner : List Engine, m'.stack = inner.map .engine ++ S ∧ inner.map Engine.id = σ := by
  cases h with
  | stays hstack =>
    rw [hstack]
    exact htower.exists_engines
  | @explores e e' outer hstack hstack' hid =>
    rw [hstack] at htower
    rw [hstack']
    cases htower with
    | base => exact absurd List.mem_cons_self (hS e)
    | install htower _ _ =>
      obtain ⟨inner, rfl, rfl⟩ := htower.exists_engines
      exact ⟨e' :: inner, rfl, congrArg (· :: _) hid⟩

end Towers

theorem Program.Reaches.balanced (hq : p.compile = .ok q)
    (hnames : ∀ x ∈ stmtsNames p.body, ¬ IsGenerated x) (hS : Bare m₀.stack) (hm₀ : m₀.Held)
    (h : q.Reaches (.cont i .exit) m₀ steps t m) : Balanced steps m := by
  induction h with
  | start hstart hs =>
    obtain ⟨hm, -, -⟩ := p.start_ready hq hnames rfl hm₀ (Set.subset_univ _) hstart hs
    intro j
    refine iff_of_false ?_ ?_
    · rintro ⟨e, he, -⟩
      rw [hm.stack] at he
      exact hS e he
    · rintro ⟨⟨_, hr, _⟩, -⟩
      cases hr
  | step hreaches hstep hs ih =>
    obtain ⟨⟨σ, hready⟩, hrecorded⟩ := hreaches.kept hq hnames hS hm₀
    exact ih.step hS hready hrecorded hstep hs

/-- The coroutines where a run stops: on top of those at its start there are the enumerations in
progress, the latest first, and no others. -/
def Abandoned (S : List Coroutine) (steps : List Transition) (cs : List Coroutine) : Prop :=
  ∃ inner : List Engine, cs = inner.map .engine ++ S ∧ (inner.map Engine.id).Pairwise (· > ·) ∧
    ∀ i, i ∈ inner.map Engine.id ↔ InProgress steps i

section Abandoning

variable {S cs : List Coroutine} {T : Set Site} {σ : List Nat} {steps : List Transition} {t : Task}
  {m m' : Machine}

theorem Abandoned.of_halt (hS : Bare S) (hready : Ready S T σ t m) (hbalanced : Balanced steps m)
    (h : Halt m m') : Abandoned S steps m'.stack := by
  have htower := hready.machine.tower
  obtain ⟨inner, hstack, rfl⟩ := h.exists_engines hS htower
  exact ⟨inner, hstack, htower.pairwise, fun j => (htower.mem_iff hS).trans (hbalanced j)⟩

theorem Abandoned.suffix (h : Abandoned S steps cs) : S <:+ cs := by
  obtain ⟨inner, rfl, -⟩ := h
  exact List.suffix_append _ _

theorem Abandoned.eq_base_iff (h : Abandoned S steps cs) :
    cs = S ↔ ∀ i, ¬ InProgress steps i := by
  obtain ⟨inner, rfl, -, hmem⟩ := h
  simp only [← hmem, ← List.eq_nil_iff_forall_not_mem, List.map_eq_nil_iff,
    List.append_left_eq_self]

end Abandoning

/-- Let a program use no names of a generated shape, and be started where no enumeration is
installed and no continuation is held. A run in slices that fails or is cancelled leaves the
coroutines as they are at that moment: on top of those at its start are the enumerations in
progress. So it leaves those at the start, as the run in one go does, just if none is in progress,
and they are back once the others are removed. -/
theorem failed_slices_leave_enumerations {p q : Program} (hq : p.compile = .ok q)
    (hnames : ∀ x ∈ stmtsNames p.body, ¬ IsGenerated x) {i : Nat} {m₀ m m' : Machine} {s : Step}
    (hS : Bare m₀.stack) (hm₀ : m₀.Held) (hstart : q.start (.cont i .exit) m₀ = .ok s m)
    (clocks : Nat → Clock) (hook : Nat → Bool) (fuel slices : Nat) {e : Error} {yields : Nat}
    (hrun : Trampoline.runSliced clocks hook fuel slices 0 (.ofStep s) m =
      (some (.error e), yields, m')) :
    ∃ steps t n, q.Reaches (.cont i .exit) m₀ steps t n ∧
      ((t.perform n = .error e m' ∧ ∃ k, s.run k m = .error e (m'.truncate m₀.depth)) ∨
        e = .cancelled ∧ n = m') ∧
      Abandoned m₀.stack steps m'.stack ∧
      (m'.stack = m₀.stack ↔ ∀ i, ¬ InProgress steps i) ∧
      (m'.truncate m₀.depth).stack = m₀.stack := by
  have hcalls := p.start_calls hq hnames hm₀ subset_rfl i
  unfold Exec.Stays at hcalls
  rw [hstart] at hcalls
  obtain ⟨⟨f, args, rfl, -⟩, hm⟩ := hcalls
  have hfirst : q.Reaches (.cont i .exit) m₀ [] (.call f args) m := .start hstart rfl
  -- Whatever the driver, it stops at a task of the run, in the state that the task left or found.
  suffices hstops : ∃ steps t n, q.Reaches (.cont i .exit) m₀ steps t n ∧ Halt n m' ∧
      ((t.perform n = .error e m' ∧
        ∃ k, (Step.bounce (.call f args)).run k m = .error e (m'.truncate m₀.depth)) ∨
      e = .cancelled ∧ n = m') by
    obtain ⟨steps, t, n, hreaches, hhalt, hcause⟩ := hstops
    obtain ⟨⟨σ, hready⟩, -⟩ := hreaches.kept hq hnames hS hm₀
    have habandoned := Abandoned.of_halt hS hready (hreaches.balanced hq hnames hS hm₀) hhalt
    exact ⟨steps, t, n, hreaches, hcause, habandoned, habandoned.eq_base_iff,
      truncate_stack habandoned.suffix⟩
  obtain ⟨k, hdrive | ⟨rfl, o, hdrive⟩⟩ := Trampoline.exists_drive_of_runSliced hrun
  · obtain ⟨steps, t, n, hreaches, hfail⟩ := hfirst.of_error hdrive
    obtain ⟨⟨σ, hready⟩, -⟩ := hreaches.kept hq hnames hS hm₀
    refine ⟨steps, t, n, hreaches, hready.halt_of_error hS hfail, .inl ⟨hfail, k, ?_⟩⟩
    simp only [Step.run, Exec.guarded, hdrive, Machine.depth, hm.stack]
  · obtain ⟨steps, t, n, hreaches, hend⟩ := hfirst.of_ok hdrive
    obtain ⟨⟨σ, hready⟩, -⟩ := hreaches.kept hq hnames hS hm₀
    have hn : n = m' := by
      rcases hend with hn | ⟨v, hdone⟩
      · exact hn
      · exact (hready.base_of_done hS hdone).1.symm
    exact ⟨steps, t, n, hreaches, .stays (congrArg Machine.stack hn.symm), .inr ⟨rfl, hn⟩⟩

theorem failingSource_fails_in_slices :
    ∃ p, Program.parse failingSource = .ok p ∧ (∀ x ∈ stmtsNames p.body, ¬ IsGenerated x) ∧
      ∃ q, p.compile = .ok q ∧
        ∃ s m, q.start (.cont 0 .exit) (Machine.initial default) = .ok s m ∧
          ∃ e yields m',
            Trampoline.runSliced (fun _ _ => true) (fun _ => false) 100 10 0 (.ofStep s) m =
              (some (.error e), yields, m') ∧ m'.depth = 2 := by
  decide +kernel

/-- Slices leave behind two enumerations that were not there before. -/
theorem failingSource_leaves_enumerations :
    ∃ p q s m e yields m', Program.parse failingSource = .ok p ∧ p.compile = .ok q ∧
      q.start (.cont 0 .exit) (Machine.initial default) = .ok s m ∧
      Trampoline.runSliced (fun _ _ => true) (fun _ => false) 100 10 0 (.ofStep s) m =
        (some (.error e), yields, m') ∧ (Machine.initial default).depth = 0 ∧ m'.depth = 2 := by
  obtain ⟨p, hp, -, q, hq, s, m, hstart, e, yields, m', hrun, hdepth⟩ :=
    failingSource_fails_in_slices
  exact ⟨p, q, s, m, e, yields, m', hp, hq, hstart, hrun, rfl, hdepth⟩

theorem failingSource_abandons_enumerations :
    ∃ (p q : Program) (s : Step) (m : Machine) (e : Error) (yields : Nat) (m' : Machine)
      (steps : List Transition), Program.parse failingSource = .ok p ∧ p.compile = .ok q ∧
      q.start (.cont 0 .exit) (Machine.initial default) = .ok s m ∧
      Trampoline.runSliced (fun _ _ => true) (fun _ => false) 100 10 0 (.ofStep s) m =
        (some (.error e), yields, m') ∧
      Abandoned [] steps m'.stack ∧ (∃ i, InProgress steps i) ∧ (m'.truncate 0).stack = [] := by
  obtain ⟨p, hp, hnames, q, hq, s, m, hstart, e, yields, m', hrun, hdepth⟩ :=
    failingSource_fails_in_slices
  have hbare : Bare (Machine.initial default).stack := fun _ => List.not_mem_nil
  have hheld : (Machine.initial default).Held := ⟨nofun, nofun⟩
  obtain ⟨steps, t, n, -, -, habandoned, hiff, htruncated⟩ :=
    failed_slices_leave_enumerations hq hnames hbare hheld hstart _ _ _ _ hrun
  refine ⟨p, q, s, m, e, yields, m', steps, hp, hq, hstart, hrun, habandoned, ?_, htruncated⟩
  by_contra hnone
  have hstack : m'.stack = [] := hiff.2 (not_exists.1 hnone)
  rw [Machine.depth, hstack] at hdepth
  cases hdepth

/-! ## The store -/

/-- A store that steps of the run, which left the coroutines alone, have made from the first one.
Each step is given by the states before and after it. -/
inductive Written (changes : List (Machine × Machine)) (s₀ : Store) : Store → Prop
  | same : Written changes s₀ s₀
  | write {m m' : Machine} : (m, m') ∈ changes → m'.stack = m.stack →
      Written changes s₀ m.store → Written changes s₀ m'.store

theorem Written.mono {changes' : List (Machine × Machine)} (h : Written changes s₀ s)
    (hsub : changes ⊆ changes') : Written changes' s₀ s := by
  induction h with
  | same => exact .same
  | write hmem hstack _ ih => exact .write (hsub hmem) hstack ih

theorem Written.eq_of_forall (h : Written changes s₀ s)
    (hquiet : ∀ c ∈ changes, c.2.stack = c.1.stack → c.2.store = c.1.store) : s = s₀ := by
  induction h with
  | same => rfl
  | write hmem hstack _ ih => exact (hquiet _ hmem hstack).trans ih

/-- All stores that the run can come back to without a write: the present one, those of the calls,
and those saved with the choices that were put off. -/
structure Saved (P : Store → Prop) (t : Task) (m : Machine) : Prop where
  store : P m.store
  installed : ∀ e, .engine e ∈ m.stack → P e.store ∧ ∀ s ∈ e.stores, P s
  entering : ∀ e, t.entered? = some e → P e.store

section Stores

variable {P : Store → Prop} {S inner : List Coroutine} {T : Set Site} {σ : List Nat} {t t' : Task}
  {m m' : Machine}

theorem Saved.mono {Q : Store → Prop} (h : Saved P t m) (hPQ : ∀ s, P s → Q s) : Saved Q t m where
  store := hPQ _ h.store
  installed := fun e he =>
    ⟨hPQ _ (h.installed e he).1, fun s hs => hPQ s ((h.installed e he).2 s hs)⟩
  entering := fun e he => hPQ _ (h.entering e he)

theorem Saved.step (h : Saved P t m) (hshift : Shift t m t' m')
    (hwrite : m'.stack = m.stack → P m.store → P m'.store) : Saved P t' m' := by
  cases hshift with
  | stays hstack hnone =>
    exact ⟨hwrite hstack h.store, hstack ▸ h.installed, fun e he => by cases hnone.symm.trans he⟩
  | calls hstack hentered _ _ hcall =>
    refine ⟨hwrite hstack h.store, hstack ▸ h.installed, fun e he => ?_⟩
    cases hentered.symm.trans he
    rw [hcall]
    exact h.store
  | @opens e hentered hstack hnone hstore hempty =>
    refine ⟨hstore ▸ h.store, fun f hf => ?_, fun f hf => by cases hnone.symm.trans hf⟩
    rw [hstack] at hf
    rcases List.mem_cons.1 hf with heq | hf
    · cases heq
      refine ⟨h.entering e hentered, ?_⟩
      rw [hempty]
      exact nofun
    · exact h.installed f hf
  | @explores e e' outer hstack hstack' _ _ hcall hnone hstore hstores =>
    have htop := h.installed e (hstack ▸ List.mem_cons_self)
    -- Backtracking takes up one of the stores that the choices were put off with.
    have hknown : ∀ s ∈ m.store :: e.stores, P s := List.forall_mem_cons.2 ⟨h.store, htop.2⟩
    refine ⟨hknown _ hstore, fun f hf => ?_, fun f hf => by cases hnone.symm.trans hf⟩
    rw [hstack'] at hf
    rcases List.mem_cons.1 hf with heq | hf
    · cases heq
      exact ⟨hcall ▸ htop.1, fun s hs => hknown s (hstores hs)⟩
    · exact h.installed f (hstack ▸ List.mem_cons_of_mem _ hf)
  | @closes e i d hstack hstore htask =>
    refine ⟨?_, fun f hf => h.installed f (hstack ▸ List.mem_cons_of_mem _ hf), fun f hf => ?_⟩
    · rw [hstore]
      exact (h.installed e (hstack ▸ List.mem_cons_self)).1
    · rw [htask] at hf
      cases hf

/-- The enumeration with the identity `i` is the outermost of those that are installed above `S` or
about to be. -/
def Outermost (S : List Coroutine) (t : Task) (m : Machine) (i : Nat) : Prop :=
  ∃ e : Engine, e.id = i ∧
    ((m.stack = S ∧ t.entered? = some e) ∨ ∃ inner, m.stack = inner ++ .engine e :: S)

theorem eq_or_exists_of_append {c d : Coroutine} {cs : List Coroutine}
    (h : c :: cs = inner ++ d :: S) : (c = d ∧ cs = S) ∨ ∃ inner', cs = inner' ++ d :: S := by
  cases inner with
  | nil =>
    cases h
    exact .inl ⟨rfl, rfl⟩
  | cons c' inner' =>
    cases h
    exact .inr ⟨inner', rfl⟩

theorem Outermost.before (hS : Bare S) (hshift : Shift t m t' m') {i : Nat}
    (h : Outermost S t' m' i) :
    Outermost S t m i ∨
      ∃ e, t'.entered? = some e ∧ e.id = i ∧ m.stack = S ∧ m'.stack = S ∧ e.store = m.store ∧
        m'.store = m.store := by
  obtain ⟨e, rfl, ⟨hbase, he⟩ | ⟨inner, hinner⟩⟩ := h
  · -- It is about to be installed.
    cases hshift with
    | stays _ hnone | opens _ _ hnone | explores _ _ _ _ _ hnone => cases hnone.symm.trans he
    | closes _ _ htask =>
      rw [htask] at he
      cases he
    | calls hstack hentered _ _ hcall hstore =>
      cases hentered.symm.trans he
      exact .inr ⟨e, he, rfl, hstack ▸ hbase, hbase, hcall, hstore⟩
  · -- It is installed, and was so before, unless this step has installed it.
    refine .inl ?_
    cases hshift with
    | stays hstack | calls hstack => exact ⟨e, rfl, .inr ⟨inner, hstack ▸ hinner⟩⟩
    | opens hentered hstack =>
      rw [hstack] at hinner
      rcases eq_or_exists_of_append hinner with ⟨heq, hbase⟩ | hinner
      · cases heq
        exact ⟨e, rfl, .inl ⟨hbase, hentered⟩⟩
      · exact ⟨e, rfl, .inr hinner⟩
    | @explores e₀ e₁ outer hstack hstack' hid =>
      rw [hstack'] at hinner
      rcases eq_or_exists_of_append hinner with ⟨heq, rfl⟩ | ⟨inner', rfl⟩
      · cases heq
        exact ⟨e₀, hid.symm, .inr ⟨[], hstack⟩⟩
      · exact ⟨e, rfl, .inr ⟨.engine e₀ :: inner', hstack⟩⟩
    | @closes e₀ _ _ hstack =>
      refine ⟨e, rfl, .inr ⟨.engine e₀ :: inner, ?_⟩⟩
      rw [hstack, hinner]
      rfl

theorem Saved.halt (h : Saved P t m) (hhalt : Halt m m')
    (hwrite : m'.stack = m.stack → P m.store → P m'.store) : P m'.store := by
  cases hhalt with
  | stays hstack => exact hwrite hstack h.store
  | @explores e e' outer hstack _ _ hstore =>
    have htop := h.installed e (hstack ▸ List.mem_cons_self)
    exact List.forall_mem_cons.2 ⟨h.store, htop.2⟩ _ hstore

theorem Outermost.of_halt (hhalt : Halt m m') {f : Engine}
    (hinner : m'.stack = inner ++ .engine f :: S) : Outermost S t m f.id := by
  cases hhalt with
  | stays hstack => exact ⟨f, rfl, .inr ⟨inner, hstack ▸ hinner⟩⟩
  | @explores e e' outer hstack hstack' hid =>
    rw [hstack'] at hinner
    rcases eq_or_exists_of_append hinner with ⟨heq, rfl⟩ | ⟨inner', rfl⟩
    · cases heq
      exact ⟨e, hid.symm, .inr ⟨[], hstack⟩⟩
    · exact ⟨f, rfl, .inr ⟨.engine e :: inner', hstack⟩⟩

end Stores

/-- The states before and after the step. -/
def Transition.change (s : Transition) : Machine × Machine :=
  (s.before, s.after)

/-- As long as an enumeration is the outermost one, all stores that the run can come back to were
made from the store of its call. -/
theorem Program.Reaches.saved {p q : Program} (hq : p.compile = .ok q)
    (hnames : ∀ x ∈ stmtsNames p.body, ¬ IsGenerated x) {i j : Nat} {m₀ m : Machine}
    (hS : Bare m₀.stack) (hm₀ : m₀.Held) {steps : List Transition} {t : Task}
    (h : q.Reaches (.cont i .exit) m₀ steps t m) (houter : Outermost m₀.stack t m j) :
    ∃ after c before e, steps = after ++ c :: before ∧ c.Calls e ∧ e.id = j ∧
      Saved (Written (after.map Transition.change) c.before.store) t m := by
  induction h with
  | start hstart hs =>
    obtain ⟨hm, -, hentered⟩ := p.start_ready hq hnames rfl hm₀ (Set.subset_univ _) hstart hs
    obtain ⟨e, -, ⟨-, he⟩ | ⟨inner, hinner⟩⟩ := houter
    · cases hentered.symm.trans he
    · -- At the start nothing is installed above the base, and the base holds no enumeration.
      have hmem : .engine e ∈ m₀.stack := by
        rw [← hm.stack, hinner]
        simp
      exact absurd hmem (hS e)
  | @step steps s t t' m m' hreaches hstep hs ih =>
    obtain ⟨⟨σ, hready⟩, -⟩ := hreaches.kept hq hnames hS hm₀
    obtain ⟨-, -, -, hshift⟩ := hready.next hS hstep hs
    rcases houter.before hS hshift with houter | ⟨e, he, hid, hbase, hbase', hcall, hstore⟩
    · obtain ⟨after, c, before, f, rfl, hcalls, hid, hsaved⟩ := ih houter
      refine ⟨⟨m, t', m'⟩ :: after, c, before, f, rfl, hcalls, hid, ?_⟩
      have hlater := hsaved.mono fun s hs => hs.mono (List.subset_cons_self (m, m') _)
      exact hlater.step hshift fun hstack hs => .write List.mem_cons_self hstack hs
    · -- This step is the call.
      refine ⟨[], ⟨m, t', m'⟩, steps, e, rfl, he, hid, ?_, fun f hf => ?_, fun f hf => ?_⟩
      · rw [hstore]
        exact .same
      · rw [hbase'] at hf
        exact absurd hf (hS f)
      · cases he.symm.trans hf
        rw [hcall]
        exact .same

/-- A failed run has come to a task that fails, unless it fails at its start, and leaves that state
but for the coroutines. -/
theorem Program.exists_of_run_error (hq : p.compile = .ok q)
    (hnames : ∀ x ∈ stmtsNames p.body, ¬ IsGenerated x) {m' : Machine} (hm : m.Held)
    (hrun : q.run fuel m = .error e m') :
    ∃ n', (q.start (.cont m.nextId .exit) >>= Step.drive fuel) { m with nextId := m.nextId + 1 } =
        .error e n' ∧ m' = n'.truncate m.depth ∧
      (n'.stack = m.stack ∨ ∃ steps t n,
        q.Reaches (.cont m.nextId .exit) { m with nextId := m.nextId + 1 } steps t n ∧
          t.perform n = .error e n') := by
  have hm₀ : Machine.Held { m with nextId := m.nextId + 1 } := ⟨hm.store, hm.tables⟩
  have hcalls := p.start_calls hq hnames hm₀ subset_rfl m.nextId
  have hrun' : EStateM.bind (q.start (.cont m.nextId .exit)) (Step.run fuel)
      { m with nextId := m.nextId + 1 } = .error e m' := hrun
  unfold Exec.Stays at hcalls
  simp only [bind, EStateM.bind]
  cases hstart : q.start (.cont m.nextId .exit) { m with nextId := m.nextId + 1 } with
  | error e' n =>
    rw [hstart] at hcalls
    simp only [EStateM.bind, hstart] at hrun'
    cases hrun'
    -- The start has failed before any task, and has installed nothing.
    have hstack : m'.stack = m.stack := hcalls
    refine ⟨m', rfl, ?_, .inl hstack⟩
    simp only [Machine.truncate, Machine.depth, ← hstack, Nat.sub_self, List.drop_zero]
  | ok s n₀ =>
    rw [hstart] at hcalls
    obtain ⟨⟨f, args, rfl, -⟩, hn₀⟩ := hcalls
    have hdepth : n₀.depth = m.depth := congrArg List.length hn₀.stack
    simp only [EStateM.bind, hstart, Step.run, Exec.guarded, hdepth] at hrun'
    cases hdrive : (Step.bounce (.call f args)).drive fuel n₀ with
    | ok o n' =>
      rw [hdrive] at hrun'
      cases hrun'
    | error e' n' =>
      rw [hdrive] at hrun'
      cases hrun'
      exact ⟨n', hdrive, rfl, .inr ((Program.Reaches.start hstart rfl).of_error hdrive)⟩

/-- Let a program use no names of a generated shape, and be started where no enumeration is
installed and no continuation is held. A failed run leaves the failing state but for the coroutines.
If an enumeration is in progress there, the store is what the steps since the outermost call, the
failing one included, have written; so it is the store of that call if they have written nothing. -/
theorem failed_run_leaves_writes {p q : Program} (hq : p.compile = .ok q)
    (hnames : ∀ x ∈ stmtsNames p.body, ¬ IsGenerated x) {m m' : Machine} (hS : Bare m.stack)
    (hm : m.Held) {fuel : Nat} {e : Error} (hrun : q.run fuel m = .error e m') :
    ∃ n', (q.start (.cont m.nextId .exit) >>= Step.drive fuel) { m with nextId := m.nextId + 1 } =
        .error e n' ∧ m' = n'.truncate m.depth ∧
      ∀ inner f, n'.stack = inner ++ .engine f :: m.stack →
        ∃ steps t n after c before g,
          q.Reaches (.cont m.nextId .exit) { m with nextId := m.nextId + 1 } steps t n ∧
          t.perform n = .error e n' ∧ steps = after ++ c :: before ∧ c.Calls g ∧ g.id = f.id ∧
          Written ((n, n') :: after.map Transition.change) c.before.store m'.store ∧
          ((∀ s ∈ (n, n') :: after.map Transition.change,
              s.2.stack = s.1.stack → s.2.store = s.1.store) →
            m'.store = c.before.store) := by
  have hm₀ : Machine.Held { m with nextId := m.nextId + 1 } := ⟨hm.store, hm.tables⟩
  have hS₀ : Bare { m with nextId := m.nextId + 1 }.stack := hS
  obtain ⟨n', hdrive, rfl, hstops⟩ := Program.exists_of_run_error hq hnames hm hrun
  refine ⟨n', hdrive, rfl, fun inner f hinner => ?_⟩
  rcases hstops with hstack | ⟨steps, t, n, hreaches, hfail⟩
  · -- Nothing is installed above the base yet.
    have hlength := congrArg List.length hinner
    simp only [hstack, List.length_append, List.length_cons] at hlength
    omega
  · obtain ⟨⟨σ, hready⟩, -⟩ := hreaches.kept hq hnames hS₀ hm₀
    have hhalt := hready.halt_of_error hS hfail
    obtain ⟨after, c, before, g, hsteps, hcalls, hid, hsaved⟩ :=
      hreaches.saved hq hnames hS₀ hm₀ (Outermost.of_halt hhalt hinner)
    have hlater := hsaved.mono fun s hs => hs.mono (List.subset_cons_self (n, n') _)
    have hwritten : Written ((n, n') :: after.map Transition.change) c.before.store n'.store :=
      hlater.halt hhalt fun hstack hs => .write List.mem_cons_self hstack hs
    exact ⟨steps, t, n, after, c, before, g, hreaches, hfail, hsteps, hcalls, hid, hwritten,
      hwritten.eq_of_forall⟩

/-- A source that writes to the store within an enumeration and then fails. -/
def writingSource : String :=
  "globalStore.x = false; Enumerate(function() \x7b globalStore.x = true; return missing; \x7d)"

theorem writingSource_fails_inside :
    ∃ p, Program.parse writingSource = .ok p ∧ (∀ x ∈ stmtsNames p.body, ¬ IsGenerated x) ∧
      ∃ q, p.compile = .ok q ∧
        ∃ e n, (q.start (.cont 0 .exit) >>= Step.drive 100)
            { Machine.initial default with nextId := 1 } = .error e n ∧
          (∃ f, n.stack = [.engine f] ∧ f.store = [("x", .bool false)]) ∧
          n.store = [("x", .bool true)] := by
  decide +kernel

theorem Program.run_error_of_drive {n : Machine}
    (h : (q.start (.cont m.nextId .exit) >>= Step.drive fuel) { m with nextId := m.nextId + 1 } =
      .error e n) : ∃ m', q.run fuel m = .error e m' ∧ m'.store = n.store := by
  have hrun : q.run fuel m = EStateM.bind (q.start (.cont m.nextId .exit)) (Step.run fuel)
      { m with nextId := m.nextId + 1 } := rfl
  rw [hrun]
  simp only [bind, EStateM.bind] at h ⊢
  cases hstart : q.start (.cont m.nextId .exit) { m with nextId := m.nextId + 1 } with
  | error e' n' =>
    rw [hstart] at h
    cases h
    exact ⟨n, rfl, rfl⟩
  | ok s n₀ =>
    rw [hstart] at h
    simp only [Step.run, Exec.guarded]
    dsimp only at h
    rw [h]
    exact ⟨_, rfl, rfl⟩

/-- The caller of a failing enumeration sees what was written within it. -/
theorem writingSource_leaves_write :
    ∃ p q e n f m', Program.parse writingSource = .ok p ∧ p.compile = .ok q ∧
      (q.start (.cont 0 .exit) >>= Step.drive 100) { Machine.initial default with nextId := 1 } =
        .error e n ∧ n.stack = [.engine f] ∧ q.run 100 (Machine.initial default) = .error e m' ∧
      f.store = [("x", .bool false)] ∧ m'.store = [("x", .bool true)] := by
  obtain ⟨p, hp, -, q, hq, e, n, hdrive, ⟨f, hstack, hbefore⟩, hafter⟩ := writingSource_fails_inside
  obtain ⟨m', hrun, hstore⟩ := Program.run_error_of_drive (m := Machine.initial default) hdrive
  exact ⟨p, q, e, n, f, m', hp, hq, hdrive, hstack, hrun, hbefore, hstore.trans hafter⟩

theorem writingSource_written_since_call :
    ∃ (p q : Program) (e : Error) (m' n n' : Machine) (after : List Transition) (c : Transition)
      (g : Engine), Program.parse writingSource = .ok p ∧ p.compile = .ok q ∧
      q.run 100 (Machine.initial default) = .error e m' ∧ c.Calls g ∧
      Written ((n, n') :: after.map Transition.change) c.before.store m'.store := by
  obtain ⟨p, hp, hnames, q, hq, e, n, hdrive, ⟨f, hstack, -⟩, -⟩ := writingSource_fails_inside
  obtain ⟨m', hrun, -⟩ := Program.run_error_of_drive (m := Machine.initial default) hdrive
  have hbare : Bare (Machine.initial default).stack := fun _ => List.not_mem_nil
  have hheld : (Machine.initial default).Held := ⟨nofun, nofun⟩
  obtain ⟨n', hdrive', -, hwritten⟩ := failed_run_leaves_writes hq hnames hbare hheld hrun
  cases hdrive.symm.trans hdrive'
  obtain ⟨_, _, n₁, after, c, _, g, _, _, _, hcalls, _, hwritten, _⟩ := hwritten [] f hstack
  exact ⟨p, q, e, m', n₁, n, after, c, g, hp, hq, hrun, hcalls, hwritten⟩

end Chance
