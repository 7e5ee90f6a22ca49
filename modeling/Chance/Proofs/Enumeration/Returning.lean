import Chance.Proofs.Machine.Outcomes
import Chance.Proofs.Machine.Trace

/-!
# Enumerations return where they were called

An enumeration is the innermost coroutine when it ends, however paths of inner and outer ones were
put off and taken up again. So it removes itself and nothing else, and the run goes on with the
coroutines and the store of the call.

- `Transition.Calls`, `Transition.Returns`: an enumeration is called, and hands over its result,
- `Ready.returns`: only the innermost enumeration hands over a result,
- `enumerations_return_where_called`: what this means for runs.
-/

namespace Chance

/-- The step calls an enumeration. -/
def Transition.Calls (s : Transition) (e : Engine) : Prop :=
  s.task.entered? = some e

/-- The step hands a result of an installed enumeration to the continuation of its call. -/
def Transition.Returns (s : Transition) (e : Engine) : Prop :=
  .engine e ∈ s.before.stack ∧ ∃ v, s.task = .call e.k [v]

/-! ## Who returns -/

section Towers

variable {S cs : List Coroutine} {T F : Set Site} {σ σ' : List Nat} {t t' : Task} {m m' : Machine}
  {e : Engine}

theorem Tower.pairwise (h : Tower S T σ cs) : σ.Pairwise (· > ·) := by
  induction h with
  | base => exact .nil
  | install _ he _ ih => exact List.pairwise_cons.2 ⟨he.above, ih⟩

theorem Tower.continues (hS : Bare S) (h : Tower S T σ cs) (he : .engine e ∈ cs) :
    ∃ outer, e.id :: outer <:+ σ ∧ Continues outer (shown outer T) e.k := by
  induction h with
  | base => exact absurd he (hS e)
  | install _ _ hk ih =>
    rcases List.mem_cons.1 he with heq | he
    · cases heq
      exact ⟨_, List.suffix_rfl, hk⟩
    · obtain ⟨outer, houter, hcont⟩ := ih he
      exact ⟨outer, houter.trans (List.suffix_cons _ _), hcont⟩

theorem Tower.not_continues (hS : Bare S) (h : Tower S T σ cs) (he : .engine e ∈ cs) :
    ¬ Continues σ F e.k := by
  intro hcont
  obtain ⟨outer, ⟨inner, rfl⟩, hcont'⟩ := h.continues hS he
  have hhead := hcont.head?_eq hcont'
  have hdescends := h.pairwise
  cases outer with
  | nil => cases inner <;> cases hhead
  | cons j outer =>
    have hj : j ∈ (inner ++ e.id :: j :: outer).head? := by
      rw [hhead]
      rfl
    cases inner with
    | nil =>
      cases hj
      exact absurd (List.rel_of_pairwise_cons hdescends List.mem_cons_self) (lt_irrefl _)
    | cons i inner =>
      cases hj
      refine absurd (List.rel_of_pairwise_cons hdescends ?_) (lt_irrefl _)
      simp

theorem Task.Fits.continues {G : Set Site} {k v : Value} (h : Task.Fits σ F (.call k [v]))
    (hk : Continues σ' G k) : Continues σ F k := by
  cases h with
  | resume h => exact h
  | name _ _ hκ =>
    cases hk with
    | lambda hx => exact absurd hκ hx.notContinuation

/-- Only the innermost enumeration hands over a result, and with it goes nothing but itself. -/
theorem Ready.returns (hS : Bare S) (h : Ready S T σ t m) {s : Step}
    (hstep : t.perform m = .ok s m') (hs : s.task? = some t') {e : Engine}
    (hreturns : Transition.Returns ⟨m, t', m'⟩ e) :
    m.stack = .engine e :: m'.stack ∧ m'.store = e.store ∧ ∃ i d, t' = .call e.k [.dist i d] := by
  obtain ⟨he, v, htask⟩ := hreturns
  obtain ⟨σ', hready, _, hshift⟩ := h.next hS hstep hs
  obtain ⟨_, _, hcont⟩ := h.machine.tower.continues hS he
  have hfits := hready.task
  dsimp only at htask he
  rw [htask] at hfits
  have hgone : .engine e ∉ m'.stack := fun hmem =>
    hready.machine.tower.not_continues hS hmem (hfits.continues hcont)
  cases hshift with
  | stays hstack | calls hstack => exact absurd (hstack ▸ he) hgone
  | opens _ hstack => exact absurd (hstack ▸ List.mem_cons_of_mem _ he) hgone
  | @explores e₀ e₁ outer hstack hstack' _ hk =>
    rw [hstack] at he
    rcases List.mem_cons.1 he with heq | he
    · cases heq
      have hmem : .engine e₁ ∈ m'.stack := hstack' ▸ List.mem_cons_self
      refine absurd (hfits.continues hcont) ?_
      rw [← hk]
      exact hready.machine.tower.not_continues hS hmem
    · exact absurd (hstack' ▸ List.mem_cons_of_mem _ he) hgone
  | @closes e₀ i d hstack hstore hcall =>
    rw [hstack] at he
    rcases List.mem_cons.1 he with heq | he
    · cases heq
      exact ⟨hstack, hstore, i, d, hcall⟩
    · exact absurd he hgone

end Towers

/-! ## What is known of a run -/

/-- One of the steps called the enumeration, above the given coroutines and with the store that it
restores. -/
def Called (steps : List Transition) (e : Engine) (outer : List Coroutine) : Prop :=
  ∃ s ∈ steps, ∃ e₀, s.Calls e₀ ∧ e₀.id = e.id ∧ e₀.k = e.k ∧ s.before.stack = outer ∧
    s.before.store = e.store

theorem Called.cons {steps : List Transition} {e : Engine} {outer : List Coroutine}
    (h : Called steps e outer) (s : Transition) : Called (s :: steps) e outer := by
  obtain ⟨c, hc, hcalled⟩ := h
  exact ⟨c, List.mem_cons_of_mem s hc, hcalled⟩

/-- Every enumeration that is installed, or about to be, was called by an earlier step; those that
have returned are neither. -/
structure Recorded (steps : List Transition) (entered : Option Engine) (m : Machine) : Prop where
  installed : ∀ {e outer}, .engine e :: outer <:+ m.stack → Called steps e outer
  entering : ∀ {e}, entered = some e → Called steps e m.stack
  called : ∀ {s e}, s ∈ steps → s.Calls e → e.id < m.nextId
  returned : ∀ {s e}, s ∈ steps → s.Returns e → e.id < m.nextId ∧
    (∀ {f}, .engine f ∈ m.stack → f.id ≠ e.id) ∧ ∀ {f}, entered = some f → f.id ≠ e.id

section Steps

variable {S : List Coroutine} {T : Set Site} {σ : List Nat} {steps : List Transition} {t t' : Task}
  {m m' : Machine}

theorem Shift.installed (hshift : Shift t m t' m') (h : Recorded steps t.entered? m) {e : Engine}
    {outer : List Coroutine} (hsuffix : .engine e :: outer <:+ m'.stack) :
    Called steps e outer := by
  cases hshift with
  | stays hstack | calls hstack => exact h.installed (hstack ▸ hsuffix)
  | opens hentered hstack =>
    rw [hstack] at hsuffix
    rcases List.suffix_cons_iff.1 hsuffix with heq | hsuffix
    · cases heq
      exact h.entering hentered
    · exact h.installed hsuffix
  | @explores e₀ _ outer₀ hstack hstack' hid hk hstore =>
    rw [hstack'] at hsuffix
    rcases List.suffix_cons_iff.1 hsuffix with heq | hsuffix
    · cases heq
      have hwhole : .engine e₀ :: outer <:+ m.stack := ⟨[], hstack.symm⟩
      obtain ⟨c, hc, e₀, hcalls, hid₀, hk₀, hbelow, hstore₀⟩ := h.installed hwhole
      exact ⟨c, hc, e₀, hcalls, hid₀.trans hid.symm, hk₀.trans hk.symm, hbelow,
        hstore₀.trans hstore.symm⟩
    · exact h.installed (hstack ▸ hsuffix.trans (List.suffix_cons _ _))
  | closes hstack => exact h.installed (hstack ▸ hsuffix.trans (List.suffix_cons _ _))

theorem Shift.id_cases (hshift : Shift t m t' m') {f : Engine} (hf : .engine f ∈ m'.stack) :
    (∃ g, .engine g ∈ m.stack ∧ g.id = f.id) ∨ t.entered? = some f := by
  cases hshift with
  | stays hstack | calls hstack => exact .inl ⟨f, hstack ▸ hf, rfl⟩
  | opens hentered hstack =>
    rw [hstack] at hf
    rcases List.mem_cons.1 hf with heq | hf
    · cases heq
      exact .inr hentered
    · exact .inl ⟨f, hf, rfl⟩
  | explores hstack hstack' hid =>
    rw [hstack'] at hf
    rcases List.mem_cons.1 hf with heq | hf
    · cases heq
      exact .inl ⟨_, hstack ▸ List.mem_cons_self, hid.symm⟩
    · exact .inl ⟨f, hstack ▸ List.mem_cons_of_mem _ hf, rfl⟩
  | closes hstack => exact .inl ⟨f, hstack ▸ List.mem_cons_of_mem _ hf, rfl⟩

theorem Shift.entered (hshift : Shift t m t' m') {e : Engine} (he : t'.entered? = some e) :
    m'.stack = m.stack ∧ m.nextId ≤ e.id ∧ e.store = m.store := by
  cases hshift with
  | stays _ hnone | opens _ _ hnone | explores _ _ _ _ _ hnone => cases hnone.symm.trans he
  | calls hstack hsome hge _ hstore =>
    cases hsome.symm.trans he
    exact ⟨hstack, hge, hstore⟩
  | closes _ _ heq =>
    subst heq
    cases he

theorem Recorded.step (hS : Bare S) (h : Recorded steps t.entered? m) (hready : Ready S T σ t m)
    {s : Step} (hstep : t.perform m = .ok s m') (hs : s.task? = some t') :
    Recorded (⟨m, t', m'⟩ :: steps) t'.entered? m' := by
  obtain ⟨σ', hready', hle, hshift⟩ := hready.next hS hstep hs
  refine
    { installed := fun hsuffix => (hshift.installed h hsuffix).cons _
      entering := fun {e} he => ?_
      called := fun {c e} hc hcalls => ?_
      returned := fun {c e} hc hreturns => ?_ }
  · obtain ⟨hstack, _, hstore⟩ := hshift.entered he
    exact ⟨_, List.mem_cons_self, e, he, rfl, rfl, hstack.symm, hstore.symm⟩
  · rcases List.mem_cons.1 hc with rfl | hc
    · exact hshift.new e hcalls
    · exact (h.called hc hcalls).trans_le hle
  · rcases List.mem_cons.1 hc with rfl | hc
    · obtain ⟨hstack, _, _, _, htask⟩ := hready.returns hS hstep hs hreturns
      have htop := hready.machine.tower
      rw [hstack] at htop
      have hid := htop.id_mem hS List.mem_cons_self
      refine ⟨(hready.machine.next _ hid).trans_le hle, fun {f} hf => ?_, fun {f} hf => ?_⟩
      · cases htop with
        | base => exact absurd List.mem_cons_self (hS e)
        | install htower he _ => exact (he.above _ (htower.id_mem hS hf)).ne
      · rw [htask] at hf
        cases hf
    · obtain ⟨hlt, hstack, hentered⟩ := h.returned hc hreturns
      refine ⟨hlt.trans_le hle, fun {f} hf => ?_, fun {f} hf => ?_⟩
      · rcases hshift.id_cases hf with ⟨g, hg, hid⟩ | hf
        · exact hid ▸ hstack hg
        · exact hentered hf
      · exact (hlt.trans_le (hshift.entered hf).2.1).ne'

theorem Recorded.settles {entered : Option Engine} (h : Recorded steps entered m)
    (hm' : m.Settles m') : Recorded steps none m' where
  installed := fun hsuffix => h.installed (hm'.stack ▸ hsuffix)
  entering := nofun
  called := fun hc hcalls => (h.called hc hcalls).trans_le hm'.nextId
  returned := fun hc hreturns => by
    obtain ⟨hlt, hstack, _⟩ := h.returned hc hreturns
    exact ⟨hlt.trans_le hm'.nextId, fun hf => hstack (hm'.stack ▸ hf), nofun⟩

end Steps

/-- What every run keeps. -/
structure Kept (S : List Coroutine) (h : History) (c : Option Task) (m : Machine) : Prop where
  running : ∀ t, c = some t → ∃ σ, Ready S Set.univ σ t m
  waiting : c = none → m.Held ∧ m.stack = S
  pending : ∀ k ∈ h.pending, Continues [] Set.univ k
  recorded : Recorded h.steps (c.bind Task.entered?) m

theorem Trace.kept {S : List Coroutine} (hS : Bare S) {p q : Program} (hq : p.compile = .ok q)
    (hnames : ∀ x ∈ stmtsNames p.body, ¬ IsGenerated x) {reuse : Bool} {h : History}
    {c : Option Task} {m : Machine} (htrace : Trace S reuse q h c m) : Kept S h c m := by
  induction htrace with
  | @start i s t m m' hstack hm hstart hs =>
    obtain ⟨hm', hready, hentered⟩ :=
      p.start_ready hq hnames hstack hm (Set.subset_univ _) hstart hs
    refine ⟨?_, nofun, nofun, ⟨fun {e outer} hsuffix => ?_, fun he => ?_, nofun, nofun⟩⟩
    · rintro _ ⟨⟩
      exact ⟨[], hready⟩
    · rw [hm'.stack, hstack] at hsuffix
      exact absurd (hsuffix.subset List.mem_cons_self) (hS e)
    · cases hentered.symm.trans he
  | step _ _ hstep hs ih =>
    obtain ⟨σ, hready⟩ := ih.running _ rfl
    obtain ⟨σ', hready', _⟩ := hready.next hS hstep hs
    refine ⟨?_, nofun, ih.pending, ih.recorded.step hS hready hstep hs⟩
    rintro _ ⟨⟩
    exact ⟨σ', hready'⟩
  | ask _ hstack hask ih =>
    obtain ⟨σ, hready⟩ := ih.running _ rfl
    obtain rfl := hready.base hS hstack
    have htask := hready.task
    rw [shown_nil] at htask
    obtain ⟨_, hm', G, hG, _, hk⟩ := (Task.poses_of_ask? hask).fits hready.machine.held htask
    refine ⟨nofun, fun _ => ⟨hm'.held, hm'.stack.trans hstack⟩, ?_, ih.recorded.settles hm'⟩
    exact List.forall_mem_cons.2 ⟨hk.mono hG, ih.pending⟩
  | @answer h m m' before after k v _ hpending hv hm' ih =>
    obtain ⟨hm, hstack⟩ := ih.waiting rfl
    have hk : Continues [] Set.univ k := ih.pending k (by simp [hpending])
    refine ⟨?_, nofun, ?_, ih.recorded.settles hm'⟩
    · rintro _ ⟨⟩
      refine ⟨[], .of_base hm'.held (hm'.stack.trans hstack), .resume ?_ hv, nofun⟩
      rwa [shown_nil]
    · intro k' hk'
      cases reuse with
      | true => exact ih.pending k' hk'
      | false =>
        have hsub : (before ++ after).Sublist h.pending := by
          rw [hpending]
          exact (List.sublist_cons_self k after).append_left before
        exact ih.pending k' (hsub.subset hk')

/-! ## The end of a run -/

section Ends

variable {S : List Coroutine} {T : Set Site} {σ : List Nat} {t : Task} {m m' : Machine}

theorem truncate_stack (h : S <:+ m.stack) : (m.truncate S.length).stack = S := by
  obtain ⟨inner, hinner⟩ := h
  simp only [Machine.truncate, ← hinner, List.length_append, Nat.add_sub_cancel, List.drop_left]

theorem Ready.drive (hS : Bare S) (fuel : Nat) (h : Ready S T σ t m) :
    (∀ {v}, t.drive fuel m = .ok (some v) m' → m'.stack = S) ∧
    ∀ {e}, t.drive fuel m = .error e m' → S <:+ m'.stack := by
  induction fuel generalizing σ t m with
  | zero => exact ⟨nofun, nofun⟩
  | succ fuel ih =>
    rw [Task.drive_succ]
    cases hstep : t.perform m with
    | error e n =>
      refine ⟨nofun, fun heq => ?_⟩
      cases heq
      exact h.suffix_of_error hS hstep
    | ok s n =>
      cases s with
      | done v =>
        refine ⟨fun heq => ?_, nofun⟩
        cases heq
        exact h.stack_of_done hS hstep
      | bounce t' | through t' =>
        obtain ⟨σ', hready, _⟩ := h.next hS hstep rfl
        exact ih hready

theorem Ready.run (hS : Bare S) (fuel : Nat) (h : Ready S T σ t m) (hstack : m.stack = S) :
    (∀ {v}, (Step.bounce t).run fuel m = .ok (some v) m' → m'.stack = S) ∧
    ∀ {e}, (Step.bounce t).run fuel m = .error e m' → m'.stack = S := by
  unfold Step.run Exec.guarded
  cases hdrive : (Step.bounce t).drive fuel m with
  | ok a n =>
    refine ⟨fun heq => ?_, nofun⟩
    cases heq
    exact (h.drive hS fuel).1 hdrive
  | error e n =>
    refine ⟨nofun, fun heq => ?_⟩
    cases heq
    rw [Machine.depth, hstack]
    exact truncate_stack ((h.drive hS fuel).2 hdrive)

theorem Program.run_stack (hS : Bare S) {p q : Program} (hq : p.compile = .ok q)
    (hnames : ∀ x ∈ stmtsNames p.body, ¬ IsGenerated x) {fuel : Nat} (hstack : m.stack = S)
    (hm : m.Held) :
    (∀ {v}, q.run fuel m = .ok (some v) m' → m'.stack = S) ∧
    ∀ {e}, q.run fuel m = .error e m' → m'.stack = S := by
  have hheld : Machine.Held { m with nextId := m.nextId + 1 } := ⟨hm.store, hm.tables⟩
  have hcalls := p.start_calls hq hnames hheld subset_rfl m.nextId
  have hrun : q.run fuel m =
      EStateM.bind (q.start (.cont m.nextId .exit)) (Step.run fuel)
        { m with nextId := m.nextId + 1 } := rfl
  unfold Exec.Stays at hcalls
  cases hstart : q.start (.cont m.nextId .exit) { m with nextId := m.nextId + 1 } with
  | error e n =>
    rw [hstart] at hcalls
    simp only [hrun, EStateM.bind, hstart]
    refine ⟨nofun, fun heq => ?_⟩
    cases heq
    exact Eq.trans hcalls hstack
  | ok s n =>
    rw [hstart] at hcalls
    obtain ⟨⟨f, args, rfl, hfits⟩, hn⟩ := hcalls
    have hbase : n.stack = S := hn.stack.trans hstack
    have hready : Ready S (Below "") [] (.call f args) n :=
      ⟨.of_base hn.held hbase, by rwa [shown_nil], nofun⟩
    simp only [hrun, EStateM.bind, hstart]
    exact hready.run hS fuel hbase

end Ends

/-- In a run of a compiled program without names of a generated shape, above coroutines that are no
enumerations, from a state that holds no continuation, whatever the coroutines answer that holds
none either: they stay in place below those that the run installs; each call of an enumeration has
an identity of its own; when an enumeration hands over its result, which it does once at most, the
coroutines and the store are those of its call; and when the run ends, with a value or with an
error, no other coroutines are left. -/
theorem enumerations_return_where_called {p q : Program} (hq : p.compile = .ok q)
    (hnames : ∀ x ∈ stmtsNames p.body, ¬ IsGenerated x) {S : List Coroutine} (hS : Bare S) :
    (∀ {h : History} {c : Option Task} {m : Machine}, Trace S true q h c m → S <:+ m.stack) ∧
    (∀ {h : History} {t t' : Task} {m m' : Machine} {s : Step} {e : Engine},
      Trace S true q h (some t) m → t.perform m = .ok s m' → s.task? = some t' →
      (Transition.Calls ⟨m, t', m'⟩ e → ∀ c ∈ h.steps, ∀ f, c.Calls f → f.id ≠ e.id) ∧
      (Transition.Returns ⟨m, t', m'⟩ e →
        (∃ i d, t' = .call e.k [.dist i d]) ∧
        (∃ c ∈ h.steps, ∃ f, c.Calls f ∧ f.id = e.id ∧ f.k = e.k ∧
          c.before.stack = m'.stack ∧ c.before.store = m'.store) ∧
        ∀ r ∈ h.steps, ∀ f, r.Returns f → f.id ≠ e.id)) ∧
    (∀ {h : History} {t : Task} {m m' : Machine}, Trace S true q h (some t) m →
      (∀ {v}, t.perform m = .ok (.done v) m' → m'.stack = S) ∧
      ∀ {e}, t.perform m = .error e m' → (m'.truncate S.length).stack = S) ∧
    (∀ {fuel : Nat} {m m' : Machine}, m.stack = S → m.Held →
      (∀ {v}, q.run fuel m = .ok (some v) m' → m'.stack = S) ∧
      ∀ {e}, q.run fuel m = .error e m' → m'.stack = S) := by
  refine ⟨fun {h c m} htrace => ?_, fun {h t t' m m' s e} htrace hstep hs => ?_,
    fun {h t m m'} htrace => ?_, fun hstack hm => Program.run_stack hS hq hnames hstack hm⟩
  · have hkept := htrace.kept hS hq hnames
    cases c with
    | none => exact (hkept.waiting rfl).2 ▸ List.suffix_rfl
    | some t =>
      obtain ⟨σ, hready⟩ := hkept.running t rfl
      exact hready.machine.tower.suffix
  · have hkept := htrace.kept hS hq hnames
    obtain ⟨σ, hready⟩ := hkept.running t rfl
    refine ⟨fun hcalls c hc f hf => ?_, fun hreturns => ?_⟩
    · obtain ⟨_, _, _, hshift⟩ := hready.next hS hstep hs
      exact ((hkept.recorded.called hc hf).trans_le (hshift.entered hcalls).2.1).ne
    · -- What is below the enumeration that returns is what its call has recorded.
      obtain ⟨hstack, hstore, htask⟩ := hready.returns hS hstep hs hreturns
      refine ⟨htask, ?_, fun r hr f hf => ((hkept.recorded.returned hr hf).2.1 hreturns.1).symm⟩
      have hwhole : .engine e :: m'.stack <:+ m.stack := ⟨[], hstack.symm⟩
      obtain ⟨c, hc, f, hcalls, hid, hk, hbelow, hsaved⟩ := hkept.recorded.installed hwhole
      exact ⟨c, hc, f, hcalls, hid, hk, hbelow, hsaved.trans hstore.symm⟩
  · obtain ⟨σ, hready⟩ := (htrace.kept hS hq hnames).running t rfl
    refine ⟨hready.stack_of_done hS, fun hstep => ?_⟩
    exact truncate_stack (hready.suffix_of_error hS hstep)

/-! ## A source that returns and fails -/

/-- A run by itself is a run under some coroutines, up to any point. -/
theorem Trace.runTo {S : List Coroutine} (hS : Bare S) {p q : Program} (hq : p.compile = .ok q)
    (hnames : ∀ x ∈ stmtsNames p.body, ¬ IsGenerated x) {stop : Task → Machine → Bool} {fuel : Nat}
    {h : History} {t t₁ : Task} {m m₁ : Machine} (htrace : Trace S true q h (some t) m)
    (hpoint : t.runTo stop fuel m = some (t₁, m₁)) :
    (∃ h₁, Trace S true q h₁ (some t₁) m₁) ∧ stop t₁ m₁ = true := by
  refine Task.runTo_keeps (R := fun t m => ∃ h, Trace S true q h (some t) m) hpoint ⟨h, htrace⟩ ?_
  rintro t t' m m' s ⟨h, htrace⟩ - hs ht'
  obtain ⟨σ, hready⟩ := (htrace.kept hS hq hnames).running t rfl
  obtain ⟨h', htrace', -⟩ := htrace.perform hS hready hs ht'
  exact ⟨h', htrace'⟩

/-- The task removes a coroutine. -/
def Task.isReturning (t : Task) (m : Machine) : Bool :=
  match t.perform m with
  | .ok s m' => s.task?.isSome && decide (m'.depth < m.depth)
  | .error .. => false

/-- The task fails. -/
def Task.isFailing (t : Task) (m : Machine) : Bool :=
  match t.perform m with
  | .ok .. => false
  | .error .. => true

/-- Only an enumeration that hands over its result is removed. -/
theorem Ready.exists_returns {S : List Coroutine} (hS : Bare S) {T : Set Site} {σ : List Nat}
    {t : Task} {m : Machine} (h : Ready S T σ t m) (hreturning : t.isReturning m = true) :
    ∃ s t' m' e, t.perform m = .ok s m' ∧ s.task? = some t' ∧ Transition.Returns ⟨m, t', m'⟩ e := by
  unfold Task.isReturning at hreturning
  split at hreturning
  · rename_i s m' hs
    obtain ⟨hsome, hdepth⟩ := Bool.and_eq_true_iff.1 hreturning
    obtain ⟨t', ht'⟩ := Option.isSome_iff_exists.1 hsome
    have hfalls : m'.stack.length < m.stack.length := of_decide_eq_true hdepth
    obtain ⟨_, _, _, hshift⟩ := h.next hS hs ht'
    -- Of all that a step can do to the coroutines, only a return leaves fewer of them.
    cases hshift with
    | stays hstack | calls hstack => exact absurd hfalls (by rw [hstack]; exact lt_irrefl _)
    | opens _ hstack => exact absurd hfalls (by rw [hstack, List.length_cons]; omega)
    | explores hstack hstack' => exact absurd hfalls (by rw [hstack, hstack']; exact lt_irrefl _)
    | @closes e i d hstack _ htask =>
      refine ⟨s, t', m', e, hs, ht', ?_, .dist i d, htask⟩
      exact hstack ▸ List.mem_cons_self
  · cases hreturning

/-- A source with an enumeration within an enumeration, which fails after both have returned. -/
def nestedSource : String :=
  "globalStore.x = true; Enumerate(function() \x7b globalStore.x = false; " ++
    "return Enumerate(function() \x7b return 1; \x7d); \x7d); missing"

/-- Above a script, the inner enumeration is the first to return, to the coroutines and the store
that it was called with; the run fails later, and leaves the script behind. -/
theorem nestedSource_returns_where_called :
    ∃ (p q : Program) (h : History) (t t' : Task) (m m' : Machine) (s : Step) (e : Engine),
      Program.parse nestedSource = .ok p ∧ p.compile = .ok q ∧
      Trace scripted.stack true q h (some t) m ∧ t.perform m = .ok s m' ∧ s.task? = some t' ∧
      scripted.stack <:+ m.stack ∧ Transition.Returns ⟨m, t', m'⟩ e ∧
      (∃ c ∈ h.steps, ∃ f, c.Calls f ∧ f.id = e.id ∧
        c.before.stack = m'.stack ∧ c.before.store = m'.store) ∧
      (∀ r ∈ h.steps, ∀ f, r.Returns f → f.id ≠ e.id) ∧
      (∃ h' t' m' er n, Trace scripted.stack true q h' (some t') m' ∧
        t'.perform m' = .error er n ∧ (n.truncate 1).stack = scripted.stack) ∧
      ∃ er n, q.run 200 scripted = .error er n ∧ n.stack = scripted.stack := by
  have hsource : ∃ p, Program.parse nestedSource = .ok p ∧
      (∀ x ∈ stmtsNames p.body, ¬ IsGenerated x) ∧ ∃ q, p.compile = .ok q ∧
        (∃ s m, q.start (.cont 0 .exit) scripted = .ok s m ∧
          (s.task?.bind fun t => t.runTo Task.isReturning 200 m).isSome = true ∧
          (s.task?.bind fun t => t.runTo Task.isFailing 200 m).isSome = true) ∧
        ∃ er n, q.run 200 scripted = .error er n ∧ n.depth = 1 := by
    decide +kernel
  obtain ⟨p, hp, hnames, q, hq, ⟨s₀, m₀, hstart, hreturning, hfailing⟩, er, n, hrun, -⟩ := hsource
  obtain ⟨hsuffix, hsteps, hends, hruns⟩ := enumerations_return_where_called hq hnames bare_scripted
  obtain ⟨⟨t, m⟩, hpoint⟩ := Option.isSome_iff_exists.1 hreturning
  obtain ⟨t₀, ht₀, hpoint⟩ := Option.bind_eq_some_iff.1 hpoint
  have htrace : Trace scripted.stack true q ⟨[], [], []⟩ (some t₀) m₀ :=
    .start rfl held_scripted hstart ht₀
  obtain ⟨⟨h, htrace₁⟩, hreturns⟩ := htrace.runTo bare_scripted hq hnames hpoint
  obtain ⟨σ, hready⟩ := (htrace₁.kept bare_scripted hq hnames).running t rfl
  obtain ⟨s, t', m', e, hs, ht', hreturns⟩ := hready.exists_returns bare_scripted hreturns
  obtain ⟨-, ⟨c, hc, f, hcalls, hid, -, hstack, hstore⟩, honce⟩ :=
    (hsteps htrace₁ hs ht').2 hreturns
  refine ⟨p, q, h, t, t', m, m', s, e, hp, hq, htrace₁, hs, ht', hsuffix htrace₁, hreturns,
    ⟨c, hc, f, hcalls, hid, hstack, hstore⟩, honce, ?_, er, n, hrun,
    (hruns rfl held_scripted).2 hrun⟩
  obtain ⟨⟨t₂, m₂⟩, hpoint⟩ := Option.isSome_iff_exists.1 hfailing
  rw [ht₀, Option.bind_some] at hpoint
  obtain ⟨⟨h₂, htrace₂⟩, hfails⟩ := htrace.runTo bare_scripted hq hnames hpoint
  unfold Task.isFailing at hfails
  split at hfails
  · cases hfails
  · rename_i er₂ m₃ hperform
    exact ⟨h₂, t₂, m₂, er₂, m₃, htrace₂, hperform, (hends htrace₂).2 hperform⟩

/-! ## A continuation that was kept -/

/-- A source that keeps the continuation of its run in the store. -/
def keepingSource : String :=
  "globalStore.k = _k0; 1"

/-- A source without names of a generated shape that calls what it finds in the store. -/
def leavingSource : String :=
  "Enumerate(function() \x7b var f = globalStore.k; return f(1); \x7d)"

/-- In a state that holds a continuation, a program can end its run within an enumeration, which is
left behind. -/
theorem leavingSource_leaves_enumeration :
    ∃ p, Program.parse keepingSource = .ok p ∧ ∃ q, p.compile = .ok q ∧
      ∃ v m, q.run 50 (.initial default) = .ok (some v) m ∧ m.depth = 0 ∧
        ∃ p', Program.parse leavingSource = .ok p' ∧ (∀ x ∈ stmtsNames p'.body, ¬ IsGenerated x) ∧
          ∃ q', p'.compile = .ok q' ∧ ∃ v' n, q'.run 50 m = .ok (some v') n ∧ n.depth = 1 := by
  decide +kernel

/-- A source that fails within an enumeration within an enumeration. -/
def failingSource : String :=
  "Enumerate(function() \x7b return Enumerate(function() \x7b return missing; \x7d); \x7d)"

end Chance
