import Mathlib.Data.List.Pairwise
import Chance.Proofs.Machine.Outcomes
import Chance.Proofs.Machine.Trace

/-!
# Addresses identify calls

Outside of all enumerations a run asks each question at a site of its own: whoever answers can keep
what it knows about a question under its address. The sites that are left to the run and to each
continuation that a coroutine has not yet resumed never meet, and none of them was asked before.

- `Separated`: how the sites are shared out,
- `addresses_identify_calls`: no two questions of a run are at the same site.
-/

namespace Chance

/-- The run may still ask at sites of `T`, and each pending continuation at those of its set in
`Gs`. -/
structure Separated (S : List Coroutine) (h : History) (c : Option Task) (m : Machine)
    (T : Set Site) (Gs : List (Set Site)) : Prop where
  running : ∀ t, c = some t → ∃ σ, Ready S T σ t m
  waiting : c = none → m.Held ∧ m.stack = S
  pending : List.Forall₂ (Continues []) Gs h.pending
  apart : (T :: Gs).Pairwise Disjoint
  unasked : ∀ s ∈ h.asked, ∀ X ∈ T :: Gs, s ∉ X
  nodup : h.asked.Nodup

namespace Separated

variable {S : List Coroutine} {h : History} {m m' : Machine} {T : Set Site} {Gs : List (Set Site)}

theorem step (hS : Bare S) {s : Step} {t t' : Task} (hsep : Separated S h (some t) m T Gs)
    (hstep : t.perform m = .ok s m') (hs : s.task? = some t') (steps : List Transition) :
    Separated S ⟨steps, h.asked, h.pending⟩ (some t') m' T Gs := by
  obtain ⟨σ, hready⟩ := hsep.running t rfl
  obtain ⟨σ', hready', _, _⟩ := hready.next hS hstep hs
  exact
    { hsep with
      running := fun u hu => by
        cases hu
        exact ⟨σ', hready'⟩
      waiting := nofun }

/-- The site that is asked leaves the share of the run; what is left goes with the continuation. -/
theorem ask (hS : Bare S) {t : Task} {q : Ask} (hsep : Separated S h (some t) m T Gs)
    (hstack : m.stack = S) (hposes : Poses t m q m') (steps : List Transition) :
    ∃ G, Separated S ⟨steps, q.site :: h.asked, q.k :: h.pending⟩ none m' ∅ (G :: Gs) := by
  obtain ⟨σ, hready⟩ := hsep.running t rfl
  obtain rfl := hready.base hS hstack
  have htask := hready.task
  rw [shown_nil] at htask
  obtain ⟨hsite, hm', G, hG, hnot, hk⟩ := hposes.fits hready.machine.held htask
  obtain ⟨hT, hGs⟩ := List.pairwise_cons.1 hsep.apart
  -- The run is left with no sites until it is answered.
  refine ⟨G,
    { running := nofun
      waiting := fun _ => ⟨hm'.held, hm'.stack.trans hstack⟩
      pending := .cons hk hsep.pending
      apart := ?_
      unasked := ?_
      nodup := ?_ }⟩
  · refine List.pairwise_cons.2 ⟨fun X _ => Set.empty_disjoint X, List.pairwise_cons.2 ⟨?_, hGs⟩⟩
    exact fun X hX => (hT X hX).mono_left hG
  · refine List.forall_mem_cons.2 ⟨?_, fun s hs => ?_⟩
    · refine List.forall_mem_cons.2 ⟨id, List.forall_mem_cons.2 ⟨hnot, fun X hX => ?_⟩⟩
      exact Set.disjoint_left.1 (hT X hX) hsite
    · obtain ⟨hsT, hsGs⟩ := List.forall_mem_cons.1 (hsep.unasked s hs)
      exact List.forall_mem_cons.2 ⟨id, List.forall_mem_cons.2 ⟨fun hsG => hsT (hG hsG), hsGs⟩⟩
  · refine List.nodup_cons.2 ⟨fun hmem => ?_, hsep.nodup⟩
    exact hsep.unasked _ hmem T List.mem_cons_self hsite

theorem answer {before after : List Value} {k v : Value} (hsep : Separated S h none m ∅ Gs)
    (hpending : h.pending = before ++ k :: after) (hv : v.Held) (hm' : m.Settles m')
    (steps : List Transition) :
    ∃ G Gs', Separated S ⟨steps, h.asked, before ++ after⟩ (some (.call k [v])) m' G Gs' := by
  obtain ⟨hm, hstack⟩ := hsep.waiting rfl
  obtain ⟨Gs₁, G, Gs₂, rfl, hbefore, hk, hafter⟩ :
      ∃ Gs₁ G Gs₂, Gs = Gs₁ ++ G :: Gs₂ ∧ List.Forall₂ (Continues []) Gs₁ before ∧
        Continues [] G k ∧ List.Forall₂ (Continues []) Gs₂ after := by
    have hforall := hsep.pending
    rw [hpending] at hforall
    obtain ⟨G, Gs₂, hk, hafter, heq⟩ :=
      List.forall₂_cons_right_iff.1 (List.forall₂_drop_append _ _ _ hforall)
    refine ⟨_, G, Gs₂, ?_, List.forall₂_take_append _ _ _ hforall, hk, hafter⟩
    rw [← heq, List.take_append_drop]
  -- The share of the resumed continuation goes back to the run.
  have hperm : (G :: (Gs₁ ++ Gs₂)).Perm (Gs₁ ++ G :: Gs₂) := List.perm_middle.symm
  refine ⟨G, Gs₁ ++ Gs₂,
    { running := ?_
      waiting := nofun
      pending := List.rel_append hbefore hafter
      apart := ?_
      unasked := fun s hs X hX => ?_
      nodup := hsep.nodup }⟩
  · rintro _ ⟨⟩
    refine ⟨[], .of_base hm'.held (hm'.stack.trans hstack), .resume ?_ hv, nofun⟩
    rw [shown_nil]
    exact hk
  · have hpairwise := (List.pairwise_cons.1 hsep.apart).2
    exact (hperm.pairwise_iff fun hdisjoint => hdisjoint.symm).2 hpairwise
  · exact hsep.unasked s hs X (List.mem_cons_of_mem _ (hperm.mem_iff.1 hX))

end Separated

/-- However a compiled program is answered, as long as no continuation is resumed twice, its sites
stay shared out. -/
theorem Trace.separated {S : List Coroutine} (hS : Bare S) {p q : Program}
    (hq : p.compile = .ok q) (hnames : ∀ x ∈ stmtsNames p.body, ¬ IsGenerated x) {h : History}
    {c : Option Task} {m : Machine} (htrace : Trace S false q h c m) :
    ∃ T Gs, (c = none → T = ∅) ∧ Separated S h c m T Gs := by
  induction htrace with
  | start hstack hm hstart hs =>
    obtain ⟨_, hready, _⟩ := p.start_ready hq hnames hstack hm subset_rfl hstart hs
    refine ⟨Below "", [], nofun,
      { running := ?_
        waiting := nofun
        pending := .nil
        apart := List.pairwise_singleton _ _
        unasked := nofun
        nodup := .nil }⟩
    rintro _ ⟨⟩
    exact ⟨[], hready⟩
  | step _ _ hstep hs ih =>
    obtain ⟨T, Gs, _, hsep⟩ := ih
    exact ⟨T, Gs, nofun, hsep.step hS hstep hs _⟩
  | ask _ hstack hask ih =>
    obtain ⟨T, Gs, _, hsep⟩ := ih
    obtain ⟨G, hsep'⟩ := hsep.ask hS hstack (Task.poses_of_ask? hask) _
    exact ⟨∅, G :: Gs, fun _ => rfl, hsep'⟩
  | answer _ hpending hv hm' ih =>
    obtain ⟨T, Gs, hT, hsep⟩ := ih
    obtain rfl := hT rfl
    obtain ⟨G, Gs', hsep'⟩ := hsep.answer hpending hv hm' _
    exact ⟨G, Gs', nofun, hsep'⟩

/-- A compiled program without names of a generated shape, run from a state that holds no
continuation, asks no two samples at the same address and no two factors: neither under coroutines
that answer as they like with what holds no continuation, if these resume each continuation once at
most, nor in any number of steps under the coroutines of the machine. -/
theorem addresses_identify_calls {p q : Program} (hq : p.compile = .ok q)
    (hnames : ∀ x ∈ stmtsNames p.body, ¬ IsGenerated x) {S : List Coroutine} (hS : Bare S) :
    (∀ {h : History} {c : Option Task} {m : Machine}, Trace S false q h c m → h.asked.Nodup) ∧
    (∀ (fuel : Nat) {m : Machine}, m.stack = S → m.Held → (q.asked S.length fuel m).Nodup) := by
  have hnodup {h : History} {c : Option Task} {m : Machine} (htrace : Trace S false q h c m) :
      h.asked.Nodup := by
    obtain ⟨_, _, _, hsep⟩ := htrace.separated hS hq hnames
    exact hsep.nodup
  refine ⟨hnodup, fun fuel m hstack hm => ?_⟩
  have hrun {s : Step} {t : Task} {m' : Machine}
      (hstart : q.start (.cont m.nextId .exit) { m with nextId := m.nextId + 1 } = .ok s m')
      (hs : s.task? = some t) : (t.asked S.length fuel m').Nodup := by
    have htrace : Trace S false q ⟨[], [], []⟩ (some t) m' :=
      .start (m := { m with nextId := m.nextId + 1 }) hstack ⟨hm.store, hm.tables⟩ hstart hs
    obtain ⟨_, _, _, hsep⟩ := htrace.separated hS hq hnames
    obtain ⟨_, hready⟩ := hsep.running t rfl
    obtain ⟨h, c, m'', htrace', hasked⟩ := htrace.exists_asked hS fuel hready
    rw [List.append_nil] at hasked
    exact hasked ▸ hnodup htrace'
  unfold Program.asked
  split
  · next hstart => exact hrun hstart rfl
  · next hstart => exact hrun hstart rfl
  · exact .nil

/-- A recursion under a loop that draws with an extra score. -/
def drawingSource : String :=
  "var f = function(b) \x7b " ++
    "var x = sampleWithFactor(Delta(\x7bv: b\x7d), function(y) \x7b return 0; \x7d); " ++
    "return b ? f(false) : x; \x7d; map(f, [true, false])"

theorem drawingSource_addresses :
    ∃ p q, Program.parse drawingSource = .ok p ∧ p.compile = .ok q ∧
      q.asked 1 200 scripted =
        [(.factor, "_6_1_4"), (.sample, "_6_1_4"), (.factor, "_6_0_5_4"), (.sample, "_6_0_5_4"),
          (.factor, "_6_0_4"), (.sample, "_6_0_4")] ∧
      (q.asked 1 200 scripted).Nodup := by
  have hsource : ∃ p, Program.parse drawingSource = .ok p ∧
      (∀ x ∈ stmtsNames p.body, ¬ IsGenerated x) ∧ ∃ q, p.compile = .ok q ∧
        q.asked 1 200 scripted =
          [(.factor, "_6_1_4"), (.sample, "_6_1_4"), (.factor, "_6_0_5_4"), (.sample, "_6_0_5_4"),
            (.factor, "_6_0_4"), (.sample, "_6_0_4")] := by
    decide +kernel
  obtain ⟨p, hp, hnames, q, hq, hasked⟩ := hsource
  refine ⟨p, q, hp, hq, hasked, ?_⟩
  exact (addresses_identify_calls hq hnames bare_scripted).2 200 rfl held_scripted

/-! ## A continuation that was kept -/

instance Program.decidableAsked (q : Program) (depth fuel : Nat) (m : Machine) (sites : List Site) :
    Decidable (q.asked depth fuel m = sites) :=
  inferInstanceAs (Decidable (_ = sites))

/-- A source that keeps a continuation of its own in the store: the one that draws, and that starts
over once if it is told to. -/
def recordingSource : String :=
  "var g = function() \x7b globalStore.k = _k7; return 0; \x7d; g(); " ++
    "sample(Delta(\x7bv: 1\x7d)); " ++
    "if (globalStore.go) \x7b globalStore.go = false; var f = globalStore.k; f(); \x7d 5"

/-- A source without names of a generated shape that calls what it finds in the store. -/
def replayingSource : String :=
  "globalStore.go = true; var f = globalStore.k; f()"

/-- In a state that holds a continuation, a program can draw at the same address twice. -/
theorem replayingSource_repeats_address :
    ∃ p, Program.parse recordingSource = .ok p ∧ ∃ q, p.compile = .ok q ∧
      ∃ v m, q.run 100 (.initial default) = .ok (some v) m ∧
        ∃ p', Program.parse replayingSource = .ok p' ∧
          (∀ x ∈ stmtsNames p'.body, ¬ IsGenerated x) ∧ ∃ q', p'.compile = .ok q' ∧
            q'.asked 1 200 (m.installScript []) = [(.sample, "_4"), (.sample, "_4")] := by
  decide +kernel

end Chance
