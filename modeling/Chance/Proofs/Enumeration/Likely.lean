import Chance.Proofs.Enumeration.Nesting
import Chance.Proofs.Machine.Outcomes

/-!
# The most likely paths come first

Under `likelyFirst` an enumeration takes up the choice with the greatest score. If no choice adds to
the score of a path, then nothing that was put off, and nothing found on the way from there, is more
likely than a path that has ended.

- `NoLikelier`: the order of scores in a frontier,
- `Task.Chooses`: where an enumeration takes up a choice,
- `Roams`: the run of an enumeration, if there it may take up any choice that was put off,
- `Engine.Likely`: what holds of the enumeration throughout,
- `likely_paths_first`: paths end in descending order of their scores, and no path that is left has
  a greater score than one that has ended. -/

namespace Chance

open Exec

variable {i : Nat} {t u : Task} {m n : Machine} {e : Engine} {k : Value}
  {exits : List (Value × Float)}

/-- Scores as a frontier compares them: `x` is not greater than `y`. -/
def NoLikelier (x y : Float) : Prop :=
  Number.orderKey x ≤ Number.orderKey y
deriving Decidable

namespace NoLikelier

variable {x y z : Float}

theorem refl (x : Float) : NoLikelier x x :=
  UInt64.le_refl _

theorem trans (h : NoLikelier x y) (h' : NoLikelier y z) : NoLikelier x z :=
  UInt64.le_trans h h'

theorem of_not (h : ¬ NoLikelier x y) : NoLikelier y x :=
  (UInt64.le_total _ _).resolve_left h

end NoLikelier

/-! ## Ranked frontiers -/

namespace Frontier

variable {es : List Entry}

/-- The entries are in descending order of their scores, and none is above the bound. -/
def Below (f : Frontier) (bound : Float) : Prop :=
  ∃ es, f = .ranked es ∧ es.Pairwise (fun x y => NoLikelier y.score x.score) ∧
    ∀ x ∈ es, NoLikelier x.score bound

theorem mem_insert_iff {x y : Entry} : y ∈ insert x es ↔ y = x ∨ y ∈ es :=
  (insert_perm x es).mem_iff.trans List.mem_cons

theorem insert_pairwise {x : Entry} (h : es.Pairwise fun y z => NoLikelier z.score y.score) :
    (insert x es).Pairwise fun y z => NoLikelier z.score y.score := by
  induction es with
  | nil => exact List.pairwise_singleton _ _
  | cons y ys ih =>
    obtain ⟨hy, hys⟩ := List.pairwise_cons.1 h
    simp only [insert]
    split
    · rename_i hxy
      refine List.pairwise_cons.2 ⟨fun z hz => ?_, ih hys⟩
      rcases mem_insert_iff.1 hz with rfl | hz
      · exact hxy
      · exact hy z hz
    · rename_i hxy
      have hyx : NoLikelier y.score x.score := .of_not hxy
      refine List.pairwise_cons.2 ⟨fun z hz => ?_, h⟩
      rcases List.mem_cons.1 hz with rfl | hz
      · exact hyx
      · exact (hy z hz).trans hyx

variable {f g : Frontier} {x : Entry} {bound : Float}

theorem Below.push (h : f.Below bound) (hx : NoLikelier x.score bound) :
    (f.push x).Below bound := by
  obtain ⟨es, rfl, hsorted, hbound⟩ := h
  refine ⟨insert x es, rfl, insert_pairwise hsorted, fun y hy => ?_⟩
  rcases mem_insert_iff.1 hy with rfl | hy
  · exact hx
  · exact hbound y hy

theorem Below.pushAll {entry : Value → Entry} {values : List Value} (h : f.Below bound)
    (hvalues : ∀ v ∈ values, NoLikelier (entry v).score bound) :
    (values.foldl (fun f v => f.push (entry v)) f).Below bound := by
  induction values generalizing f with
  | nil => exact h
  | cons v vs ih =>
    obtain ⟨hv, hvs⟩ := List.forall_mem_cons.1 hvalues
    exact ih (h.push hv) hvs

theorem Below.of_pop? (h : f.Below bound) (hpop : f.pop? = some (x, g)) :
    NoLikelier x.score bound ∧ g.Below x.score := by
  obtain ⟨es, rfl, hsorted, hbound⟩ := h
  cases es with
  | nil => cases hpop
  | cons y ys =>
    cases hpop
    obtain ⟨hy, hys⟩ := List.pairwise_cons.1 hsorted
    exact ⟨hbound _ List.mem_cons_self, ys, rfl, hys, hy⟩

theorem Below.clear (h : f.Below bound) (bound' : Float) : f.clear.Below bound' := by
  obtain ⟨es, rfl, -⟩ := h
  exact ⟨[], rfl, .nil, nofun⟩

theorem Below.mem (h : f.Below bound) (hx : x ∈ f.toList) : NoLikelier x.score bound := by
  obtain ⟨es, rfl, -, hbound⟩ := h
  exact hbound x hx

theorem mem_of_pop? (h : f.pop? = some (x, g)) : x ∈ f.toList ∧ g.toList ⊆ f.toList := by
  rw [toList_of_pop? h]
  exact ⟨List.mem_cons_self, List.subset_cons_self _ _⟩

theorem mem_of_ranked {before after : List Entry} (h : f = .ranked (before ++ x :: after)) :
    x ∈ f.toList ∧ before ++ after ⊆ f.toList := by
  subst h
  exact ⟨List.mem_append_right _ List.mem_cons_self,
    ((List.sublist_cons_self x after).append_left before).subset⟩

end Frontier

/-! ## What a sample adds -/

/-- The sample that the task asks of the enumeration `i`: the enumeration, the continuation and the
distribution. -/
def Task.sample? (i : Nat) (t : Task) (m : Machine) : Option (Engine × Value × Dist) :=
  match t, m.stack.head? with
  | .call (.builtin .sample) args, some (.engine e) =>
    match callerOf args, (argument args 2).toDist with
    | .ok (k, _), .ok d => if e.id = i then some (e, k, d) else none
    | _, _ => none
  | _, _ => none

theorem Task.sample?_eq_some_iff {d : Dist} :
    t.sample? i m = some (e, k, d) ↔ t.Samples i m e k d := by
  constructor
  · intro h
    unfold Task.sample? at h
    split at h
    · rename_i hhead
      split at h
      · rename_i hcaller hd
        split_ifs at h with hid
        cases h
        exact .call hcaller hd hhead hid
      · cases h
    · cases h
  · rintro ⟨hcaller, hd, hhead, hid⟩
    simp only [Task.sample?, hhead, hcaller, hd, hid, if_true]

/-- The score of the path and what a value adds to it, for each value of the sample that the task
asks of the enumeration `i`. -/
def Task.increments (i : Nat) (t : Task) (m : Machine) : List (Float × Float) :=
  match t.sample? i m with
  | some (e, _, d) => ((enumerable d).toOption.getD []).map fun v => (e.score, d.score v)
  | none => []

theorem Task.Samples.increments_eq {d : Dist} {values : List Value} (h : t.Samples i m e k d)
    (hvalues : enumerable d = .ok values) :
    t.increments i m = values.map fun v => (e.score, d.score v) := by
  simp only [Task.increments, Task.sample?_eq_some_iff.2 h, hvalues, Except.toOption,
    Option.getD_some]

theorem Task.Samples.mem_increments {v : Value} {d : Dist} {values : List Value}
    (h : t.Samples i m e k d) (hvalues : enumerable d = .ok values) (hv : v ∈ values) :
    (e.score, d.score v) ∈ t.increments i m := by
  rw [h.increments_eq hvalues]
  exact List.mem_map_of_mem hv

theorem Task.Samples.hands_eq {d : Dist} (h : t.Samples i m e k d) : t.hands i m = none := by
  cases h
  rfl

/-- What a task adds does not raise the score of the path. -/
def Task.Falls (i : Nat) (t : Task) (m : Machine) : Prop :=
  ∀ s x, (s, x) ∈ t.increments i m → NoLikelier (s + x) s

/-! ## The invariant -/

/-- An enumeration called where the run goes on at `k`, with the given store and limit, after the
paths that have ended: no choice that was put off is more likely than the path being explored, and
that is not more likely than those that have ended. -/
structure Engine.Likely (k : Value) (store : Store) (limit : Option Nat)
    (exits : List (Value × Float)) (e : Engine) : Prop where
  counted : e.Counted k store limit exits
  frontier : e.frontier.Below e.score
  exits : ∀ r ∈ exits, NoLikelier e.score r.2

section Invariant

variable {i : Nat} {k : Value} {store : Store} {limit : Option Nat} {exits : List (Value × Float)}
  {t : Task} {m : Machine} {e e' : Engine}

theorem Engine.Likely.advances (h : e.Likely k store limit exits) (he' : e.Advances e') :
    e'.Likely k store limit exits := by
  have hcounted := he'.counted h.counted
  cases he' with
  | takes hpop =>
    obtain ⟨hx, hrest⟩ := h.frontier.of_pop? hpop
    exact ⟨hcounted, hrest, fun r hr => hx.trans (h.exits r hr)⟩
  | ends => exact ⟨hcounted, h.frontier.clear _, h.exits⟩

theorem Engine.Likely.counting (h : e.Likely k store limit exits) (v : Value) :
    (e.counting v).Likely k store limit (exits ++ [(v, e.score)]) := by
  refine ⟨h.counted.counting v, h.frontier, fun r hr => ?_⟩
  rcases List.mem_append.1 hr with hr | hr
  · exact h.exits r hr
  · obtain rfl := List.mem_singleton.1 hr
    exact .refl _

theorem Engine.Likely.postpone {d : Dist} {values : List Value} (h : e.Likely k store limit exits)
    (hvalues : ∀ v ∈ values, NoLikelier (e.score + d.score v) e.score) (k' : Value) (now : Store) :
    (e.postpone k' d now values).Likely k store limit exits :=
  ⟨{ h.counted with }, h.frontier.pushAll hvalues, h.exits⟩

theorem Engine.Likely.turns (h : e.Likely k store limit exits) (he' : e.Turns i t m e')
    (hplain : t.reweighs i m = false) (hfalls : t.Falls i m) :
    e'.Likely k store limit (exits ++ (t.hands i m).toList) := by
  cases he' with
  | stays hands => rwa [hands, Option.toList_none, List.append_nil]
  | samples hsamples hvalues hadvances =>
    rw [hsamples.hands_eq, Option.toList_none, List.append_nil]
    exact (h.postpone (fun v hv => hfalls _ _ (hsamples.mem_increments hvalues hv)) _ _).advances
      hadvances
  | leaves hands hadvances =>
    rw [hands]
    exact (h.counting _).advances hadvances
  | weighs hreweighs | drops hreweighs | queues hreweighs | advances hreweighs =>
    cases hplain.symm.trans hreweighs

theorem Task.exists_engine_of_hands {r : Value × Float} (hplain : t.reweighs i m = false)
    (h : t.hands i m = some r) : ∃ e, m.engine? i = some e ∧ r.2 = e.score := by
  unfold Task.hands at h
  split at h
  · simp only [Option.ite_none_right_eq_some] at h
    obtain ⟨rfl, h⟩ := h
    obtain ⟨e, he, rfl⟩ := Option.map_eq_some_iff.1 h
    exact ⟨e, he, rfl⟩
  · rw [handedAtFactor_of_other (Machine.ne_of_isAnswering hplain)] at h
    cases h
  · rw [handedAtFactor_of_other (Machine.ne_of_isAnswering hplain)] at h
    cases h
  · cases h

end Invariant

/-! ## Choices -/

/-- The enumeration `i` is installed and goes on. -/
def Machine.Pursues (i : Nat) (m : Machine) : Prop :=
  ∃ e, .engine e ∈ m.stack ∧ e.id = i ∧ e.done = false

/-- The task asks the enumeration `i` for a sample or ends one of its paths. The enumeration goes
on, and is to take up one of the choices that `e` has put off. -/
inductive Task.Chooses (i : Nat) (t : Task) (m : Machine) : Engine → Prop
  | sample {e : Engine} {k : Value} {d : Dist} {values : List Value} : t.Samples i m e k d →
      e.done = false → enumerable d = .ok values → Chooses i t m (e.postpone k d m.store values)
  | exit {e : Engine} {v : Value} {x : Float} : t.exit? i m = some (v, x) →
      m.engine? i = some e → e.done = false →
        Chooses i t m (Engine.counting { e with score := x } v)

/-- The enumeration, which is `e`, takes up the choice `x` and leaves the rest. -/
def Machine.takeUp (m : Machine) (e : Engine) (x : Entry) (rest : Frontier) : Machine :=
  { (m.putEngine e).putEngine { e with score := x.score, frontier := rest } with store := x.store }

/-- The run gets from one task to another while the enumeration `i` goes on, if wherever that takes
up a choice it may be any one that was put off. -/
inductive Roams (i : Nat) : Task → Machine → Task → Machine → Prop
  | refl {t : Task} {m : Machine} : Roams i t m t m
  | step {t t' u : Task} {m m' n : Machine} {s : Step} :
      t.perform m = .ok s m' → s.task? = some t' → m'.Pursues i → Roams i t' m' u n →
      Roams i t m u n
  | turn {t u : Task} {m n : Machine} {e : Engine} {before after : List Entry} {x : Entry} :
      t.Chooses i m e → e.frontier = .ranked (before ++ x :: after) →
      Roams i (.call x.k [x.value]) (m.takeUp e x (.ranked (before ++ after))) u n →
      Roams i t m u n

theorem Roams.trans {w : Task} {p : Machine} (h : Roams i t m u n) (h' : Roams i u n w p) :
    Roams i t m w p := by
  induction h with
  | refl => exact h'
  | step hs ht' hgoes _ ih => exact .step hs ht' hgoes (ih h')
  | turn hchoice hfrontier _ ih => exact .turn hchoice hfrontier (ih h')

section Choices

variable {e' : Engine} {k : Value} {store : Store} {limit : Option Nat}

theorem Engine.Turns.done (h : e.Turns i t m e') (hdone : e.done = true) : e'.done = true := by
  have hadvances {f f' : Engine} (h : f.Advances f') (hf : f.done = true) : f'.done = true := by
    cases h with
    | takes => exact hf
    | ends => rfl
  cases h with
  | stays | weighs | queues => exact hdone
  | samples _ _ h | leaves _ h | drops _ _ h | advances _ _ h => exact hadvances h hdone

theorem Task.Chooses.id_eq (h : t.Chooses i m e) : e.id = i := by
  cases h with
  | sample hsamples =>
    cases hsamples with
    | call _ _ _ hid => exact hid
  | exit _ he => exact (mem_of_engine? he).2

/-- Where no extra score is counted, the enumeration that is to take up a choice is the one that is
installed, after the sample or the end of the path. -/
theorem Task.Chooses.exists_installed (h : t.Chooses i m e) (hplain : t.reweighs i m = false) :
    ∃ f, .engine f ∈ m.stack ∧ f.id = i ∧
      ((∃ k d values, t.Samples i m f k d ∧ enumerable d = .ok values ∧
        e = f.postpone k d m.store values) ∨
      ∃ v, t.hands i m = some (v, f.score) ∧ e = f.counting v) := by
  cases h with
  | @sample f _ _ _ hsamples _ hvalues =>
    obtain ⟨-, -, hhead, hid⟩ := id hsamples
    exact ⟨f, mem_of_head? hhead, hid, .inl ⟨_, _, _, hsamples, hvalues, rfl⟩⟩
  | @exit f v x hexit hf =>
    have hands := Task.hands_of_exit? hexit
    obtain ⟨g, hg, hx⟩ := Task.exists_engine_of_hands hplain hands
    obtain rfl : g = f := Option.some.inj (hg.symm.trans hf)
    obtain rfl : x = g.score := hx
    obtain ⟨hmem, hid⟩ := mem_of_engine? hf
    exact ⟨g, hmem, hid, .inr ⟨v, hands, rfl⟩⟩

/-- What holds of the enumeration holds of it where it is to take up a choice. -/
theorem Engine.Likely.chooses (h : m.Has i (Engine.Likely k store limit exits))
    (hchoice : t.Chooses i m e) (hplain : t.reweighs i m = false) (hfalls : t.Falls i m) :
    e.Likely k store limit (exits ++ (t.hands i m).toList) := by
  obtain ⟨f, hmem, hid, ⟨_, _, _, hsamples, hvalues, rfl⟩ | ⟨v, hands, rfl⟩⟩ :=
    hchoice.exists_installed hplain
  · rw [hsamples.hands_eq, Option.toList_none, List.append_nil]
    exact (h f hmem hid).postpone
      (fun v hv => hfalls _ _ (hsamples.mem_increments hvalues hv)) _ _
  · rw [hands]
    exact (h f hmem hid).counting v

end Choices

/-! ## Whole runs -/

/-- What holds while the enumeration `i` goes on. -/
structure Ranking (i : Nat) (k : Value) (store : Store) (limit : Option Nat)
    (exits : List (Value × Float)) (t : Task) (m : Machine) : Prop
    extends Watched i (Engine.Likely k store limit exits) t m where
  sorted : exits.Pairwise fun r r' => NoLikelier r'.2 r.2

section Runs

variable {i : Nat} {k : Value} {store : Store} {limit : Option Nat}
  {exits results : List (Value × Float)} {t t' u : Task} {m m' n : Machine} {s : Step}

theorem Ranking.sorted_hands (h : Ranking i k store limit exits t m)
    (hplain : t.reweighs i m = false) :
    (exits ++ (t.hands i m).toList).Pairwise fun r r' => NoLikelier r'.2 r.2 := by
  cases hands : t.hands i m with
  | none =>
    rw [Option.toList_none, List.append_nil]
    exact h.sorted
  | some r =>
    obtain ⟨e, he, hr⟩ := Task.exists_engine_of_hands hplain hands
    obtain ⟨hmem, hid⟩ := mem_of_engine? he
    refine List.pairwise_append.2 ⟨h.sorted, List.pairwise_singleton _ _, fun r' hr' x hx => ?_⟩
    obtain rfl := List.mem_singleton.1 hx
    rw [hr]
    exact (h.has e hmem hid).exits r' hr'

theorem Ranking.next (h : Ranking i k store limit exits t m) (hplain : t.reweighs i m = false)
    (hfalls : t.Falls i m) (hs : t.perform m = .ok s m') (ht' : s.task? = some t') :
    Ranking i k store limit (exits ++ (t.hands i m).toList) t' m' :=
  ⟨h.toWatched.next hs ht' fun he hturns => he.turns hturns hplain hfalls, h.sorted_hands hplain⟩

/-- An enumeration that is over stays so. -/
theorem Leads.done (hleads : Leads i t m results u n)
    (h : Watched i (fun e => e.done = true) t m) : n.Has i fun e => e.done = true := by
  induction hleads with
  | refl => exact h.has
  | step hs ht' _ ih => exact ih (h.next hs ht' fun he hturns => hturns.done he)

/-- No step brings an enumeration back: one that goes on later goes on now. -/
theorem Leads.pursues (hi : i < m.nextId) (hs : t.perform m = .ok s m') (ht' : s.task? = some t')
    (hleads : Leads i t' m' results u n) (hn : n.Pursues i) : m'.Pursues i := by
  by_contra hover
  obtain ⟨e, he, hid, hdone⟩ := hn
  -- An enumeration that is entered from now on is a new one: identities are not given out twice.
  have hentered f (hf : t'.entered? = some f) : f.id ≠ i := by
    have hf' : s.entered? = some f := Option.bind_eq_some_iff.2 ⟨t', ht', hf⟩
    by_cases ht : t.entered? = none
    · have hnests := Task.perform_nests (m := m) ht
      unfold Nests at hnests
      rw [hs] at hnests
      exact Nat.ne_of_gt (hi.trans_le (hnests.2 f hf'))
    · cases t with
      | enter =>
        cases hs
        cases hf'
      | _ => exact absurd rfl ht
  have hwatched : Watched i (fun e => e.done = true) t' m' := by
    obtain ⟨hnext, -, -⟩ := Task.perform_turns hi s m' hs
    refine ⟨hi.trans_le hnext, fun f hf hfid => ?_, fun f hf hfid => absurd hfid (hentered f hf)⟩
    by_contra hgoes
    exact hover ⟨f, hf, hfid, Bool.eq_false_iff.2 hgoes⟩
  exact Bool.false_ne_true (hdone.symm.trans (hleads.done hwatched e he hid))

theorem Leads.roams (hleads : Leads i t m results u n) (hi : i < m.nextId) (hn : n.Pursues i) :
    Roams i t m u n := by
  induction hleads with
  | refl => exact .refl
  | step hs ht' hrest ih =>
    obtain ⟨hnext, -, -⟩ := Task.perform_turns hi _ _ hs
    exact .step hs ht' (hrest.pursues hi hs ht' hn) (ih (hi.trans_le hnext) hn)

theorem Leads.ranking (hleads : Leads i t m results u n) (hn : n.Pursues i)
    (h : Ranking i k store limit exits t m)
    (hplain : ∀ {t' m'}, Roams i t m t' m' → t'.reweighs i m' = false)
    (hfalls : ∀ {t' m'}, Roams i t m t' m' → t'.Falls i m') :
    Ranking i k store limit (exits ++ results) u n := by
  induction hleads generalizing exits with
  | refl => rwa [List.append_nil]
  | step hs ht' hrest ih =>
    -- What is assumed of all that roams from here is assumed of what roams from the next task.
    have hgoes := hrest.pursues h.id hs ht' hn
    rw [← List.append_assoc]
    exact ih hn (h.next (hplain .refl) (hfalls .refl) hs ht')
      (fun hroams => hplain (.step hs ht' hgoes hroams))
      fun hroams => hfalls (.step hs ht' hgoes hroams)

end Runs

/-! ## Paths that are left -/

/-- Neither the path being explored nor a choice that was put off is above the bound. -/
structure Engine.Under (bound : Float) (e : Engine) : Prop where
  score : NoLikelier e.score bound
  frontier : ∀ x ∈ e.frontier.toList, NoLikelier x.score bound

section Left

variable {i : Nat} {bound : Float} {t t' u : Task} {m m' n : Machine} {e e' : Engine} {k : Value}
  {d : Dist} {values : List Value}

theorem Engine.Under.advances (h : e.Under bound) (he' : e.Advances e') : e'.Under bound := by
  cases he' with
  | takes hpop =>
    obtain ⟨hx, hrest⟩ := Frontier.mem_of_pop? hpop
    exact ⟨h.frontier _ hx, fun y hy => h.frontier y (hrest hy)⟩
  | ends =>
    refine ⟨h.score, fun y hy => ?_⟩
    have hclear : e.frontier.clear.toList = [] := by
      cases e.frontier <;> rfl
    rw [hclear] at hy
    cases hy

theorem Engine.Under.postpone (h : e.Under bound) (hsamples : t.Samples i m e k d)
    (hvalues : enumerable d = .ok values) (hfalls : t.Falls i m) (now : Store) :
    (e.postpone k d now values).Under bound := by
  refine ⟨h.score, Frontier.forall_mem_pushAll (P := fun x => NoLikelier x.score bound) h.frontier
    fun v hv => ?_⟩
  exact (hfalls _ _ (hsamples.mem_increments hvalues hv)).trans h.score

theorem Engine.Under.counting (h : e.Under bound) (v : Value) : (e.counting v).Under bound :=
  ⟨h.score, h.frontier⟩

theorem Engine.Under.turns (h : e.Under bound) (he' : e.Turns i t m e')
    (hplain : t.reweighs i m = false) (hfalls : t.Falls i m) : e'.Under bound := by
  cases he' with
  | stays => exact h
  | samples hsamples hvalues hadvances =>
    exact (h.postpone hsamples hvalues hfalls m.store).advances hadvances
  | leaves _ hadvances => exact (h.counting _).advances hadvances
  | weighs hreweighs | drops hreweighs | queues hreweighs | advances hreweighs =>
    cases hplain.symm.trans hreweighs

theorem Engine.Under.chooses (h : m.Has i (Engine.Under bound)) (hchoice : t.Chooses i m e)
    (hplain : t.reweighs i m = false) (hfalls : t.Falls i m) : e.Under bound := by
  obtain ⟨f, hmem, hid, ⟨_, _, _, hsamples, hvalues, rfl⟩ | ⟨v, -, rfl⟩⟩ :=
    hchoice.exists_installed hplain
  · exact (h f hmem hid).postpone hsamples hvalues hfalls m.store
  · exact (h f hmem hid).counting v

/-- The bound holds of the enumeration `i`, installed or about to be. -/
abbrev Bounded (i : Nat) (bound : Float) : Task → Machine → Prop :=
  Watched i (Engine.Under bound)

theorem bounded_takeUp {before after : List Entry} {x : Entry} (hi : i < m.nextId) (hid : e.id = i)
    (hfrontier : e.frontier = .ranked (before ++ x :: after))
    (h : ∀ y ∈ e.frontier.toList, NoLikelier y.score bound) :
    Bounded i bound (.call x.k [x.value]) (m.takeUp e x (.ranked (before ++ after))) := by
  obtain ⟨hx, hrest⟩ := Frontier.mem_of_ranked hfrontier
  have hunder : Engine.Under bound
      { e with score := x.score, frontier := .ranked (before ++ after) } :=
    ⟨h x hx, fun y hy => h y (hrest hy)⟩
  exact ⟨hi, Machine.Has.put (fun hne => absurd hid hne) fun _ => hunder, nofun⟩

theorem Roams.bounded (hroams : Roams i t m u n) (h : Bounded i bound t m)
    (hplain : ∀ {t' m'}, Roams i t m t' m' → t'.reweighs i m' = false)
    (hfalls : ∀ {t' m'}, Roams i t m t' m' → t'.Falls i m') : Bounded i bound u n := by
  induction hroams with
  | refl => exact h
  | step hs ht' hgoes _ ih =>
    refine ih (h.next hs ht' fun he hturns => he.turns hturns (hplain .refl) (hfalls .refl))
      (fun hroams => hplain (.step hs ht' hgoes hroams)) fun hroams =>
        hfalls (.step hs ht' hgoes hroams)
  | turn hchoice hfrontier _ ih =>
    have hunder := Engine.Under.chooses h.has hchoice (hplain .refl) (hfalls .refl)
    exact ih (bounded_takeUp h.id hchoice.id_eq hfrontier hunder.frontier)
      (fun hroams => hplain (.turn hchoice hfrontier hroams)) fun hroams =>
        hfalls (.turn hchoice hfrontier hroams)

end Left

/-! ## The most likely paths -/

theorem ranking_start (hm : ∀ e, .engine e ∈ m.stack → e.id < m.nextId) (k thunk : Value)
    (a : String) (limit : Option Nat) :
    Ranking m.nextId k m.store limit []
      (.enter (.begin m k a ⟨limit, .likelyFirst⟩) thunk (exitOf m))
      { m with nextId := m.nextId + 2 } := by
  refine ⟨⟨Nat.lt_add_of_pos_right Nat.two_pos, fun e he hid => ?_, ?_⟩, .nil⟩
  · exact absurd hid (Nat.ne_of_lt (hm e he))
  · rintro e ⟨⟩ -
    exact ⟨⟨rfl, rfl, rfl, rfl, rfl⟩, ⟨[], rfl, .nil, nofun⟩, nofun⟩

theorem Ranking.exit_closed {last : Value × Float} {m₀ : Machine}
    (h : Ranking i k m₀.store (some (exits.length + 1)) exits t m)
    (hexit : t.exit? i m = some last) (he : m.engine? i = some e) (hdone : e.done = false) :
    Closed i m₀ k (exits ++ [last]) (t.perform m) := by
  obtain ⟨hmem, hid⟩ := mem_of_engine? he
  have hlikely := h.has e hmem hid
  obtain ⟨m', hperform⟩ := Task.perform_of_exit? hexit he hdone
  rw [hperform]
  refine Engine.leave_closed (e := { e with score := last.2 }) { hlikely.counted with } hid ?_
  simp only [Engine.withinLimit, Engine.counting, hlikely.counted.limit, hlikely.counted.completed,
    Nat.lt_irrefl, decide_false, Bool.false_and]

/-- Under `likelyFirst` the most likely paths come first. Let no factor or extra score be counted in
the enumeration, let no sampled value have a positive score, and let adding such a score never raise
that of a path. Then at any point of the run before the enumeration is over, the paths have ended in
descending order of their scores. Where the enumeration is to take up a choice, also where it does
not because of its limit, no path that begins with a choice that is left, and goes on in whatever
way, has a greater score than a path that has ended, neither at its end nor on the way. And if the
path that ends is the one that reaches the limit, then the enumeration is over, with the
distribution of the paths that have ended. -/
theorem likely_paths_first {m : Machine} (hm : ∀ e, .engine e ∈ m.stack → e.id < m.nextId)
    {k thunk : Value} {a : String} {limit : Option Nat} {t₀ : Task} {m₀ : Machine}
    (hstart : startEnumeration k a thunk ⟨limit, .likelyFirst⟩ m = .ok (.bounce t₀) m₀)
    (hplain : ∀ {t n}, Roams m.nextId t₀ m₀ t n → t.reweighs m.nextId n = false)
    (hscores : ∀ {t n s x}, Roams m.nextId t₀ m₀ t n → (s, x) ∈ t.increments m.nextId n → x ≤ 0)
    (hadd : ∀ {t n s x}, Roams m.nextId t₀ m₀ t n → (s, x) ∈ t.increments m.nextId n → x ≤ 0 →
      NoLikelier (s + x) s)
    {exits : List (Value × Float)} {t : Task} {n : Machine} {e : Engine}
    (hleads : Leads m.nextId t₀ m₀ exits t n) (he : n.engine? m.nextId = some e)
    (hdone : e.done = false) :
    (exits ++ (t.hands m.nextId n).toList).Pairwise (fun r r' => NoLikelier r'.2 r.2) ∧
      (∀ {e' before x after u n'}, t.Chooses m.nextId n e' →
        e'.frontier = .ranked (before ++ x :: after) →
        Roams m.nextId (.call x.k [x.value]) (n.takeUp e' x (.ranked (before ++ after))) u n' →
        ∀ r' ∈ exits ++ (t.hands m.nextId n).toList,
          (∀ f, n'.engine? m.nextId = some f → NoLikelier f.score r'.2) ∧
          ∀ r, u.exit? m.nextId n' = some r → NoLikelier r.2 r'.2) ∧
      ∀ {last}, t.exit? m.nextId n = some last → limit = some (exits.length + 1) →
        Closed m.nextId m k (exits ++ [last]) (t.perform n) := by
  rw [startEnumeration_eq] at hstart
  cases hstart
  have hfalls {t n} (hroams : Roams m.nextId _ _ t n) : t.Falls m.nextId n :=
    fun s x hx => hadd hroams hx (hscores hroams hx)
  obtain ⟨hmem, hid⟩ := mem_of_engine? he
  have hgoes : n.Pursues m.nextId := ⟨e, hmem, hid, hdone⟩
  have hbegin := ranking_start hm k thunk a limit
  have hroams := hleads.roams hbegin.id hgoes
  have hranking := hleads.ranking hgoes hbegin hplain hfalls
  rw [List.nil_append] at hranking
  refine ⟨hranking.sorted_hands (hplain hroams), ?_, ?_⟩
  · intro e' before x after u n' hchoice hfrontier hleft r' hr'
    have hlikely := Engine.Likely.chooses hranking.has hchoice (hplain hroams) (hfalls hroams)
    -- Everything that is left stays under the score of the path that is being explored.
    have hwhole {u n'} (h : Roams m.nextId _ _ u n') := hroams.trans (.turn hchoice hfrontier h)
    have hbegun := bounded_takeUp hranking.id hchoice.id_eq hfrontier fun y => hlikely.frontier.mem
    have hbounded : Bounded m.nextId e'.score u n' :=
      hleft.bounded hbegun (fun h => hplain (hwhole h)) fun h => hfalls (hwhole h)
    have hscore f (hf : n'.engine? m.nextId = some f) : NoLikelier f.score r'.2 := by
      obtain ⟨hfmem, hfid⟩ := mem_of_engine? hf
      exact (hbounded.has f hfmem hfid).score.trans (hlikely.exits r' hr')
    refine ⟨hscore, fun r hexit => ?_⟩
    obtain ⟨f, hf, hr⟩ := Task.exists_engine_of_hands (hplain (hwhole hleft))
      (Task.hands_of_exit? hexit)
    rw [hr]
    exact hscore f hf
  · intro last hexit hlimit
    subst hlimit
    exact hranking.exit_closed hexit he hdone

/-! ## A sample at the end of each path -/

/-- The task has to do with the scores or the choices of the enumeration `i`. -/
def Task.concerns (i : Nat) (t : Task) (m : Machine) : Bool :=
  t.reweighs i m || (t.hands i m).isSome || !(t.increments i m).isEmpty

/-- The task ends a path of the enumeration `i`, which is `e` at present, and so does what follows
any of the choices that were put off. -/
structure Task.Ends (i j : Nat) (e : Engine) (t : Task) (m : Machine) : Prop where
  task : ∃ v, t = .call (.cont j (.leave i)) [v]
  engine : m.engine? i = some e
  goes : e.done = false
  pending : ∀ x ∈ e.frontier.toList, x.k = .cont j (.leave i)

section Endings

variable {i j fuel : Nat} {t t₁ u : Task} {m m' m₁ n : Machine} {e : Engine} {k v : Value}
  {d : Dist} {values : List Value} {x : Entry} {rest : Frontier}

theorem Task.concerns_eq_false (h : t.concerns i m = false) :
    t.reweighs i m = false ∧ t.hands i m = none ∧ t.increments i m = [] := by
  simpa only [Task.concerns, Bool.or_eq_false_iff, Option.isSome_eq_false_iff,
    Option.isNone_iff_eq_none, Bool.not_eq_false', List.isEmpty_iff, and_assoc] using h

theorem Task.Chooses.concerns (h : t.Chooses i m e) : t.concerns i m = true := by
  cases hconcerns : t.concerns i m with
  | true => rfl
  | false =>
    obtain ⟨-, hands, hincrements⟩ := Task.concerns_eq_false hconcerns
    cases h with
    | sample hsamples _ hvalues =>
      rw [hsamples.increments_eq hvalues, List.map_eq_nil_iff] at hincrements
      exact absurd hincrements (enumerable_ne_nil hvalues)
    | exit hexit => cases hands.symm.trans (Task.hands_of_exit? hexit)

/-- Up to the first task that concerns the enumeration there is nothing to choose. -/
theorem Roams.of_runTo (hroams : Roams i t m u n)
    (h : t.runTo (Task.concerns i) fuel m = some (t₁, m₁)) :
    u.concerns i n = false ∨ Roams i t₁ m₁ u n := by
  induction hroams generalizing fuel with
  | @refl t m =>
    cases hconcerns : t.concerns i m with
    | false => exact .inl rfl
    | true =>
      obtain ⟨rfl, rfl⟩ := Task.runTo_of_stop hconcerns h
      exact .inr .refl
  | @step t _ _ m _ _ _ hs ht' hgoes hrest ih =>
    cases hconcerns : t.concerns i m with
    | false =>
      obtain ⟨fuel', h'⟩ := Task.runTo_of_step hconcerns hs ht' h
      exact ih h'
    | true =>
      obtain ⟨rfl, rfl⟩ := Task.runTo_of_stop hconcerns h
      exact .inr (.step hs ht' hgoes hrest)
  | turn hchoice hfrontier hrest _ =>
    -- A choice is taken up at a task that concerns the enumeration, so the search stopped there.
    obtain ⟨rfl, rfl⟩ := Task.runTo_of_stop hchoice.concerns h
    exact .inr (.turn hchoice hfrontier hrest)

theorem Task.leads_of_runTo (h : t.runTo (Task.concerns i) fuel m = some (t₁, m₁)) :
    Leads i t m [] t₁ m₁ := by
  refine (Task.runTo_keeps (R := Leads i t m []) h .refl ?_).1
  intro t' t'' m' m'' s hleads hquiet hs ht''
  exact hleads.trans (.quiet (Task.concerns_eq_false hquiet).2.1 hs ht'' .refl)

theorem Frontier.exists_ranked_pushAll (entry : Value → Entry) (values : List Value)
    (held : List Entry) :
    ∃ es : List Entry, values.foldl (fun f v => f.push (entry v)) (ranked held) = ranked es ∧
      es.length = held.length + values.length := by
  induction values generalizing held with
  | nil => exact ⟨held, rfl, rfl⟩
  | cons v vs ih =>
    obtain ⟨es, hes, hlength⟩ := ih (insert (entry v) held)
    refine ⟨es, hes, ?_⟩
    rw [hlength, (insert_perm (entry v) held).length_eq, List.length_cons, List.length_cons]
    omega

theorem engine?_takeUp {f : Engine} (h : m.engine? i = some f) (hid : e.id = i) :
    (m.takeUp e x rest).engine? i = some { e with score := x.score, frontier := rest } :=
  engine?_putEngine (m := m.putEngine e) (engine?_putEngine h hid) hid

theorem Engine.advance_eq (h : e.frontier.pop? = some (x, rest)) :
    e.advance (m.putEngine e) = .ok (.resume x.k x.value) (m.takeUp e x rest) := by
  unfold Engine.advance
  rw [h]
  rfl

theorem Engine.not_pursues_of_finish {s : Step} (h : e.finish m = .ok s m') (hid : e.id = i) :
    ¬ m'.Pursues i := by
  rintro ⟨f, hf, hfid, hgoes⟩
  obtain ⟨-, hdone, -⟩ := Engine.finish_makes (i := i) (P := fun e => e.done = true)
    (fun hne => absurd hid hne) (fun _ => rfl) s m' h
  exact Bool.false_ne_true (hgoes.symm.trans (hdone f hf hfid))

theorem Engine.takes_of_advance {s : Step} (h : e.advance (m.putEngine e) = .ok s m')
    (hid : e.id = i) (hgoes : m'.Pursues i) :
    ∃ x rest, e.frontier.pop? = some (x, rest) ∧ s = .resume x.k x.value ∧
      m' = m.takeUp e x rest := by
  cases hpop : e.frontier.pop? with
  | none =>
    unfold Engine.advance at h
    rw [hpop] at h
    exact absurd hgoes (Engine.not_pursues_of_finish h hid)
  | some next =>
    rw [Engine.advance_eq hpop] at h
    cases h
    exact ⟨next.1, next.2, rfl, rfl, rfl⟩

theorem Task.Ends.takeUp {f : Engine} (hm : m.engine? i = some f) (hid : e.id = i)
    (hgoes : e.done = false) (hpending : ∀ y ∈ e.frontier.toList, y.k = .cont j (.leave i))
    (hx : x ∈ e.frontier.toList) (hrest : rest.toList ⊆ e.frontier.toList) :
    Task.Ends i j { e with score := x.score, frontier := rest } (.call x.k [x.value])
      (m.takeUp e x rest) where
  task := ⟨x.value, by rw [hpending x hx]⟩
  engine := engine?_takeUp hm hid
  goes := hgoes
  pending := fun y hy => hpending y (hrest hy)

theorem Task.Ends.exit?_eq (h : Task.Ends i j e (.call k [v]) m) :
    (Task.call k [v]).exit? i m = some (v, e.score) := by
  obtain ⟨_, htask⟩ := h.task
  cases htask
  simp only [Task.exit?, Task.hands, if_true, h.engine, Option.map_some]
  rfl

theorem Task.Ends.perform_eq (h : Task.Ends i j e (.call k [v]) m) :
    (Task.call k [v]).perform m =
      (if (e.counting v).withinLimit && !e.frontier.isEmpty then (e.counting v).advance
        else (e.counting v).finish) (m.putEngine (e.counting v)) := by
  obtain ⟨_, htask⟩ := h.task
  cases htask
  change (Engine.live i >>= fun e => e.leave v) m = _
  rw [Engine.live_bind, h.engine]
  exact if_neg (h.goes ▸ Bool.false_ne_true)

theorem Roams.ends (hroams : Roams i t m u n) (h : t.Ends i j e m) : ∃ f, u.Ends i j f n := by
  induction hroams generalizing e with
  | refl => exact ⟨e, h⟩
  | step hs ht' hgoes _ ih =>
    obtain ⟨v, rfl⟩ := h.task
    have hid : (e.counting v).id = i := (mem_of_engine? h.engine).2
    rw [h.perform_eq] at hs
    split at hs
    · obtain ⟨x, rest, hpop, rfl, rfl⟩ := Engine.takes_of_advance hs hid hgoes
      cases ht'
      obtain ⟨hx, hrest⟩ := Frontier.mem_of_pop? hpop
      exact ih (.takeUp h.engine hid h.goes h.pending hx hrest)
    · exact absurd hgoes (Engine.not_pursues_of_finish hs hid)
  | turn hchoice hfrontier _ ih =>
    obtain ⟨v, rfl⟩ := h.task
    cases hchoice with
    | sample hsamples => cases hsamples
    | @exit f w y hexit hf hdone =>
      obtain rfl : f = e := Option.some.inj (hf.symm.trans h.engine)
      obtain ⟨hx, hrest⟩ := Frontier.mem_of_ranked hfrontier
      exact ih (.takeUp h.engine (mem_of_engine? hf).2 hdone h.pending hx hrest)

theorem Task.Ends.next {limit : Nat} {es : List Entry} (h : Task.Ends i j e (.call k [v]) m)
    (hlimit : e.limit = some limit) (hwithin : e.completed + 1 < limit)
    (hfrontier : e.frontier = .ranked (x :: es)) :
    (Task.call k [v]).perform m =
        .ok (.resume x.k x.value) (m.takeUp (e.counting v) x (.ranked es)) ∧
      ∃ e', e'.frontier = .ranked es ∧
        Task.Ends i j e' (.call x.k [x.value]) (m.takeUp (e.counting v) x (.ranked es)) := by
  have hpop : (e.counting v).frontier.pop? = some (x, .ranked es) := by
    rw [Engine.counting, hfrontier]
    rfl
  constructor
  · have hgoes : ((e.counting v).withinLimit && !e.frontier.isEmpty) = true := by
      simp only [Engine.withinLimit, Engine.counting, hlimit, hwithin, hfrontier, decide_true]
      rfl
    rw [h.perform_eq, if_pos hgoes, Engine.advance_eq hpop]
  · have hid : (e.counting v).id = i := (mem_of_engine? h.engine).2
    obtain ⟨hx, hrest⟩ := Frontier.mem_of_pop? hpop
    exact ⟨_, rfl, .takeUp h.engine hid h.goes h.pending hx hrest⟩

theorem Task.Ends.chooses (h : Task.Ends i j e (.call k [v]) m) :
    (Task.call k [v]).Chooses i m (e.counting v) :=
  .exit h.exit?_eq h.engine h.goes

theorem Task.Ends.exit?_takeUp (h : Task.Ends i j e t m) (hfrontier : e.frontier = .ranked [x])
    (v : Value) : (Task.call x.k [x.value]).exit? i (m.takeUp (e.counting v) x (.ranked [])) =
      some (x.value, x.score) := by
  have hid : (e.counting v).id = i := (mem_of_engine? h.engine).2
  have hx : x ∈ e.frontier.toList := by
    rw [hfrontier]
    exact List.mem_singleton_self x
  exact Task.Ends.exit?_eq (.takeUp h.engine hid h.goes h.pending hx (List.nil_subset _))

section Samples

variable (hsamples : t.Samples i m e k d) (hk : k = .cont j (.leave i)) (hgoes : e.done = false)
  (hfrontier : e.frontier = .ranked [])
include hsamples hk hgoes hfrontier

theorem Task.Samples.ends (hx : x ∈ (e.postpone k d m.store values).frontier.toList)
    (hrest : rest.toList ⊆ (e.postpone k d m.store values).frontier.toList) :
    Task.Ends i j { e.postpone k d m.store values with score := x.score, frontier := rest }
      (.call x.k [x.value]) (m.takeUp (e.postpone k d m.store values) x rest) := by
  obtain ⟨-, -, hhead, hid⟩ := hsamples
  refine .takeUp (engine?_of_head? hhead hid) hid hgoes ?_ hx hrest
  refine Frontier.forall_mem_pushAll (P := fun y => y.k = _) ?_ fun v _ => hk
  rw [hfrontier]
  exact List.forall_mem_nil _

/-- After a sample at the end of a path, every task ends one. -/
theorem Roams.after_sample (hvalues : enumerable d = .ok values) (hroams : Roams i t m u n) :
    (u = t ∧ n = m) ∨ ∃ f, u.Ends i j f n := by
  obtain ⟨hcaller, hd, hhead, hid⟩ := id hsamples
  cases hroams with
  | refl => exact .inl ⟨rfl, rfl⟩
  | step hs ht' hnext hrest =>
    rw [perform_sample hhead hcaller hd hvalues] at hs
    obtain ⟨x, rest, hpop, rfl, rfl⟩ := Engine.takes_of_advance hs hid hnext
    cases ht'
    obtain ⟨hx, hsubset⟩ := Frontier.mem_of_pop? hpop
    exact .inr (hrest.ends (hsamples.ends hk hgoes hfrontier hx hsubset))
  | turn hchoice hchoices hrest =>
    cases hchoice with
    | exit hexit => cases hsamples.hands_eq.symm.trans (Task.hands_of_exit? hexit)
    | sample hsamples' =>
      -- A task asks for one sample, so the choice is among the values of this one.
      have heq := Task.sample?_eq_some_iff.2 hsamples'
      rw [Task.sample?_eq_some_iff.2 hsamples] at heq
      cases heq
      obtain ⟨hx, hsubset⟩ := Frontier.mem_of_ranked hchoices
      exact .inr (hrest.ends (hsamples.ends hk hgoes hfrontier hx hsubset))

theorem Task.Samples.next (hvalues : enumerable d = .ok values) :
    ∃ (x : Entry) (es : List Entry), es.length + 1 = values.length ∧
      t.perform m = .ok (.resume x.k x.value)
        (m.takeUp (e.postpone k d m.store values) x (.ranked es)) ∧
      Task.Ends i j { e.postpone k d m.store values with score := x.score, frontier := .ranked es }
        (.call x.k [x.value]) (m.takeUp (e.postpone k d m.store values) x (.ranked es)) := by
  obtain ⟨es, hes, hlength⟩ := Frontier.exists_ranked_pushAll
    (fun v => ⟨k, v, e.score + d.score v, m.store⟩) values []
  have hpostponed : (e.postpone k d m.store values).frontier = .ranked es := by
    rw [Engine.postpone, hfrontier]
    exact hes
  rw [List.length_nil, Nat.zero_add] at hlength
  cases es with
  | nil => exact absurd (List.length_eq_zero_iff.1 hlength.symm) (enumerable_ne_nil hvalues)
  | cons x es =>
    have hpop : (e.postpone k d m.store values).frontier.pop? = some (x, .ranked es) := by
      rw [hpostponed]
      rfl
    obtain ⟨hx, hrest⟩ := Frontier.mem_of_pop? hpop
    refine ⟨x, es, hlength, ?_, hsamples.ends hk hgoes hfrontier hx hrest⟩
    obtain ⟨hcaller, hd, hhead, -⟩ := hsamples
    rw [perform_sample hhead hcaller hd hvalues]
    exact Engine.advance_eq hpop

end Samples

end Endings

/-- The first task of the run that concerns the enumeration `i` is a sample at the end of a path.
Nothing was put off before it. -/
structure Draws (i limit : Nat) (t₀ : Task) (m₀ : Machine) (t : Task) (m : Machine) (e : Engine)
    (k : Value) (d : Dist) : Prop where
  first : ∃ fuel, t₀.runTo (Task.concerns i) fuel m₀ = some (t, m)
  samples : t.Samples i m e k d
  leaves : ∃ j, k = .cont j (.leave i)
  goes : e.done = false
  frontier : e.frontier = .ranked []
  completed : e.completed = 0
  limit : e.limit = some limit

section Draws

variable {i limit : Nat} {t₀ t u : Task} {m₀ m n : Machine} {e : Engine} {k : Value} {d : Dist}

theorem Draws.leads (h : Draws i limit t₀ m₀ t m e k d) : Leads i t₀ m₀ [] t m :=
  h.first.elim fun _ => Task.leads_of_runTo

theorem Draws.exists_values (h : Draws i limit t₀ m₀ t m e k d) :
    ∃ values, enumerable d = .ok values := by
  obtain ⟨_, hfirst⟩ := h.first
  have hconcerns :=
    (Task.runTo_keeps (R := fun _ _ => True) hfirst trivial fun _ _ _ _ => trivial).2
  cases hvalues : enumerable d with
  | ok values => exact ⟨values, rfl⟩
  | error =>
    have hincrements : t.increments i m = [] := by
      simp only [Task.increments, Task.sample?_eq_some_iff.2 h.samples, hvalues]
      rfl
    have hreweighs : t.reweighs i m = false := by
      cases h.samples
      rfl
    simp only [Task.concerns, hreweighs, h.samples.hands_eq, hincrements] at hconcerns
    cases hconcerns

/-- All that is added to a score is added by the one sample. -/
theorem Draws.plain (h : Draws i limit t₀ m₀ t m e k d) (hroams : Roams i t₀ m₀ u n) :
    u.reweighs i n = false ∧ u.increments i n ⊆ t.increments i m := by
  obtain ⟨_, hfirst⟩ := h.first
  obtain ⟨values, hvalues⟩ := h.exists_values
  obtain ⟨j, hk⟩ := h.leaves
  rcases hroams.of_runTo hfirst with hquiet | hroams
  · obtain ⟨hplain, -, hnone⟩ := Task.concerns_eq_false hquiet
    exact ⟨hplain, hnone ▸ List.nil_subset _⟩
  · rcases hroams.after_sample h.samples hk h.goes h.frontier hvalues with ⟨rfl, rfl⟩ | ⟨f, hends⟩
    · refine ⟨?_, List.Subset.refl _⟩
      cases h.samples
      rfl
    · obtain ⟨v, rfl⟩ := hends.task
      exact ⟨rfl, List.nil_subset _⟩

theorem Draws.first_path (h : Draws i limit t₀ m₀ t m e k d) : ∃ j e' k' v es n,
    Leads i t₀ m₀ [] (.call k' [v]) n ∧ Task.Ends i j e' (.call k' [v]) n ∧
      e'.frontier = .ranked es ∧ es.length + 1 = (t.increments i m).length ∧
      e'.completed = 0 ∧ e'.limit = some limit := by
  obtain ⟨values, hvalues⟩ := h.exists_values
  obtain ⟨j, hk⟩ := h.leaves
  obtain ⟨x, es, hlength, hperform, hends⟩ := h.samples.next hk h.goes h.frontier hvalues
  refine ⟨j, _, x.k, x.value, es, _, ?_, hends, rfl, ?_, h.completed, h.limit⟩
  · exact h.leads.trans (.quiet h.samples.hands_eq hperform rfl .refl)
  · rw [hlength, h.samples.increments_eq hvalues, List.length_map]

end Draws

/-- Where the called enumeration, under `likelyFirst` and with the limit, asks for its first sample,
if that is at the end of a path. -/
def Call.draw? (c : Call) (limit : Nat) : Option (Task × Machine) :=
  match startEnumeration c.k c.address c.thunk ⟨some limit, .likelyFirst⟩ c.machine with
  | .ok (.bounce t) m => (t.runTo (Task.concerns c.machine.nextId) 200 m).filter fun x =>
    match x.1.sample? c.machine.nextId x.2 with
    | some (e, .cont _ (.leave i), _) => i == c.machine.nextId && !e.done &&
      (e.frontier matches .ranked []) && e.completed == 0 && e.limit == some limit
    | _ => false
  | _ => none

theorem Call.draws_of_draw? {c : Call} {limit : Nat} {t : Task} {m : Machine}
    (h : c.draw? limit = some (t, m)) :
    ∃ t₀ m₀ e k d, startEnumeration c.k c.address c.thunk ⟨some limit, .likelyFirst⟩ c.machine =
      .ok (.bounce t₀) m₀ ∧ Draws c.machine.nextId limit t₀ m₀ t m e k d := by
  unfold Call.draw? at h
  split at h
  · rename_i t₀ m₀ hstart
    obtain ⟨hfirst, htest⟩ := Option.filter_eq_some_iff.1 h
    split at htest
    · rename_i e j i d hsample
      simp only [Bool.and_eq_true, beq_iff_eq, Bool.not_eq_true'] at htest
      obtain ⟨⟨⟨⟨rfl, hgoes⟩, hfrontier⟩, hcompleted⟩, hlimit⟩ := htest
      refine ⟨t₀, m₀, e, _, d, hstart, ⟨200, hfirst⟩, Task.sample?_eq_some_iff.1 hsample, ⟨j, rfl⟩,
        hgoes, ?_, hcompleted, hlimit⟩
      split at hfrontier
      · assumption
      · cases hfrontier
    · cases htest
  · cases h

/-- A source whose paths end with a sample; the factor is counted in the inner enumeration. -/
def certainSource : String :=
  "Enumerate(function() \x7b Enumerate(function() \x7b factor(-1); return 1; \x7d); " ++
    "return sample(Delta(\x7bv: 'a'\x7d)); \x7d, \x7bstrategy: 'likelyFirst', maxExecutions: 1\x7d)"

/-- The same with three paths of equal scores, of which one is left. -/
def evenSource : String :=
  "Enumerate(function() \x7b Enumerate(function() \x7b factor(-1); return 1; \x7d); " ++
    "return sample(RandomInteger(\x7bn: 3\x7d)); \x7d, " ++
    "\x7bstrategy: 'likelyFirst', maxExecutions: 2\x7d)"

/-- What a certain value adds can be computed. What one of three values adds is a logarithm, of
which no more is known here than what is assumed of it. -/
theorem evenSource_likely_first :
    (∃ c t₀ m₀ last t n, firstCall? certainSource = some c ∧
      startEnumeration c.k c.address c.thunk ⟨some 1, .likelyFirst⟩ c.machine =
        .ok (.bounce t₀) m₀ ∧
      Leads c.machine.nextId t₀ m₀ [] t n ∧ t.exit? c.machine.nextId n = some last ∧
      Closed c.machine.nextId c.machine c.k [last] (t.perform n)) ∧
    ∃ c t₀ m₀ t₁ m₁, firstCall? evenSource = some c ∧
      startEnumeration c.k c.address c.thunk ⟨some 2, .likelyFirst⟩ c.machine =
        .ok (.bounce t₀) m₀ ∧
      Leads c.machine.nextId t₀ m₀ [] t₁ m₁ ∧ (t₁.increments c.machine.nextId m₁).length = 3 ∧
      ((∀ s x, (s, x) ∈ t₁.increments c.machine.nextId m₁ → x ≤ 0 ∧ NoLikelier (s + x) s) →
        ∃ first second third t n e x, Leads c.machine.nextId t₀ m₀ [first] t n ∧
          t.exit? c.machine.nextId n = some second ∧ NoLikelier second.2 first.2 ∧
          t.Chooses c.machine.nextId n e ∧ e.frontier = .ranked [x] ∧
          (Task.call x.k [x.value]).exit? c.machine.nextId (n.takeUp e x (.ranked [])) =
            some third ∧
          NoLikelier third.2 first.2 ∧ NoLikelier third.2 second.2 ∧
          Closed c.machine.nextId c.machine c.k [first, second] (t.perform n)) := by
  constructor
  · have hcall : (firstCall? certainSource).any (fun c => (c.draw? 1).any fun x =>
        (x.1.increments c.machine.nextId x.2).all fun q =>
          decide (q.2 ≤ 0) && decide (NoLikelier (q.1 + q.2) q.1)) = true := by
      decide +kernel
    obtain ⟨c, hc, hpoint⟩ := (Option.any_eq_true _ _).1 hcall
    obtain ⟨⟨t₁, m₁⟩, hpoint, hfalls⟩ := (Option.any_eq_true _ _).1 hpoint
    obtain ⟨t₀, m₀, _, _, _, hstart, hdraws⟩ := Call.draws_of_draw? hpoint
    simp only [List.all_eq_true, Bool.and_eq_true, decide_eq_true_eq] at hfalls
    obtain ⟨_, _, _, _, _, _, hleads, hends, -⟩ := hdraws.first_path
    obtain ⟨-, -, hclosed⟩ := likely_paths_first (isReached_of_firstCall? hc).id_lt hstart
      (fun h => (hdraws.plain h).1) (fun h hx => (hfalls _ ((hdraws.plain h).2 hx)).1)
      (fun h hx _ => (hfalls _ ((hdraws.plain h).2 hx)).2) hleads hends.engine hends.goes
    exact ⟨c, t₀, m₀, _, _, _, hc, hstart, hleads, hends.exit?_eq, hclosed hends.exit?_eq rfl⟩
  · have hcall : (firstCall? evenSource).any (fun c => (c.draw? 2).any fun x =>
        (x.1.increments c.machine.nextId x.2).length == 3) = true := by
      decide +kernel
    obtain ⟨c, hc, hpoint⟩ := (Option.any_eq_true _ _).1 hcall
    obtain ⟨⟨t₁, m₁⟩, hpoint, hthree⟩ := (Option.any_eq_true _ _).1 hpoint
    obtain ⟨t₀, m₀, _, _, _, hstart, hdraws⟩ := Call.draws_of_draw? hpoint
    have hthree := beq_iff_eq.1 hthree
    refine ⟨c, t₀, m₀, t₁, m₁, hc, hstart, hdraws.leads, hthree, fun hfalls => ?_⟩
    obtain ⟨j, e, _, v, es, _, hleads, hends, hfrontier, hlength, hcompleted, hlimit⟩ :=
      hdraws.first_path
    obtain ⟨x₁, x₂, rfl⟩ := List.length_eq_two.1 (Nat.succ.inj (hlength.trans hthree))
    obtain ⟨hperform, e', hfrontier', hends'⟩ :=
      hends.next hlimit (hcompleted ▸ Nat.lt_succ_self 1) hfrontier
    have hleads' := hleads.trans (.handing (Task.hands_of_exit? hends.exit?_eq) hperform rfl .refl)
    obtain ⟨hsorted, hleft, hclosed⟩ := likely_paths_first (isReached_of_firstCall? hc).id_lt hstart
      (fun h => (hdraws.plain h).1) (fun h hx => (hfalls _ _ ((hdraws.plain h).2 hx)).1)
      (fun h hx _ => (hfalls _ _ ((hdraws.plain h).2 hx)).2) hleads' hends'.engine hends'.goes
    have hexit := hends'.exit?_eq
    have hlast := hends'.exit?_takeUp hfrontier' x₁.value
    rw [Task.hands_of_exit? hexit] at hsorted hleft
    have hbelow r hr := (@hleft _ [] x₂ [] _ _ hends'.chooses hfrontier' .refl r hr).2 _ hlast
    refine ⟨_, _, _, _, _, _, x₂, hleads', hexit, ?_, hends'.chooses, hfrontier', hlast, ?_, ?_,
      hclosed hexit rfl⟩
    · exact (List.pairwise_cons.1 hsorted).1 _ List.mem_cons_self
    · exact hbelow _ List.mem_cons_self
    · exact hbelow _ (List.mem_cons_of_mem _ List.mem_cons_self)

end Chance
