import Chance.Proofs.Enumeration.Limits

/-!
# Enumerations within enumerations

An enumeration has the identity that was next when it was called. Of the enumerations that are
installed, the inner ones were called later: from the innermost outwards, identities decrease. This
holds in every state that a runtime can reach, also where a path has left an enumeration through a
continuation from outside of it.
-/

namespace Chance

open Exec

variable {m : Machine} {x : Option Task}

/-- The identities of the enumerations that are installed, the innermost first. -/
def Machine.ids (m : Machine) : List Nat :=
  m.stack.filterMap fun
    | .engine e => some e.id
    | .script _ => none

theorem Machine.mem_ids {i : Nat} : i ∈ m.ids ↔ ∃ e, .engine e ∈ m.stack ∧ e.id = i := by
  simp only [Machine.ids, List.mem_filterMap]
  constructor
  · rintro ⟨_ | _, hc, hi⟩
    · exact ⟨_, hc, Option.some.inj hi⟩
    · cases hi
  · rintro ⟨e, he, rfl⟩
    exact ⟨_, he, rfl⟩

theorem Machine.ids_sublist {n : Machine} (h : n.stack = m.stack) : n.ids.Sublist m.ids := by
  rw [Machine.ids, Machine.ids, h]

theorem Machine.ids_putEngine (m : Machine) (e : Engine) : (m.putEngine e).ids = m.ids := by
  rw [Machine.ids, putEngine_eq, List.filterMap_map]
  refine List.filterMap_congr fun c _ => ?_
  cases c with
  | script i => rfl
  | engine f =>
    simp only [Function.comp, replaceEngine]
    split_ifs with hid
    · exact congrArg some hid.symm
    · rfl

theorem Machine.ids_uninstall (m : Machine) : m.uninstall.2.ids.Sublist m.ids :=
  m.stack.tail_sublist.filterMap _

/-- The computation installs no enumeration, and begins one with a new identity only. -/
def Nests (x : Exec Step) (m : Machine) : Prop :=
  match x m with
  | .ok s n => n.ids.Sublist m.ids ∧ ∀ e, s.entered? = some e → m.nextId ≤ e.id
  | .error _ n => n.ids.Sublist m.ids

namespace Nests

variable {m : Machine} {α : Type} {f : α → Exec Step}

theorem of_aside {x : Exec Step} (hx : Aside Step.Stays x) : Nests x m := by
  have hxm := hx m
  unfold Nests
  cases hm : x m with
  | error e n =>
    rw [hm] at hxm
    exact Machine.ids_sublist hxm.1
  | ok s n =>
    rw [hm] at hxm
    refine ⟨Machine.ids_sublist hxm.2.1, fun e he => ?_⟩
    cases hxm.1.symm.trans he

theorem congr {x y : Exec Step} {n : Machine} (h : y m = x n) (hstack : n.stack = m.stack)
    (hnext : m.nextId ≤ n.nextId) (hx : Nests x n) : Nests y m := by
  have hids : n.ids = m.ids := congrArg (List.filterMap _) hstack
  unfold Nests at hx ⊢
  rw [h, ← hids]
  cases hn : x n with
  | error e n' =>
    rw [hn] at hx
    exact hx
  | ok s n' =>
    rw [hn] at hx
    exact ⟨hx.1, fun e he => hnext.trans (hx.2 e he)⟩

theorem lift_bind {x : Except Error α} (hf : ∀ a, Nests (f a) m) : Nests (liftM x >>= f) m := by
  cases x with
  | error e => exact List.Sublist.refl _
  | ok a => exact hf a

theorem modify_bind {g : Machine → Machine} {x : Exec Step} (hids : (g m).ids.Sublist m.ids)
    (hnext : (g m).nextId = m.nextId) (h : Nests x (g m)) : Nests (modify g >>= fun _ => x) m := by
  change match x (g m) with
    | .ok s n => n.ids.Sublist m.ids ∧ ∀ e, s.entered? = some e → m.nextId ≤ e.id
    | .error _ n => n.ids.Sublist m.ids
  unfold Nests at h
  cases hx : x (g m) with
  | error e n =>
    rw [hx] at h
    exact h.trans hids
  | ok s n =>
    rw [hx] at h
    exact ⟨h.1.trans hids, fun e he => hnext.ge.trans (h.2 e he)⟩

theorem save_bind {e : Engine} {x : Exec Step} (h : Nests x (m.putEngine e)) :
    Nests (e.save >>= fun _ => x) m :=
  .modify_bind ((m.ids_putEngine e).symm ▸ List.Sublist.refl _) rfl h

end Nests

section Steps

variable {m : Machine} {e : Engine} {v : Value}

theorem Engine.finish_nests : Nests e.finish m := by
  refine .lift_bind fun d => .save_bind (.modify_bind (Machine.ids_uninstall _) rfl ?_)
  exact .of_aside ((Aside.setStore _).bind fun _ _ => (Aside.newDist d).bind fun _ _ => .pure rfl)

theorem Engine.advance_nests : Nests e.advance m := by
  unfold Engine.advance
  split
  · exact .save_bind (.of_aside ((Aside.setStore _).bind fun _ _ => .pure rfl))
  · exact finish_nests

theorem Engine.leave_nests : Nests (e.leave v) m := by
  refine .save_bind ?_
  split
  · exact advance_nests
  · exact finish_nests

theorem Task.perform_nests {t : Task} (ht : t.entered? = none) : Nests t.perform m := by
  cases t.perform_deed m with
  | fails h => exact .congr h.plain rfl le_rfl (.of_aside (.throw _))
  | stays _ haside h => exact .congr h.plain rfl le_rfl (.of_aside haside)
  | begins _ h =>
    rw [h, Nests, startEnumeration_eq]
    refine ⟨List.Sublist.refl _, fun e he => ?_⟩
    cases he
    exact le_rfl
  | enters htask =>
    subst htask
    cases ht
  | samples _ _ _ _ h =>
    exact .congr h.plain rfl le_rfl (.lift_bind fun values =>
      Nests.save_bind (m := m) (e := Engine.postpone _ _ _ m.store values) Engine.advance_nests)
  | factors _ _ _ hnext h =>
    refine .congr h.plain rfl hnext (.save_bind ?_)
    split
    · exact Engine.leave_nests
    · exact .of_aside (.pure rfl)
  | leaves _ _ h => exact .congr h.plain rfl le_rfl Engine.leave_nests
  | queues _ _ hstays h => exact .congr h.plain rfl le_rfl (.save_bind (.of_aside (.pure hstays)))
  | advances _ _ h => exact .congr h.plain rfl le_rfl Engine.advance_nests

end Steps

/-- Identities decrease outwards, also past an enumeration that is about to be entered. -/
structure Nested (m : Machine) (x : Option Task) : Prop where
  stack : m.ids.Pairwise (· > ·)
  entered : ∀ t ∈ x, ∀ e, t.entered? = some e → ∀ i ∈ m.ids, i < e.id

theorem Reached.ids_lt (h : Reached m x) : ∀ i ∈ m.ids, i < m.nextId := by
  intro i hi
  obtain ⟨e, he, rfl⟩ := Machine.mem_ids.1 hi
  exact (h.over.1.stack e he).id

theorem Nested.next {t : Task} {m' : Machine} {s : Step} (h : Nested m (some t))
    (hids : ∀ i ∈ m.ids, i < m.nextId) (hs : t.perform m = .ok s m') : Nested m' s.task? := by
  by_cases ht : t.entered? = none
  · have hnests := Task.perform_nests (m := m) ht
    unfold Nests at hnests
    rw [hs] at hnests
    obtain ⟨hsub, hnew⟩ := hnests
    refine ⟨h.stack.sublist hsub, fun u hu e he i hi => ?_⟩
    exact (hids i (hsub.subset hi)).trans_le (hnew e (Option.bind_eq_some_iff.2 ⟨u, hu, he⟩))
  · cases t with
    | enter e thunk exit =>
      cases hs
      refine ⟨List.pairwise_cons.2 ⟨fun i hi => h.entered _ rfl e rfl i hi, h.stack⟩, ?_⟩
      rintro _ ⟨⟩ _ ⟨⟩
    | _ => exact absurd rfl ht

theorem Reached.nested (h : Reached m x) : Nested m x := by
  induction h with
  | fresh supply => exact ⟨.nil, nofun⟩
  | scripted choices _ ih => exact ⟨ih.stack, nofun⟩
  | @started p m m' s _ hs ih =>
    -- Starting a program installs nothing and enters nothing.
    have haside : Aside Step.Stays (Exec.newCont .exit >>= p.start) := by
      refine (Aside.newCont _).bind fun k _ => ?_
      unfold Program.start
      split
      · exact Aside.freshId.bind fun _ _ => enterClosure_aside _ _ _ _ _ _
      · exact .throw _
    have hstart := haside m
    rw [hs] at hstart
    obtain ⟨hstays, hstack, -⟩ := hstart
    refine ⟨?_, fun t ht e he => ?_⟩
    · rw [Machine.ids, hstack]
      exact ih.stack
    · cases hstays.symm.trans (Option.bind_eq_some_iff.2 ⟨t, ht, he⟩)
  | next hreached hs ih => exact ih.next hreached.ids_lt hs
  | @failed t m m' er depth _ hs ih =>
    -- A failed run drops coroutines from the top, which keeps the order of the rest.
    have hsub : (m'.truncate depth).ids.Sublist m'.ids := (List.drop_sublist _ _).filterMap _
    by_cases ht : t.entered? = none
    · have hnests := Task.perform_nests (m := m) ht
      unfold Nests at hnests
      rw [hs] at hnests
      exact ⟨ih.stack.sublist (hsub.trans hnests), nofun⟩
    · cases t with
      | enter => cases hs
      | _ => exact absurd rfl ht

theorem Reached.outer_lt (h : Reached m x) {e f : Engine} {outer : List Coroutine}
    (hstack : m.stack = .engine e :: outer) (hf : .engine f ∈ outer) : f.id < e.id := by
  have hids := h.nested.stack
  rw [Machine.ids, hstack] at hids
  exact (List.pairwise_cons.1 hids).1 f.id (List.mem_filterMap.2 ⟨_, hf, rfl⟩)

end Chance
