import Chance.Proofs.Enumeration.Deeds

/-!
# What a step makes of an enumeration

Whatever else goes on, a step changes an enumeration in a few ways only: it answers a sample, one of
its paths ends, a factor is counted, or a scored value is queued. After a sample and at the end of a
path it takes up the next choice that was put off, or is over.

- `Task.Samples`, `Task.reweighs`: what a task asks of the enumeration `i`,
- `Engine.Turns`: what a task makes of it,
- `Task.perform_turns`: every step is one of these, so that it is enough to follow the one
  enumeration (`Watched.next`). -/

namespace Chance

open Exec

/-- The task asks the enumeration `i`, which is `e` at present, for a sample of `d`. -/
inductive Task.Samples (i : Nat) (m : Machine) (e : Engine) (k : Value) (d : Dist) : Task → Prop
  | call {args : List Value} {a : String} : callerOf args = .ok (k, a) →
      (argument args 2).toDist = .ok d → m.stack.head? = some (.engine e) → e.id = i →
      Samples i m e k d (.call (.builtin .sample) args)

/-- The enumeration `i` answers `sample` and `factor` at present. -/
def Machine.isAnswering (i : Nat) (m : Machine) : Bool :=
  match m.stack.head? with
  | some (.engine e) => e.id == i
  | _ => false

theorem Machine.ne_of_isAnswering {i : Nat} {m : Machine} (h : m.isAnswering i = false) (e : Engine)
    (hhead : m.stack.head? = some (.engine e)) : e.id ≠ i := by
  rw [isAnswering, hhead] at h
  exact ne_of_beq_false h

/-- The task counts a factor or an extra score in the enumeration `i`. -/
def Task.reweighs (i : Nat) (t : Task) (m : Machine) : Bool :=
  match t with
  | .call (.builtin .factor) _ | .call (.builtin .sampleWithFactor) _
  | .call (.cont _ (.scored ..)) _ => m.isAnswering i
  | .call (.cont _ (.collect (.weigh j ..) ..)) _ | .iterate (.weigh j ..) .. => j == i
  | _ => false

/-- The enumeration takes up a choice that was put off, or is over. -/
inductive Engine.Advances (e : Engine) : Engine → Prop
  | takes {x : Entry} {rest : Frontier} : e.frontier.pop? = some (x, rest) →
      Advances e { e with score := x.score, frontier := rest }
  | ends : Advances e { e with done := true, frontier := e.frontier.clear }

/-- What the task makes of the enumeration `i`. -/
inductive Engine.Turns (i : Nat) (t : Task) (m : Machine) (e : Engine) : Engine → Prop
  | stays : t.hands i m = none → Turns i t m e e
  | samples {k : Value} {d : Dist} {values : List Value} {e' : Engine} : t.Samples i m e k d →
      enumerable d = .ok values → (e.postpone k d m.store values).Advances e' → Turns i t m e e'
  | leaves {v : Value} {e' : Engine} : t.hands i m = some (v, e.score) →
      (e.counting v).Advances e' → Turns i t m e e'
  | weighs {x : Float} : t.reweighs i m = true → t.hands i m = none → Turns i t m e (e.weighing x)
  | drops {x : Float} {e' : Engine} : t.reweighs i m = true →
      t.hands i m = some (.undefined, (e.weighing x).score) →
      ((e.weighing x).counting .undefined).Advances e' → Turns i t m e e'
  | queues {x : Entry} : t.reweighs i m = true → t.hands i m = none →
      Turns i t m e { e with frontier := e.frontier.push x }
  | advances {e' : Engine} : t.reweighs i m = true → t.hands i m = none → e.Advances e' →
      Turns i t m e e'

/-- What holds of the enumeration `i` wherever it is installed. -/
def Machine.Has (i : Nat) (P : Engine → Prop) (m : Machine) : Prop :=
  ∀ e, .engine e ∈ m.stack → e.id = i → P e

section Has

variable {i : Nat} {P : Engine → Prop} {m : Machine} {e : Engine}

theorem mem_of_engine? {j : Nat} (h : m.engine? j = some e) : .engine e ∈ m.stack ∧ e.id = j := by
  obtain ⟨c, hc, hfound⟩ := List.exists_of_findSome?_eq_some h
  cases c with
  | script => cases hfound
  | engine f =>
    simp only [Option.ite_none_right_eq_some, Option.some.injEq] at hfound
    obtain ⟨hid, rfl⟩ := hfound
    exact ⟨hc, hid⟩

theorem mem_of_head? {c : Coroutine} (h : m.stack.head? = some c) : c ∈ m.stack :=
  List.mem_of_mem_head? (Option.mem_def.2 h)

theorem engine?_of_head? (hhead : m.stack.head? = some (.engine e)) (hid : e.id = i) :
    m.engine? i = some e := by
  obtain ⟨outer, hstack⟩ := List.head?_eq_some_iff.1 hhead
  exact hid ▸ engine?_onTop hstack

theorem findEngine?_replaceEngine {cs : List Coroutine} {f : Engine} (h : findEngine? i cs = some f)
    (hid : e.id = i) : findEngine? i (cs.map (replaceEngine e)) = some e := by
  induction cs with
  | nil => cases h
  | cons c cs ih =>
    unfold findEngine? at h ih ⊢
    rw [List.map_cons, List.findSome?_cons]
    rw [List.findSome?_cons] at h
    cases c with
    | script => exact ih h
    | engine g =>
      by_cases hg : g.id = i
      · simp only [replaceEngine, hg, hid, if_true]
      · simp only [hg, if_false] at h
        simp only [replaceEngine, hid, hg, if_false]
        exact ih h

theorem engine?_putEngine {f : Engine} (h : m.engine? i = some f) (hid : e.id = i) :
    (m.putEngine e).engine? i = some e :=
  findEngine?_replaceEngine h hid

theorem Machine.Has.put (hm : e.id ≠ i → m.Has i P) (he : e.id = i → P e) :
    (m.putEngine e).Has i P := by
  intro f hf hid
  obtain ⟨c, hc, hfc⟩ := List.mem_map.1 hf
  cases c with
  | script j => cases hfc
  | engine g =>
    simp only at hfc
    split at hfc
    · cases hfc
      exact he hid
    · rename_i hne
      cases hfc
      exact hm (fun heq => hne (hid.trans heq.symm)) _ hc hid

end Has

/-! ## Steps -/

/-- If the computation succeeds, then afterwards `P` holds of the enumeration `i`, wherever it is
installed or about to be. -/
def Turning (i : Nat) (P : Engine → Prop) (x : Exec Step) (m : Machine) : Prop :=
  ∀ s m', x m = .ok s m' → m.nextId ≤ m'.nextId ∧ m'.Has i P ∧
    ∀ e, s.entered? = some e → e.id = i → P e

namespace Turning

variable {i : Nat} {P : Engine → Prop} {m n : Machine} {α : Type} {x y : Exec Step}
  {f : α → Exec Step}

theorem congr (h : y m = x n) (hnext : m.nextId ≤ n.nextId) (hx : Turning i P x n) :
    Turning i P y m :=
  fun s m' hs => (hx s m' (h.symm.trans hs)).imp_left hnext.trans

theorem of_aside (hx : Aside Step.Stays x) (hm : m.Has i P) : Turning i P x m := by
  intro s m' hs
  have hxm := hx m
  rw [hs] at hxm
  obtain ⟨hstays, hstack, hnext, -⟩ := hxm
  refine ⟨hnext, fun e he => hm e (hstack ▸ he), fun e he => ?_⟩
  cases hstays.symm.trans he

theorem lift_bind {x : Except Error α} (hf : ∀ a, x = .ok a → Turning i P (f a) m) :
    Turning i P (liftM x >>= f) m := by
  cases x with
  | error e => exact nofun
  | ok a => exact hf a rfl

theorem modify_bind {f : Machine → Machine} (hnext : (f m).nextId = m.nextId)
    (h : Turning i P x (f m)) : Turning i P (modify f >>= fun _ => x) m :=
  fun s m' hs => (h s m' hs).imp_left hnext.ge.trans

theorem save_bind {e : Engine} (h : Turning i P x (m.putEngine e)) :
    Turning i P (e.save >>= fun _ => x) m :=
  .modify_bind rfl h

end Turning

section Steps

variable {i : Nat} {P : Engine → Prop} {m : Machine} {e : Engine} {k : Value} {d : Dist} {x : Float}

theorem Engine.finish_makes (hm : e.id ≠ i → m.Has i P)
    (he : e.id = i → P { e with done := true, frontier := e.frontier.clear }) :
    Turning i P e.finish m := by
  have hsaved := Machine.Has.put (e := { e with done := true, frontier := e.frontier.clear }) hm he
  refine .lift_bind fun d _ => .save_bind (.modify_bind rfl ?_)
  refine .of_aside ?_ fun f hf => hsaved f (List.mem_of_mem_tail hf)
  exact (Aside.setStore _).bind fun _ _ => (Aside.newDist d).bind fun _ _ => .pure rfl

theorem Engine.advance_makes (hm : e.id ≠ i → m.Has i P)
    (he : e.id = i → ∀ e', e.Advances e' → P e') : Turning i P e.advance m := by
  unfold Engine.advance
  cases hpop : e.frontier.pop? with
  | none => exact finish_makes hm fun hid => he hid _ .ends
  | some next =>
    refine .save_bind (.of_aside ((Aside.setStore _).bind fun _ _ => .pure rfl) (.put hm ?_))
    exact fun hid => he hid _ (.takes hpop)

theorem Engine.leave_makes {v : Value} (hm : e.id ≠ i → m.Has i P)
    (he : e.id = i → ∀ e', (e.counting v).Advances e' → P e') : Turning i P (e.leave v) m := by
  have hsaved (hid : e.id ≠ i) : (m.putEngine (e.counting v)).Has i P :=
    .put (e := e.counting v) hm fun heq => absurd heq hid
  change Turning i P ((e.counting v).save >>= fun _ =>
    if (e.counting v).withinLimit && !e.frontier.isEmpty then (e.counting v).advance
    else (e.counting v).finish) m
  refine .save_bind ?_
  split
  · exact advance_makes hsaved he
  · exact finish_makes hsaved fun hid => he hid _ .ends

theorem Engine.sample_makes (hm : e.id ≠ i → m.Has i P)
    (he : e.id = i → ∀ values, enumerable d = .ok values →
      ∀ e', (e.postpone k d m.store values).Advances e' → P e') : Turning i P (e.sample k d) m := by
  refine .lift_bind fun values hvalues => ?_
  change Turning i P ((e.postpone k d m.store values).save >>= fun _ =>
    (e.postpone k d m.store values).advance) m
  refine .save_bind (advance_makes (fun hid => ?_) fun hid => he hid values hvalues)
  exact .put hm fun heq => absurd heq hid

theorem Engine.factor_makes (hm : e.id ≠ i → m.Has i P)
    (hsome : e.id = i → (e.score + x == Number.negInfinity) = false → P (e.weighing x))
    (hzero : e.id = i → (e.score + x == Number.negInfinity) = true →
      ∀ e', ((e.weighing x).counting .undefined).Advances e' → P e') :
    Turning i P (e.factor k x) m := by
  change Turning i P ((e.weighing x).save >>= fun _ =>
    if e.score + x == Number.negInfinity then (e.weighing x).leave .undefined
    else pure (.resume k .undefined)) m
  refine .save_bind ?_
  split
  · rename_i hnone
    refine leave_makes (fun hid => ?_) fun hid => hzero hid hnone
    exact .put (e := e.weighing x) hm fun heq => absurd heq hid
  · rename_i hsome'
    exact .of_aside (.pure rfl) (.put hm fun hid => hsome hid (Bool.eq_false_iff.2 hsome'))

end Steps

/-- What the task has made of the enumeration `i` as it was before. -/
def Task.MadeOf (i : Nat) (t : Task) (m : Machine) (e' : Engine) : Prop :=
  ∃ e, (.engine e ∈ m.stack ∨ t.entered? = some e) ∧ e.id = i ∧ e.Turns i t m e'

section Turns

variable {i : Nat} {m : Machine} {t : Task}

theorem Task.has_madeOf (h : t.hands i m = none) : m.Has i (t.MadeOf i m) :=
  fun e he hid => ⟨e, .inl he, hid, .stays h⟩

/-- A step makes one of a few things of the enumeration `i`. -/
theorem Task.perform_turns (hi : i < m.nextId) : Turning i (t.MadeOf i m) t.perform m := by
  cases t.perform_deed m with
  | fails h =>
    intro s m' hs
    cases h.plain.symm.trans hs
  | stays hands haside h => exact .congr h.plain le_rfl (.of_aside haside (has_madeOf (hands i)))
  | begins hands h =>
    rw [h]
    intro s m' hs
    rw [startEnumeration_eq] at hs
    cases hs
    refine ⟨Nat.le_add_right _ 2, has_madeOf (hands i), fun e he hid => ?_⟩
    cases he
    exact absurd hid (Nat.ne_of_gt hi)
  | @enters e _ _ ht =>
    subst ht
    refine .modify_bind rfl (.of_aside (.pure rfl) fun f hf hid => ?_)
    rcases List.mem_cons.1 hf with heq | hmem
    · cases heq
      exact ⟨e, .inr rfl, hid, .stays rfl⟩
    · exact ⟨f, .inl hmem, hid, .stays rfl⟩
  | @samples _ k _ d e ht hcaller hd hhead h =>
    subst ht
    refine .congr h.plain le_rfl (Engine.sample_makes (fun _ => has_madeOf rfl) ?_)
    intro hid values hvalues e' he'
    exact ⟨e, .inl (mem_of_head? hhead), hid, .samples (.call hcaller hd hhead hid) hvalues he'⟩
  | @factors _ x e _ hform hands hhead hnext h =>
    have hmem : Coroutine.engine e ∈ m.stack := mem_of_head? hhead
    have hreweighs (hid : e.id = i) : t.reweighs i m = true := by
      have hanswers : m.isAnswering i = true := by
        rw [Machine.isAnswering, hhead]
        exact beq_iff_eq.2 hid
      obtain ⟨args, rfl | ⟨_, _, _, _, rfl⟩⟩ := hform
      · exact hanswers
      · exact hanswers
    -- The factor goes to the enumeration on top, and is of no concern to any other.
    have hhanded : t.hands i m =
        if e.id = i ∧ (e.score + x == Number.negInfinity) = true then
          some (.undefined, e.score + x) else none := by
      simp only [hands, handedAtFactor, hhead]
    refine .congr h.plain hnext (Engine.factor_makes (fun hne => ?_) (fun hid hsome => ?_) ?_)
    · exact has_madeOf (hhanded.trans (if_neg fun h => hne h.1))
    · refine ⟨e, .inl hmem, hid, .weighs (hreweighs hid) (hhanded.trans (if_neg fun h => ?_))⟩
      exact Bool.false_ne_true (hsome.symm.trans h.2)
    · intro hid hzero e' he'
      exact ⟨e, .inl hmem, hid, .drops (hreweighs hid) (hhanded.trans (if_pos ⟨hid, hzero⟩)) he'⟩
  | @leaves _ j args e ht he h =>
    subst ht
    obtain ⟨hmem, hid⟩ := mem_of_engine? he
    refine .congr h.plain le_rfl
      (Engine.leave_makes (fun hne => has_madeOf ?_) fun heq e' he' => ?_)
    · exact if_neg fun heq => hne (hid.trans heq)
    · obtain rfl : j = i := hid.symm.trans heq
      refine ⟨e, .inl hmem, hid, .leaves ?_ he'⟩
      simp only [Task.hands, if_true, he, Option.map_some]
  | @queues _ j _ _ _ _ _ _ _ _ _ _ _ e _ _ ht he hstays h =>
    subst ht
    obtain ⟨hmem, hid⟩ := mem_of_engine? he
    refine .congr h.plain le_rfl (.save_bind (.of_aside (.pure hstays) ?_))
    refine .put (fun _ => has_madeOf rfl) fun heq => ⟨e, .inl hmem, heq, .queues ?_ rfl⟩
    exact beq_iff_eq.2 (hid.symm.trans heq)
  | @advances j _ _ _ _ _ _ _ _ e ht he h =>
    subst ht
    obtain ⟨hmem, hid⟩ := mem_of_engine? he
    refine .congr h.plain le_rfl (Engine.advance_makes (fun _ => has_madeOf rfl) ?_)
    intro heq e' he'
    exact ⟨e, .inl hmem, heq, .advances (beq_iff_eq.2 (hid.symm.trans heq)) rfl he'⟩

/-- `P` holds of the enumeration `i`, wherever it is installed or about to be. -/
structure Watched (i : Nat) (P : Engine → Prop) (t : Task) (m : Machine) : Prop where
  id : i < m.nextId
  has : m.Has i P
  entered : ∀ e, t.entered? = some e → e.id = i → P e

theorem Watched.next {P P' : Engine → Prop} {t' : Task} {m' : Machine} {s : Step}
    (h : Watched i P t m) (hs : t.perform m = .ok s m') (ht' : s.task? = some t')
    (hP : ∀ {e e'}, P e → e.Turns i t m e' → P' e') : Watched i P' t' m' := by
  have hmade {e' : Engine} (he' : t.MadeOf i m e') : P' e' := by
    obtain ⟨e, he | he, hid, hturns⟩ := he'
    · exact hP (h.has e he hid) hturns
    · exact hP (h.entered e he hid) hturns
  obtain ⟨hnext, hhas, hentered⟩ := Task.perform_turns h.id s m' hs
  refine ⟨h.id.trans_le hnext, fun e he hid => hmade (hhas e he hid), fun e he hid => ?_⟩
  refine hmade (hentered e ?_ hid)
  rw [Step.entered?, ht']
  exact he

end Turns

end Chance
