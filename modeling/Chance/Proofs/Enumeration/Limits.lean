import Chance.Proofs.Enumeration.Turns

/-!
# Enumerations with a limit

An enumeration asks for its limit only when a path ends. Up to the end of the path that reaches the
limit, a run with a limit is therefore the run without one, in states that differ in the limit alone
(`Machine.capped`); at the end of that path it is over.

- `Task.exit?`: the path of an enumeration that a task ends,
- `Task.perform_capped`: a step with the limit is the step without it,
- `Leads.capped`: so is a run, as long as fewer paths end,
- `Task.exit_closed`: the path that reaches the limit is the last,
- `limit_keeps_prefix`: a limit keeps the first paths of an enumeration.
-/

namespace Chance

open Exec

/-! ## Setting a limit -/

variable {count i : Nat} {m : Machine}

section Capped

variable (i n : Nat)

/-- Sets the limit of the enumeration `i`. -/
def Engine.capped (e : Engine) : Engine :=
  { e with limit := if e.id = i then some n else e.limit }

def Machine.capped (m : Machine) : Machine :=
  m.mapEngines (Engine.capped i n)

def Task.capped : Task → Task
  | .enter e thunk exit => .enter (e.capped i n) thunk exit
  | t => t

def Step.capped : Step → Step
  | .bounce t => .bounce (t.capped i n)
  | .through t => .through (t.capped i n)
  | .done v => .done v

def cappedResult : EStateM.Result Error Machine Step → EStateM.Result Error Machine Step
  | .ok s m => .ok (s.capped i n) (m.capped i n)
  | .error e m => .error e (m.capped i n)

variable {i n}

theorem Task.capped_of_stays {t : Task} (h : t.entered? = none) : t.capped i n = t := by
  cases t with
  | enter => cases h
  | call | turn | iterate => rfl

theorem Step.capped_of_stays {s : Step} (h : s.Stays) : s.capped i n = s := by
  cases s with
  | bounce t => exact congrArg Step.bounce (Task.capped_of_stays h)
  | through t => exact congrArg Step.through (Task.capped_of_stays h)
  | done v => rfl

theorem Step.task?_capped (s : Step) : (s.capped i n).task? = s.task?.map (Task.capped i n) := by
  cases s <;> rfl

theorem hidden_capped : Engine.Hidden (Engine.capped i n) :=
  ⟨fun _ => rfl, fun _ => rfl, fun _ => rfl⟩

theorem engine?_capped (m : Machine) (j : Nat) :
    (m.capped i n).engine? j = (m.engine? j).map (Engine.capped i n) :=
  engine?_mapEngines hidden_capped m j

theorem handedAtFactor_capped (m : Machine) (x : Except Error Float) :
    handedAtFactor i (m.capped i n) x = handedAtFactor i m x := by
  simp only [handedAtFactor, Machine.capped, head?_mapEngines]
  rcases m.stack.head? with _ | _ | _ <;> cases x <;> rfl

theorem hands_capped (t : Task) (m : Machine) :
    (t.capped i n).hands i (m.capped i n) = t.hands i m := by
  cases t with
  | enter | turn | iterate => rfl
  | call f args =>
    simp only [Task.capped, Task.hands]
    split
    · simp only [engine?_capped, Option.map_map]
      rfl
    · exact handedAtFactor_capped m _
    · exact handedAtFactor_capped m _
    · rfl

end Capped

/-! ## What an enumeration has counted -/

/-- An enumeration called where the run goes on at `k`, with the given store and limit, after it has
counted the results. -/
structure Engine.Counted (k : Value) (store : Store) (limit : Option Nat)
    (results : List (Value × Float)) (e : Engine) : Prop where
  completed : e.completed = results.length
  tally : e.tally = Tally.empty.addAll results
  k : e.k = k
  store : e.store = store
  limit : e.limit = limit

section Counted

variable {k : Value} {store : Store} {limit : Option Nat} {r : List (Value × Float)} {t : Task}
  {e e' : Engine}

theorem Engine.Advances.counted (h : e.Advances e') (he : e.Counted k store limit r) :
    e'.Counted k store limit r := by
  cases h with
  | takes _ => exact { he with }
  | ends => exact { he with }

theorem Engine.Counted.counting (h : e.Counted k store limit r) (v : Value) :
    (e.counting v).Counted k store limit (r ++ [(v, e.score)]) where
  completed := by
    simp only [Engine.counting, h.completed, List.length_append, List.length_singleton]
  tally := by
    simp only [Engine.counting, h.tally, Tally.addAll, List.foldl_append, List.foldl_cons,
      List.foldl_nil]
  k := h.k
  store := h.store
  limit := h.limit

theorem Engine.Turns.counted (h : e.Turns i t m e') (he : e.Counted k store limit r) :
    e'.Counted k store limit (r ++ (t.hands i m).toList) := by
  cases h with
  | stays hands | weighs _ hands | queues _ hands =>
    rw [hands, Option.toList_none, List.append_nil]
    exact { he with }
  | samples hsamples _ hadvances =>
    cases hsamples
    exact (List.append_nil r).symm ▸ hadvances.counted { he with }
  | leaves hands hadvances =>
    rw [hands]
    exact hadvances.counted (he.counting _)
  | drops _ hands hadvances =>
    rw [hands]
    exact hadvances.counted (Engine.Counted.counting (e := e.weighing _) { he with } _)
  | advances _ hands hadvances =>
    rw [hands, Option.toList_none, List.append_nil]
    exact hadvances.counted he

end Counted

/-! ## Steps with the limit -/

/-- With the limit `y` does what `x` does without it. -/
def Capped (i n : Nat) (x y : Exec Step) (m : Machine) : Prop :=
  y (m.capped i n) = cappedResult i n (x m)

section Steps

variable {i n : Nat} {m : Machine} {e : Engine} {k v : Value} {d : Dist} {x : Float} {α : Type}
  {y z : Exec Step}

theorem Capped.of_aside (hy : Aside Step.Stays y) : Capped i n y y m := by
  have hym := hy m
  unfold Capped
  cases h : y m with
  | error er m' =>
    rw [h] at hym
    rw [Machine.capped, Machine.mapEngines, hym.2, cappedResult, Machine.capped, Machine.mapEngines,
      hym.1]
  | ok s m' =>
    rw [h] at hym
    obtain ⟨hstays, hstack, -, hS⟩ := hym
    rw [Machine.capped, Machine.mapEngines, hS, cappedResult, Machine.capped, Machine.mapEngines,
      hstack, s.capped_of_stays hstays]

theorem Capped.lift_bind {x : Except Error α} {f g : α → Exec Step}
    (h : ∀ a, Capped i n (f a) (g a) m) : Capped i n (liftM x >>= f) (liftM x >>= g) m := by
  cases x with
  | error er => rfl
  | ok a => exact h a

theorem Capped.save_bind (h : Capped i n y z (m.putEngine e)) :
    Capped i n (e.save >>= fun _ => y) ((e.capped i n).save >>= fun _ => z) m := by
  change z ((m.capped i n).putEngine (e.capped i n)) = _
  rw [Machine.capped, putEngine_mapEngines hidden_capped]
  exact h

theorem uninstall_capped (m : Machine) : (m.capped i n).uninstall.2 = m.uninstall.2.capped i n := by
  simp only [Machine.uninstall, Machine.capped, Machine.mapEngines, Machine.withStack,
    List.map_tail]

theorem Engine.finish_capped : Capped i n e.finish (e.capped i n).finish m := by
  refine .lift_bind fun d => ?_
  refine .save_bind (e := { e with done := true, frontier := e.frontier.clear }) ?_
  have hafter : Aside Step.Stays (Exec.setStore e.store >>= fun _ => Exec.newDist d >>= fun v =>
      pure (.resume e.k v)) :=
    (Aside.setStore _).bind fun _ _ => (Aside.newDist d).bind fun _ _ => .pure rfl
  exact (congrArg _ (uninstall_capped _)).trans (Capped.of_aside hafter)

theorem Engine.advance_capped : Capped i n e.advance (e.capped i n).advance m := by
  unfold Engine.advance
  cases hpop : e.frontier.pop? with
  | none =>
    simp only [Engine.capped, hpop]
    exact finish_capped
  | some next =>
    obtain ⟨entry, rest⟩ := next
    simp only [Engine.capped, hpop]
    refine .save_bind (e := { e with score := entry.score, frontier := rest }) ?_
    exact .of_aside ((Aside.setStore _).bind fun _ _ => .pure rfl)

theorem Engine.leave_capped (h : e.id = i → e.limit = none ∧ e.completed + 1 < n) :
    Capped i n (e.leave v) ((e.capped i n).leave v) m := by
  have hlimit : ((e.counting v).capped i n).withinLimit = (e.counting v).withinLimit := by
    by_cases hid : e.id = i
    · obtain ⟨hnone, hlt⟩ := h hid
      simp only [Engine.withinLimit, Engine.capped, Engine.counting, hid, if_true, hnone, hlt,
        decide_true]
    · have hid' : (e.counting v).id ≠ i := hid
      simp only [Engine.withinLimit, Engine.capped, hid', if_false]
  change Capped i n ((e.counting v).save >>= fun _ =>
      if (e.counting v).withinLimit && !e.frontier.isEmpty then (e.counting v).advance
      else (e.counting v).finish)
    (((e.counting v).capped i n).save >>= fun _ =>
      if ((e.counting v).capped i n).withinLimit && !e.frontier.isEmpty then
        ((e.counting v).capped i n).advance
      else ((e.counting v).capped i n).finish) m
  refine .save_bind ?_
  rw [hlimit]
  split
  · exact advance_capped
  · exact finish_capped

theorem Engine.sample_capped : Capped i n (e.sample k d) ((e.capped i n).sample k d) m := by
  refine .lift_bind fun values => ?_
  exact Capped.save_bind (e := e.postpone k d m.store values)
    (advance_capped (e := e.postpone k d m.store values))

theorem Engine.factor_capped
    (h : e.id = i → (e.score + x == Number.negInfinity) = true →
      e.limit = none ∧ e.completed + 1 < n) :
    Capped i n (e.factor k x) ((e.capped i n).factor k x) m := by
  change Capped i n ((e.weighing x).save >>= fun _ =>
      if e.score + x == Number.negInfinity then (e.weighing x).leave .undefined
      else pure (.resume k .undefined))
    (((e.weighing x).capped i n).save >>= fun _ =>
      if e.score + x == Number.negInfinity then ((e.weighing x).capped i n).leave .undefined
      else pure (.resume k .undefined)) m
  refine .save_bind ?_
  split
  · rename_i hzero
    exact leave_capped fun hid => h hid hzero
  · rfl

theorem Does.capped {n' : Machine} {z : Engine → Exec Step} (h : Does y m z e n')
    (hz : Capped i n (z e) (z (e.capped i n)) n') : Capped i n y y m := by
  unfold Capped
  rw [h.plain]
  exact (h _ hidden_capped).trans hz

/-- A step is the same with the limit, if it stays below the limit. -/
theorem Task.perform_capped {k₀ : Value} {store₀ : Store} {r : List (Value × Float)} {t : Task}
    (hi : i < m.nextId) (hm : m.Has i (Engine.Counted k₀ store₀ none r))
    (hn : (r ++ (t.hands i m).toList).length < n) :
    Capped i n t.perform (t.capped i n).perform m := by
  -- Where a path is handed over, it is not the one that reaches the limit.
  have hbelow {e : Engine} {l : Value × Float} (he : .engine e ∈ m.stack) (hid : e.id = i)
      (hlast : t.hands i m = some l) : e.limit = none ∧ e.completed + 1 < n := by
    have hcounted := hm e he hid
    rw [hlast, List.length_append, Option.toList_some, List.length_singleton] at hn
    exact ⟨hcounted.limit, hcounted.completed ▸ hn⟩
  by_cases hentered : t.entered? = none
  · rw [Task.capped_of_stays hentered]
    cases t.perform_deed m with
    | fails h => exact h.capped rfl
    | stays _ haside h => exact h.capped (.of_aside haside)
    | begins _ h =>
      rw [h, Capped, startEnumeration_eq, startEnumeration_eq, cappedResult, Step.capped,
        Task.capped, Engine.capped, if_neg (Nat.ne_of_gt hi : (Engine.begin m _ _ _).id ≠ i)]
      rfl
    | enters ht =>
      subst ht
      cases hentered
    | samples _ _ _ _ h => exact h.capped Engine.sample_capped
    | @factors _ x e _ _ hands hhead _ h =>
      refine h.capped (Engine.factor_capped fun hid hzero => ?_)
      refine hbelow (l := (.undefined, e.score + x)) (mem_of_head? hhead) hid ?_
      simp only [hands, handedAtFactor, hhead, hid, hzero, and_self, if_true]
    | @leaves _ j args e ht he h =>
      obtain ⟨hmem, hid⟩ := mem_of_engine? he
      refine h.capped (Engine.leave_capped fun heq => ?_)
      refine hbelow (l := (argument args 0, e.score)) hmem heq ?_
      obtain rfl : j = i := hid.symm.trans heq
      simp only [ht, Task.hands, if_true, he, Option.map_some]
    | @queues _ _ _ _ _ _ _ _ _ _ _ _ _ e x _ _ _ hstays h =>
      refine h.capped (.save_bind (e := { e with frontier := e.frontier.push x }) ?_)
      exact .of_aside (.pure hstays)
    | advances _ _ h => exact h.capped Engine.advance_capped
  · cases t with
    | enter => rfl
    | _ => exact absurd rfl hentered

end Steps

/-! ## Runs with the limit -/

/-- What holds while the enumeration `i` goes on: nothing that is installed or about to be installed
has its identity but itself, with the results it has counted. -/
abbrev Counting (i : Nat) (k : Value) (store : Store) (results : List (Value × Float)) :
    Task → Machine → Prop :=
  Watched i (Engine.Counted k store none results)

section Runs

variable {i n : Nat} {k : Value} {store : Store} {r : List (Value × Float)} {t t' : Task}
  {m m' : Machine}

theorem Leads.counting {results : List (Value × Float)} {u : Task} {m₁ : Machine}
    (hleads : Leads i t m results u m₁) (h : Counting i k store r t m) :
    Counting i k store (r ++ results) u m₁ := by
  induction hleads generalizing r with
  | refl => rwa [List.append_nil]
  | step hs ht' _ ih =>
    rw [← List.append_assoc]
    exact ih (h.next hs ht' fun he hturns => hturns.counted he)

/-- A run is the same with the limit, if it stays below the limit. -/
theorem Leads.capped {results : List (Value × Float)} {u : Task} {m₁ : Machine}
    (hleads : Leads i t m results u m₁) (h : Counting i k store r t m)
    (hn : (r ++ results).length < n) :
    Leads i (t.capped i n) (m.capped i n) results (u.capped i n) (m₁.capped i n) := by
  induction hleads generalizing r with
  | refl => exact .refl
  | @step t t' u m m' m₁ s results hs ht' _ ih =>
    rw [← List.append_assoc] at hn
    have hstep : (r ++ (t.hands i m).toList).length < n := by
      rw [List.length_append] at hn
      omega
    have hcapped := Task.perform_capped h.id h.has hstep
    rw [Capped, hs] at hcapped
    rw [← hands_capped (n := n)]
    refine .step hcapped ?_ (ih (h.next hs ht' fun he hturns => hturns.counted he) hn)
    rw [Step.task?_capped, ht', Option.map_some]

end Runs

/-! ## The end of an enumeration -/

/-- The result of the path of the enumeration `i` that the task ends. A factor without an address
ends nothing. -/
def Task.exit? (i : Nat) (t : Task) (m : Machine) : Option (Value × Float) :=
  match t with
  | .call (.builtin .factor) args => (callerOf args).toOption.bind fun _ => t.hands i m
  | _ => t.hands i m

/-- The task ends the enumeration `i` without a limit: it ends a path, or all values of a sample
have their extra scores, and there is nothing else to take up. -/
def Task.Closes (i : Nat) (t : Task) (m : Machine) : Prop :=
  ∃ e, m.engine? i = some e ∧ e.done = false ∧ e.frontier.isEmpty = true ∧
    ((t.exit? i m).isSome = true ∨ ∃ k a d f store base index acc,
      t = .iterate (.weigh i k a d f store base) index [] acc)

/-- The enumeration `i`, which was called in the state `m`, is over: the run goes on at `k` with the
distribution of the results, from the store at the call, or fails because no result has any
probability. -/
def Closed (i : Nat) (m : Machine) (k : Value) (results : List (Value × Float)) :
    EStateM.Result Error Machine Step → Prop
  | .ok s m' => ∃ j d, (Tally.empty.addAll results).marginal = .ok d ∧
      s = .resume k (.dist j d) ∧ m'.store = m.store ∧ m'.Has i fun e => e.done = true
  | .error er _ => er = .zeroProbability ∧ ∀ r ∈ results, Improbable r.2

section Closing

variable {i n : Nat} {k : Value} {r : List (Value × Float)} {last : Value × Float} {t : Task}
  {m m₀ : Machine} {e : Engine}

theorem Task.hands_of_exit? (h : t.exit? i m = some last) : t.hands i m = some last := by
  unfold Task.exit? at h
  split at h
  · exact (Option.bind_eq_some_iff.1 h).choose_spec.2
  · exact h

theorem Task.stays_of_exit? (h : t.exit? i m = some last) : t.entered? = none := by
  cases t with
  | enter => cases h
  | call | turn | iterate => rfl

theorem exit?_capped (t : Task) (m : Machine) :
    (t.capped i n).exit? i (m.capped i n) = t.exit? i m := by
  have hands := hands_capped (i := i) (n := n) t m
  cases t with
  | enter | turn | iterate => rfl
  | call f args =>
    unfold Task.exit?
    simp only [Task.capped] at hands ⊢
    rw [hands]

theorem Task.exit?_capped_of_exit? (h : t.exit? i m = some last) :
    t.exit? i (m.capped i n) = some last := by
  have hcapped := exit?_capped (i := i) (n := n) t m
  rwa [Task.capped_of_stays (stays_of_exit? h), h] at hcapped

theorem head?_eq_of_handedAtFactor {x : Except Error Float}
    (h : handedAtFactor i m x = some last) (he : m.engine? i = some e) :
    m.stack.head? = some (.engine e) ∧ ∃ y, x = .ok y ∧
      (e.score + y == Number.negInfinity) = true ∧ last = (.undefined, e.score + y) := by
  unfold handedAtFactor at h
  split at h
  · rename_i f y hhead
    simp only [Option.ite_none_right_eq_some, Option.some.injEq] at h
    obtain ⟨⟨hid, hzero⟩, rfl⟩ := h
    obtain ⟨outer, hstack⟩ : ∃ outer, m.stack = .engine f :: outer := List.head?_eq_some_iff.1 hhead
    obtain rfl : f = e := by
      simpa [Machine.engine?, hstack, hid] using he
    exact ⟨hhead, y, rfl, hzero, rfl⟩
  · cases h

theorem factorAt_leaves {c : Value} {a : String} {x : Float}
    (hhead : m.stack.head? = some (.engine e))
    (hzero : (e.score + x == Number.negInfinity) = true) :
    factorAt c a x m = (e.weighing x).leave .undefined (m.putEngine (e.weighing x)) := by
  rw [factorAt_eq_factor hhead]
  change (if e.score + x == Number.negInfinity then (e.weighing x).leave .undefined
    else pure (.resume c .undefined) : Exec Step) (m.putEngine (e.weighing x)) = _
  rw [if_pos hzero]

theorem Task.perform_of_exit? (h : t.exit? i m = some last) (he : m.engine? i = some e)
    (hdone : e.done = false) :
    ∃ m', t.perform m = Engine.leave { e with score := last.2 } last.1 m' := by
  have hands := hands_of_exit? h
  unfold Task.hands at hands
  -- The path ends by a return, by a factor or by the factor of an extra score.
  split at hands
  · rename_i j i' args
    simp only [Option.ite_none_right_eq_some] at hands
    obtain ⟨rfl, hlast⟩ := hands
    rw [he, Option.map_some, Option.some.injEq] at hlast
    subst hlast
    refine ⟨m, ?_⟩
    change (Engine.live i' >>= fun e => e.leave (argument args 0)) m = _
    rw [Engine.live_bind, he]
    exact if_neg (hdone ▸ Bool.false_ne_true)
  · rename_i args
    obtain ⟨hhead, y, hy, hzero, rfl⟩ := head?_eq_of_handedAtFactor hands he
    obtain ⟨⟨c, a⟩, hcaller, -⟩ := Option.bind_eq_some_iff.1 h
    refine ⟨m.putEngine (e.weighing y), ?_⟩
    have hperform : (Task.call (.builtin .factor) args).perform m = factorAt c a y m := by
      have hcaller := Replay.ok_of_toOption hcaller
      simp only [Task.perform, applyValue, Builtin.run, hcaller, hy]
      rfl
    rw [hperform]
    exact factorAt_leaves hhead hzero
  · rename_i j c a value args
    obtain ⟨hhead, y, hy, hzero, rfl⟩ := head?_eq_of_handedAtFactor hands he
    have hperform : (Task.call (.cont j (.scored c a value)) args).perform m =
        factorAt (.cont m.nextId (.weighted c value)) a y { m with nextId := m.nextId + 1 } := by
      simp only [Task.perform, applyValue, Cont.receive, hy]
      rfl
    refine ⟨_, hperform.trans (factorAt_leaves hhead hzero)⟩
  · cases hands

theorem Engine.finish_closed (hid : e.id = i) (htally : e.tally = Tally.empty.addAll r)
    (hk : e.k = k) (hstore : e.store = m₀.store) : Closed i m₀ k r (e.finish m) := by
  cases hmarginal : e.tally.marginal with
  | error er =>
    have hfinish : e.finish m = .error er m := by
      simp only [Engine.finish, hmarginal]
      rfl
    rw [hfinish]
    exact Tally.marginal_eq_error_iff.1 (htally ▸ hmarginal)
  | ok d =>
    let ended : Engine := { e with done := true, frontier := e.frontier.clear }
    have hfinish : e.finish m = .ok (.resume e.k (.dist m.nextId d))
        { m with
          nextId := m.nextId + 1
          store := e.store
          stack := (m.putEngine ended).stack.tail } := by
      simp only [Engine.finish, hmarginal]
      rfl
    rw [hfinish]
    refine ⟨m.nextId, d, htally ▸ hmarginal, by rw [hk], hstore, fun f hf hf' => ?_⟩
    have hover : (m.putEngine ended).Has i fun f => f.done = true :=
      .put (fun hne => absurd hid hne) fun _ => rfl
    exact hover f (List.mem_of_mem_tail hf) hf'

theorem Engine.leave_closed {v : Value} {l : Option Nat} (h : e.Counted k m₀.store l r)
    (hid : e.id = i) (hlast : ((e.counting v).withinLimit && !e.frontier.isEmpty) = false) :
    Closed i m₀ k (r ++ [(v, e.score)]) (e.leave v m) := by
  have hleave : e.leave v m = (e.counting v).finish (m.putEngine (e.counting v)) := by
    change (if (e.counting v).withinLimit && !e.frontier.isEmpty then (e.counting v).advance
      else (e.counting v).finish) (m.putEngine (e.counting v)) = _
    rw [if_neg (Bool.eq_false_iff.1 hlast)]
  rw [hleave]
  have hcounted := h.counting v
  exact Engine.finish_closed hid hcounted.tally hcounted.k hcounted.store

theorem Task.exit_closed (h : Counting i k m₀.store r t m) (hexit : t.exit? i m = some last)
    (he : m.engine? i = some e) (hdone : e.done = false) (hn : r.length + 1 = n) :
    Closed i m₀ k (r ++ [last]) (t.perform (m.capped i n)) := by
  obtain ⟨hmem, hid⟩ := mem_of_engine? he
  have hcounted := h.has e hmem hid
  have he' : (m.capped i n).engine? i = some (e.capped i n) := by
    rw [engine?_capped, he, Option.map_some]
  obtain ⟨m', hperform⟩ := perform_of_exit? (exit?_capped_of_exit? hexit) he' hdone
  rw [hperform]
  refine Engine.leave_closed (e := { e.capped i n with score := last.2 }) (l := some n)
    { hcounted with limit := if_pos hid } hid ?_
  have hfull : ¬ e.completed + 1 < n := by
    rw [hcounted.completed]
    omega
  simp only [Engine.withinLimit, Engine.counting, Engine.capped, hid, if_true, hfull, decide_false,
    Bool.false_and]

theorem Frontier.pop?_of_isEmpty {x : Frontier} (h : x.isEmpty = true) : x.pop? = none := by
  cases hpop : x.pop? with
  | none => rfl
  | some next =>
    rw [Frontier.isEmpty_eq, toList_of_pop? hpop] at h
    cases h

theorem Task.Closes.closed (hclose : t.Closes i m) (h : Counting i k m₀.store r t m) :
    Closed i m₀ k (r ++ (t.exit? i m).toList) (t.perform m) := by
  obtain ⟨e, he, hdone, hempty, hends⟩ := hclose
  obtain ⟨hmem, hid⟩ := mem_of_engine? he
  have hcounted := h.has e hmem hid
  rcases hends with hexit | ⟨k', a, d, f, store, base, index, acc, rfl⟩
  · obtain ⟨last, hlast⟩ := Option.isSome_iff_exists.1 hexit
    obtain ⟨m', hperform⟩ := perform_of_exit? hlast he hdone
    rw [hperform, hlast]
    refine Engine.leave_closed (e := { e with score := last.2 }) { hcounted with } hid ?_
    simp only [hempty, Bool.not_true, Bool.and_false]
  · have hperform : (Task.iterate (.weigh i k' a d f store base) index [] acc).perform m =
        e.finish m := by
      change (Engine.live i >>= fun e => e.advance) m = _
      rw [Engine.live_bind, he]
      refine (if_neg (hdone ▸ Bool.false_ne_true)).trans ?_
      simp only [Engine.advance, Frontier.pop?_of_isEmpty hempty]
    rw [hperform]
    refine Engine.finish_closed hid ?_ hcounted.k hcounted.store
    exact hcounted.tally.trans (congrArg _ (List.append_nil r).symm)

theorem Task.Closes.exit?_eq (hclose : t.Closes i m) : t.exit? i m = t.hands i m := by
  obtain ⟨e, -, -, -, hexit | ⟨k', a, d, f, store, base, index, acc, rfl⟩⟩ := hclose
  · obtain ⟨last, hlast⟩ := Option.isSome_iff_exists.1 hexit
    rw [hlast, hands_of_exit? hlast]
  · rfl

theorem Task.Closes.stays (hclose : t.Closes i m) : t.entered? = none := by
  obtain ⟨e, -, -, -, hexit | ⟨k', a, d, f, store, base, index, acc, rfl⟩⟩ := hclose
  · obtain ⟨last, hlast⟩ := Option.isSome_iff_exists.1 hexit
    exact stays_of_exit? hlast
  · rfl

theorem Closed.capped {x : EStateM.Result Error Machine Step} (h : Closed i m₀ k r x) :
    Closed i m₀ k r (cappedResult i n x) := by
  cases x with
  | error er m' => exact h
  | ok s m' =>
    obtain ⟨j, d, hmarginal, rfl, hstore, hover⟩ := h
    refine ⟨j, d, hmarginal, rfl, hstore, fun f hf hid => ?_⟩
    obtain ⟨c, hc, hfc⟩ := List.mem_map.1 hf
    cases c with
    | script => cases hfc
    | engine g =>
      cases hfc
      exact hover g hc hid

end Closing

/-! ## Enumerations with and without a limit -/

theorem capped_of_lt {n : Nat} (h : ∀ e, .engine e ∈ m.stack → e.id < i) : m.capped i n = m := by
  have hstack : m.stack.map (Coroutine.mapEngine (Engine.capped i n)) = m.stack := by
    refine (List.map_congr_left (g := id) fun c hc => ?_).trans (List.map_id _)
    cases c with
    | script => rfl
    | engine e => simp only [Coroutine.mapEngine, Engine.capped, if_neg (Nat.ne_of_lt (h e hc)), id]
  rw [Machine.capped, Machine.mapEngines, hstack]
  rfl

/-- A limit keeps the first paths of an enumeration. If so many paths as the limit end without it,
then with the limit the same paths end in the same order, with the same results, and the enumeration
is over at once, with the distribution of these. If fewer paths end, then the enumeration is over
with the same distribution with and without the limit. -/
theorem limit_keeps_prefix {m : Machine} (hm : ∀ e, .engine e ∈ m.stack → e.id < m.nextId)
    (k thunk : Value) (a : String) (strategy : Strategy) (n : Nat) :
    ∃ t₀ u₀ m₀, startEnumeration k a thunk ⟨none, strategy⟩ m = .ok (.bounce t₀) m₀ ∧
      startEnumeration k a thunk ⟨some n, strategy⟩ m = .ok (.bounce u₀) m₀ ∧
      (∀ {exits last t m₁ e}, Leads m.nextId t₀ m₀ exits t m₁ →
        t.exit? m.nextId m₁ = some last → m₁.engine? m.nextId = some e → e.done = false →
        exits.length + 1 = n →
        ∃ n₁, Leads m.nextId u₀ m₀ exits t n₁ ∧ t.exit? m.nextId n₁ = some last ∧
          Closed m.nextId m k (exits ++ [last]) (t.perform n₁)) ∧
      (∀ {exits t m₁}, Leads m.nextId t₀ m₀ exits t m₁ → t.Closes m.nextId m₁ →
        (exits ++ (t.exit? m.nextId m₁).toList).length < n →
        Closed m.nextId m k (exits ++ (t.exit? m.nextId m₁).toList) (t.perform m₁) ∧
        ∃ n₁, Leads m.nextId u₀ m₀ exits t n₁ ∧
          Closed m.nextId m k (exits ++ (t.exit? m.nextId m₁).toList) (t.perform n₁)) := by
  let t₀ : Task := .enter (.begin m k a ⟨none, strategy⟩) thunk (exitOf m)
  let m₀ : Machine := { m with nextId := m.nextId + 2 }
  have hcounting : Counting m.nextId k m.store [] t₀ m₀ := by
    refine ⟨Nat.lt_add_of_pos_right Nat.two_pos, fun e he hid => ?_, ?_⟩
    · exact absurd hid (Nat.ne_of_lt (hm e he))
    · rintro e ⟨⟩ -
      exact ⟨rfl, rfl, rfl, rfl, rfl⟩
  have ht₀ : t₀.capped m.nextId n = .enter (.begin m k a ⟨some n, strategy⟩) thunk (exitOf m) := by
    refine congrArg (Task.enter · thunk (exitOf m)) ?_
    simp only [Engine.capped, Engine.begin, if_true]
  -- The limit is all that differs, and it is carried by the enumeration that is entered.
  have hm₀ : m₀.capped m.nextId n = m₀ := capped_of_lt hm
  refine ⟨t₀, t₀.capped m.nextId n, m₀, startEnumeration_eq _ _ _ _ _, ?_, ?_, ?_⟩
  · rw [ht₀]
    exact startEnumeration_eq _ _ _ _ _
  · intro exits last t m₁ e hleads hexit he hdone hn
    have hcapped := hleads.capped (n := n) hcounting (by rw [List.nil_append]; omega)
    rw [hm₀, Task.capped_of_stays (Task.stays_of_exit? hexit)] at hcapped
    exact ⟨_, hcapped, Task.exit?_capped_of_exit? hexit,
      Task.exit_closed (hleads.counting hcounting) hexit he hdone hn⟩
  · intro exits t m₁ hleads hclose hn
    -- Fewer paths than the limit have ended, so the last step is below it as well.
    have hclosed := hclose.closed (hleads.counting hcounting)
    have hbefore : ([] ++ exits).length < n := by
      rw [List.length_append] at hn
      exact Nat.lt_of_le_of_lt (Nat.le_add_right _ _) hn
    have hcapped := hleads.capped (n := n) hcounting hbefore
    rw [hm₀, Task.capped_of_stays hclose.stays] at hcapped
    refine ⟨hclosed, _, hcapped, ?_⟩
    have hlast := hleads.counting hcounting
    rw [hclose.exit?_eq] at hn
    have hperform := Task.perform_capped hlast.id hlast.has hn
    rw [Capped, Task.capped_of_stays hclose.stays] at hperform
    rw [hperform]
    exact hclosed.capped

/-! ## An enumeration with three paths -/

/-- Performs tasks up to the end of a path of the enumeration `i` after so many others, and gathers
the results handed over before it. -/
def Task.toExit (i : Nat) : Nat → Nat → Task → Machine →
    Option (List (Value × Float) × Task × Machine)
  | 0, _, _, _ => none
  | fuel + 1, count, t, m =>
    if count = 0 ∧ (t.exit? i m).isSome = true then some ([], t, m)
    else
      match t.perform m with
      | .ok s m' => s.task?.bind fun u =>
        (u.toExit i fuel (count - (t.hands i m).toList.length) m').map fun x =>
          ((t.hands i m).toList ++ x.1, x.2)
      | .error .. => none

theorem Task.leads_of_toExit {fuel : Nat} {t t₁ : Task} {m₁ : Machine}
    {results : List (Value × Float)} (h : t.toExit i fuel count m = some (results, t₁, m₁)) :
    Leads i t m results t₁ m₁ ∧ (t₁.exit? i m₁).isSome = true := by
  induction fuel generalizing t m results count with
  | zero => cases h
  | succ fuel ih =>
    unfold Task.toExit at h
    split at h
    · rename_i hexit
      cases h
      exact ⟨.refl, hexit.2⟩
    · split at h
      · rename_i s m' hs
        obtain ⟨u, hu, hrest⟩ := Option.bind_eq_some_iff.1 h
        obtain ⟨⟨results', t', m'⟩, htail, hx⟩ := Option.map_eq_some_iff.1 hrest
        cases hx
        obtain ⟨hleads, hexit⟩ := ih htail
        exact ⟨.step hs hu hleads, hexit⟩
      · cases h

/-- Under `depthFirst` and without a limit, the called enumeration goes on after so many paths to
the end of another, which is the last or not. -/
def Call.passes (c : Call) (count : Nat) (isLast : Bool) : Bool :=
  match startEnumeration c.k c.address c.thunk ⟨none, .depthFirst⟩ c.machine with
  | .ok (.bounce t) m =>
    match t.toExit c.machine.nextId 200 count m with
    | some (results, _, m₁) => results.length == count &&
      (m₁.engine? c.machine.nextId).any fun e => !e.done && e.frontier.isEmpty == isLast
    | none => false
  | _ => false

theorem Call.exists_of_passes {c : Call} {isLast : Bool} (h : c.passes count isLast = true)
    {t₀ : Task} {m₀ : Machine}
    (hstart : startEnumeration c.k c.address c.thunk ⟨none, .depthFirst⟩ c.machine =
      .ok (.bounce t₀) m₀) : ∃ exits last t m₁ e, Leads c.machine.nextId t₀ m₀ exits t m₁ ∧
      t.exit? c.machine.nextId m₁ = some last ∧ m₁.engine? c.machine.nextId = some e ∧
      e.done = false ∧ exits.length = count ∧ e.frontier.isEmpty = isLast := by
  simp only [Call.passes, hstart] at h
  split at h
  · rename_i results t m₁ htrace
    simp only [Bool.and_eq_true, beq_iff_eq, Option.any_eq_true, Bool.not_eq_true'] at h
    obtain ⟨hcount, e, he, hdone, hempty⟩ := h
    obtain ⟨hleads, hexit⟩ := Task.leads_of_toExit htrace
    obtain ⟨last, hlast⟩ := Option.isSome_iff_exists.1 hexit
    exact ⟨results, last, t, m₁, e, hleads, hlast, he, hdone, hcount, hempty⟩
  · cases h

/-- A limit of two cuts the three paths of the source short, and a limit of four does not. -/
theorem branchingSource_keeps_prefix :
    ∃ c t₀ m₀, firstCall? branchingSource = some c ∧
      startEnumeration c.k c.address c.thunk ⟨none, .depthFirst⟩ c.machine = .ok (.bounce t₀) m₀ ∧
      (∃ exits last t m₁ u₀ n₁, Leads c.machine.nextId t₀ m₀ exits t m₁ ∧ exits.length = 1 ∧
        t.exit? c.machine.nextId m₁ = some last ∧ ¬ t.Closes c.machine.nextId m₁ ∧
        startEnumeration c.k c.address c.thunk ⟨some 2, .depthFirst⟩ c.machine =
          .ok (.bounce u₀) m₀ ∧
        Leads c.machine.nextId u₀ m₀ exits t n₁ ∧
        Closed c.machine.nextId c.machine c.k (exits ++ [last]) (t.perform n₁)) ∧
      ∃ exits t m₁ u₀ n₁, Leads c.machine.nextId t₀ m₀ exits t m₁ ∧ exits.length = 2 ∧
        t.Closes c.machine.nextId m₁ ∧
        startEnumeration c.k c.address c.thunk ⟨some 4, .depthFirst⟩ c.machine =
          .ok (.bounce u₀) m₀ ∧
        Leads c.machine.nextId u₀ m₀ exits t n₁ ∧
        Closed c.machine.nextId c.machine c.k (exits ++ (t.exit? c.machine.nextId m₁).toList)
          (t.perform n₁) := by
  have hcall : (firstCall? branchingSource).any (fun c => c.passes 1 false && c.passes 2 true) =
      true := by decide +kernel
  obtain ⟨c, hc, hpasses⟩ := (Option.any_eq_true _ _).1 hcall
  obtain ⟨hone, htwo⟩ := Bool.and_eq_true_iff.1 hpasses
  have hids := (isReached_of_firstCall? hc).id_lt
  obtain ⟨t₀, u₀, m₀, hstart, hlimited, hprefix, -⟩ :=
    limit_keeps_prefix hids c.k c.thunk c.address .depthFirst 2
  obtain ⟨t₀', u₁, m₀', hstart', hloose, -, hwhole⟩ :=
    limit_keeps_prefix hids c.k c.thunk c.address .depthFirst 4
  cases hstart.symm.trans hstart'
  refine ⟨c, t₀, m₀, hc, hstart, ?_, ?_⟩
  · obtain ⟨exits, last, t, m₁, e, hleads, hlast, he, hdone, hcount, hmore⟩ :=
      Call.exists_of_passes hone hstart
    obtain ⟨n₁, hleads', -, hclosed⟩ := hprefix hleads hlast he hdone (by rw [hcount])
    refine ⟨exits, last, t, m₁, u₀, n₁, hleads, hcount, hlast, ?_, hlimited, hleads', hclosed⟩
    rintro ⟨f, hf, -, hempty, -⟩
    cases he.symm.trans hf
    cases hmore.symm.trans hempty
  · obtain ⟨exits, last, t, m₁, e, hleads, hlast, he, hdone, hcount, hempty⟩ :=
      Call.exists_of_passes htwo hstart
    have hcloses : t.Closes c.machine.nextId m₁ := ⟨e, he, hdone, hempty, .inl (by rw [hlast]; rfl)⟩
    have hfew : (exits ++ (t.exit? c.machine.nextId m₁).toList).length < 4 := by
      rw [List.length_append, hcount, hlast]
      exact Nat.lt_succ_self 3
    obtain ⟨-, n₁, hleads', hclosed⟩ := hwhole hleads hcloses hfew
    exact ⟨exits, t, m₁, u₁, n₁, hleads, hcount, hcloses, hloose, hleads', hclosed⟩

end Chance
