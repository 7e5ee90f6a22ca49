import Chance.Proofs.Machine.Every
import Chance.Proofs.Machine.Outcomes

/-!
# Functions that keep their results

A function made by `cache` keeps each result under the text of the arguments, in a table that all
paths of all enumerations share and that backtracking does not restore. What it passes on is what
the function itself has handed back, for these arguments or for others with the same text: so it is
as good as the function wherever results depend on the text of the arguments alone.

- `Ran`: the runs of a runtime, with all tasks on the way,
- `Answered`: what a function itself has handed back,
- `Recalls`: the invariant that ties tables to what was handed back,
- `cached_calls_agree`: a call of a function that keeps its results.
-/

namespace Chance

open Exec

/-! ## Runs with their past -/

variable {past past' : Chronicle} {f v : Value} {args xs : List Value} {m : Machine}
  {fuel table : Nat} {P : Policy} {stop : Task → Machine → Bool} {t : Task} {source : String}

/-- The tasks that were begun, the latest first, each with the state it was begun in. -/
abbrev Chronicle := List (Task × Machine)

/-- The tasks up to the one that a step leads to. -/
def Step.onto (s : Step) (m : Machine) (past : Chronicle) : Chronicle :=
  (s.task?.map fun t => (t, m)).toList ++ past

theorem Step.subset_onto (s : Step) (m : Machine) (past : Chronicle) : past ⊆ s.onto m past :=
  List.subset_append_right _ _

/-- A runtime gets, through any programs one after the other, to the state with the task at hand.
The past ends with this task. -/
inductive Ran : Chronicle → Machine → Option Task → Prop
  | fresh (supply : Supply) : Ran [] (.initial supply) none
  | scripted {past : Chronicle} {m : Machine} (choices : List Nat) :
      Ran past m none → Ran past (m.installScript choices) none
  | started {past : Chronicle} {p : Program} {m m' : Machine} {s : Step} :
      Ran past m none → (Exec.newCont .exit >>= p.start) m = .ok s m' →
      Ran (s.onto m' past) m' s.task?
  | next {past : Chronicle} {t : Task} {m m' : Machine} {s : Step} :
      Ran past m (some t) → t.perform m = .ok s m' → Ran (s.onto m' past) m' s.task?
  | failed {past : Chronicle} {t : Task} {m m' : Machine} {er : Error} (depth : Nat) :
      Ran past m (some t) → t.perform m = .error er m' → Ran past (m'.truncate depth) none

/-- The function itself has handed back the value for the arguments: it was called with them and
with a continuation that was made for the call, and this continuation was called with the value. -/
def Answered (past : Chronicle) (f : Value) (xs : List Value) (v : Value) : Prop :=
  ∃ j c address n vs n', (.call f (.cont j c :: address :: xs), n) ∈ past ∧ n.nextId = j + 1 ∧
    (.call (.cont j c) vs, n') ∈ past ∧ argument vs 0 = v

theorem Answered.mono (h : Answered past f xs v) (hpast : past ⊆ past') :
    Answered past' f xs v := by
  obtain ⟨j, c, address, n, vs, n', hcall, hfresh, hback, hv⟩ := h
  exact ⟨j, c, address, n, vs, n', hpast hcall, hfresh, hpast hback, hv⟩

/-! ## Tables hold what was handed back -/

/-- The function with the table was called for this continuation, for arguments with this text. -/
def Consulted (owner : Nat → Value) (past : Chronicle) (j table : Nat) (key : String) (k : Value) :
    Prop :=
  ∃ address xs n,
    (.call (owner table) (.cont j (.remember table key k) :: address :: xs), n) ∈ past ∧
    n.nextId = j + 1 ∧ (Value.array xs).text = key

/-- Each table belongs to a function. Continuations that keep a result were made for a call of the
function, and the results that are kept were handed back by it. -/
def Accounted (owner : Nat → Value) (past : Chronicle) (next : Nat) : Policy where
  made
    | .cached table f => owner table = f ∧ table < next
    | .cont j (.remember table key k) => table < next ∧ Consulted owner past j table key k
    | _ => True
  kept table key v := table < next ∧ ∃ xs, (Value.array xs).text = key ∧
    Answered past (owner table) xs v

section Accounted

variable {owner owner' : Nat → Value} {past past' : Chronicle} {next next' : Nat}

theorem Accounted.made_mono (howner : ∀ i < next, owner' i = owner i) (hpast : past ⊆ past')
    (hnext : next ≤ next') (v : Value) (h : (Accounted owner past next).made v) :
    (Accounted owner' past' next').made v := by
  cases v with
  | cached table f => exact ⟨(howner table h.2).trans h.1, h.2.trans_le hnext⟩
  | cont j c =>
    cases c with
    | remember table key k =>
      obtain ⟨hlt, address, xs, n, hcall, hfresh, hkey⟩ := h
      refine ⟨hlt.trans_le hnext, address, xs, n, ?_, hfresh, hkey⟩
      rw [howner table hlt]
      exact hpast hcall
    | _ => trivial
  | _ => trivial

theorem Accounted.kept_mono (howner : ∀ i < next, owner' i = owner i) (hpast : past ⊆ past')
    (hnext : next ≤ next') (table : Nat) (key : String) (v : Value)
    (h : (Accounted owner past next).kept table key v) :
    (Accounted owner' past' next').kept table key v := by
  obtain ⟨hlt, xs, hkey, hanswered⟩ := h
  refine ⟨hlt.trans_le hnext, xs, hkey, ?_⟩
  rw [howner table hlt]
  exact hanswered.mono hpast

theorem Accounted.admitsConts (first : Nat) : AdmitsConts (Accounted owner past next) first := by
  intro i c _ hc
  cases c with
  | remember => cases hc
  | _ => trivial

end Accounted

/-- All that a run has met is accounted for. -/
structure Recalls (owner : Nat → Value) (past : Chronicle) (m : Machine) (x : Option Task) :
    Prop where
  state : m.Every (Accounted owner past m.nextId)
  task : ∀ t ∈ x, t.Every (Accounted owner past m.nextId)
  begun : ∀ t ∈ x, (t, m) ∈ past

theorem perform_cached_some (h : m.cached? table (Value.array (args.drop 2)).text = some v) :
    (Task.call (.cached table f) args).perform m = .ok (.resume (argument args 0) v) m := by
  rw [Task.perform, applyValue, callCached, Exec.get_bind, h]
  rfl

theorem perform_cached_none (h : m.cached? table (Value.array (args.drop 2)).text = none) :
    (Task.call (.cached table f) args).perform m =
      .ok (.through (.call f (.cont m.nextId
        (.remember table (Value.array (args.drop 2)).text (argument args 0)) ::
          argument args 1 :: args.drop 2))) { m with nextId := m.nextId + 1 } := by
  rw [Task.perform, applyValue, callCached, Exec.get_bind, h]
  rfl

theorem perform_cache (h : (argument args 2).isCallable = true) :
    (Task.call (.builtin .cache) args).perform m =
      .ok (.resume (argument args 0) (.cached m.nextId (argument args 2)))
        { m with nextId := m.nextId + 1 } := by
  change (makeCached args) m = _
  unfold makeCached
  rw [if_pos h]
  rfl

theorem Machine.Every.truncate (h : m.Every P) (depth : Nat) : (m.truncate depth).Every P where
  store := h.store
  stack e he := h.stack e (List.mem_of_mem_drop he)
  tables := h.tables

theorem Machine.Every.installScript (h : m.Every P) (choices : List Nat) :
    (m.installScript choices).Every P where
  store := h.store
  stack e he := by
    rcases List.mem_cons.1 he with he | he
    · cases he
    · exact h.stack e he
  tables := h.tables

namespace Recalls

variable {owner owner' : Nat → Value} {past past' : Chronicle} {m m' : Machine} {t : Task}
  {s : Step} {next : Nat}

theorem of_every {x : Option Task} (hm : m.Every (Accounted owner past next))
    (hx : ∀ t ∈ x, t.Every (Accounted owner past next)) (hnext : next ≤ m.nextId)
    (hbegun : ∀ t ∈ x, (t, m) ∈ past) : Recalls owner past m x := by
  have hsame : ∀ i < next, owner i = owner i := fun _ _ => rfl
  have hmade := Accounted.made_mono hsame (List.Subset.refl past) hnext
  have hkept := Accounted.kept_mono hsame (List.Subset.refl past) hnext
  exact ⟨hm.mono hmade hkept, fun t ht => (hx t ht).mono hmade, hbegun⟩

theorem of_throughout {x : Exec Step} (h : Throughout (Accounted owner (s.onto m' past) next)
      (Step.Every (Accounted owner (s.onto m' past) next)) x m) (hs : x m = .ok s m')
    (hnext : next ≤ m'.nextId) : Recalls owner (s.onto m' past) m' s.task? := by
  obtain ⟨hstep, hm', -⟩ := h.ok hs
  refine of_every hm' hstep.task? hnext fun t ht => ?_
  rw [Option.mem_def] at ht
  rw [Step.onto, ht]
  exact List.mem_cons_self

theorem later (h : Recalls owner past m (some t)) (howner : ∀ i < m.nextId, owner' i = owner i)
    (hpast : past ⊆ past') (hnext : m.nextId ≤ next) :
    t.Every (Accounted owner' past' next) ∧ m.Every (Accounted owner' past' next) := by
  have hmade := Accounted.made_mono howner hpast hnext
  exact ⟨(h.task t rfl).mono hmade, h.state.mono hmade (Accounted.kept_mono howner hpast hnext)⟩

/-- A new function that keeps its results gets a table of its own. -/
theorem cache {args : List Value} (h : Recalls owner past m (some (.call (.builtin .cache) args)))
    (hcallable : (argument args 2).isCallable = true)
    (hs : (Task.call (.builtin .cache) args).perform m = .ok s m') :
    Recalls (Function.update owner m.nextId (argument args 2)) (s.onto m' past) m' s.task? := by
  have howner : ∀ i < m.nextId, Function.update owner m.nextId (argument args 2) i = owner i :=
    fun i hi => Function.update_of_ne hi.ne _ _
  obtain ⟨ht, hm⟩ := h.later howner (s.subset_onto m' past) m.nextId.le_succ
  refine of_throughout (Task.perform_every ht hm ⟨Accounted.admitsConts _, nofun, ?_, nofun⟩) hs ?_
  · intro args' heq _
    cases heq
    exact ⟨Function.update_self _ _ _, m.nextId.lt_succ_self⟩
  · rw [perform_cache hcallable] at hs
    cases hs
    exact le_rfl

/-- What any other task makes is accounted for if the function is consulted where no result was
kept. -/
theorem admits (h : Recalls owner past m (some t)) (hpast : past ⊆ past')
    (hcache : ∀ args, t = .call (.builtin .cache) args → (argument args 2).isCallable = false)
    (hmiss : ∀ table args, t = .call (.cached table (owner table)) args →
      m.cached? table (Value.array (args.drop 2)).text = none →
      Consulted owner past' m.nextId table (Value.array (args.drop 2)).text (argument args 0)) :
    Admits (Accounted owner past' m.nextId) t m := by
  have ht := h.task t rfl
  refine ⟨Accounted.admitsConts _, ?_, ?_, ?_⟩
  · rintro table f args rfl hnone
    obtain ⟨rfl, hlt⟩ : owner table = f ∧ table < m.nextId := by
      cases ht.1 with
      | cached hmade _ => exact hmade
    exact ⟨hlt, hmiss table args rfl hnone⟩
  · intro args heq hcallable
    rw [hcache args heq] at hcallable
    cases hcallable
  · rintro j table key k args rfl
    -- The continuation was made for a call of the owner, and is called at this moment.
    obtain ⟨hlt, address, xs, n, hcall, hfresh, hkey⟩ :
        table < m.nextId ∧ Consulted owner past j table key k := by
      cases ht.1 with
      | cont hmade _ => exact hmade
    exact ⟨hlt, xs, hkey, _, _, address, n, args, m, hpast hcall, hfresh,
      hpast (h.begun _ rfl), rfl⟩

theorem other (h : Recalls owner past m (some t))
    (hcache : ∀ args, t = .call (.builtin .cache) args → (argument args 2).isCallable = false)
    (hs : t.perform m = .ok s m') : Recalls owner (s.onto m' past) m' s.task? := by
  obtain ⟨ht, hm⟩ := h.later (fun _ _ => rfl) (s.subset_onto m' past) le_rfl
  have hstep := Task.perform_every ht hm (h.admits (s.subset_onto m' past) hcache ?_)
  · exact of_throughout hstep hs (hstep.ok hs).2.2
  · rintro table args rfl hnone
    rw [perform_cached_none hnone] at hs
    cases hs
    exact ⟨_, _, _, List.mem_cons_self, rfl, rfl⟩

theorem failed {er : Error} (h : Recalls owner past m (some t)) (hs : t.perform m = .error er m')
    (depth : Nat) : Recalls owner past (m'.truncate depth) none := by
  have hadmits :=
    h.admits (List.Subset.refl past) (fun args heq => ?_) fun table args heq hnone => ?_
  · obtain ⟨hm', hnext⟩ := (Task.perform_every (h.task t rfl) h.state hadmits).error hs
    exact of_every (hm'.truncate depth) nofun hnext nofun
  · refine Bool.eq_false_iff.2 fun hcallable => ?_
    rw [heq, perform_cache hcallable] at hs
    cases hs
  · rw [heq, perform_cached_none hnone] at hs
    cases hs

end Recalls

theorem Ran.recalls {x : Option Task} (h : Ran past m x) : ∃ owner, Recalls owner past m x := by
  induction h with
  | fresh supply => exact ⟨fun _ => .undefined, ⟨nofun, nofun, nofun⟩, nofun, nofun⟩
  | scripted choices _ ih =>
    obtain ⟨owner, h⟩ := ih
    exact ⟨owner, h.state.installScript choices, nofun, nofun⟩
  | @started past p m m' s _ hs ih =>
    obtain ⟨owner, h⟩ := ih
    have hsame : ∀ i < m.nextId, owner i = owner i := fun _ _ => rfl
    have hm := h.state.mono (Accounted.made_mono hsame (s.subset_onto m' past) le_rfl)
      (Accounted.kept_mono hsame (s.subset_onto m' past) le_rfl)
    have hstart := p.start_every (Accounted.admitsConts _) hm
    exact ⟨owner, Recalls.of_throughout hstart hs (hstart.ok hs).2.2⟩
  | @next past t m m' s _ hs ih =>
    obtain ⟨owner, h⟩ := ih
    by_cases hcache : ∃ args, t = .call (.builtin .cache) args ∧ (argument args 2).isCallable = true
    · obtain ⟨args, rfl, hcallable⟩ := hcache
      exact ⟨_, h.cache hcallable hs⟩
    · refine ⟨owner, h.other (fun args ht => ?_) hs⟩
      exact Bool.eq_false_iff.2 fun hcallable => hcache ⟨args, ht, hcallable⟩
  | @failed past t m m' er depth _ hs ih =>
    obtain ⟨owner, h⟩ := ih
    exact ⟨owner, h.failed hs depth⟩

/-- A call of a function that keeps its results is as good as a call of the function itself, on any
path of any enumeration. Let all that the function itself has handed back be a result of it, and let
its results depend only on the text of the arguments. Then a value that was kept is a result for the
arguments of the call, and is passed on at once. If none was kept, the function itself is called
with the same arguments, and whatever it hands back is passed on. -/
theorem cached_calls_agree {past : Chronicle} {m : Machine} {table : Nat} {f : Value}
    {args : List Value} {Result : List Value → Value → Prop}
    (h : Ran past m (some (.call (.cached table f) args)))
    (hf : ∀ xs v, Answered past f xs v → Result xs v)
    (htext : ∀ xs ys v, (Value.array xs).text = (Value.array ys).text → Result xs v → Result ys v) :
    (∀ v, m.cached? table (Value.array (args.drop 2)).text = some v →
      Result (args.drop 2) v ∧
      (Task.call (.cached table f) args).perform m = .ok (.resume (argument args 0) v) m) ∧
    (m.cached? table (Value.array (args.drop 2)).text = none →
      ∃ c, (Task.call (.cached table f) args).perform m =
          .ok (.through (.call f (.cont m.nextId c :: argument args 1 :: args.drop 2)))
            { m with nextId := m.nextId + 1 } ∧
        ∀ vs n, ∃ tables, (Task.call (.cont m.nextId c) vs).perform n =
          .ok (.resume (argument args 0) (argument vs 0)) { n with tables := tables }) := by
  obtain ⟨owner, hrecalls⟩ := h.recalls
  have howner : owner table = f := by
    cases (hrecalls.task _ rfl).1 with
    | cached hmade _ => exact hmade.1
  refine ⟨fun v hv => ⟨?_, perform_cached_some hv⟩, fun hnone => ?_⟩
  · obtain ⟨-, -, xs, hkey, hanswered⟩ :=
      cached?_inherits (Q := Policy.Kept _) hrecalls.state.tables hv
    rw [howner] at hanswered
    exact htext xs (args.drop 2) v hkey (hf xs v hanswered)
  · exact ⟨_, perform_cached_none hnone, fun vs n => ⟨_, rfl⟩⟩

/-! ## A result that another path has left -/

/-- Performs tasks up to one at which to stop. -/
def Task.upTo (stop : Task → Machine → Bool) :
    Nat → Chronicle → Task → Machine → Option (Chronicle × Task × Machine)
  | 0, _, _, _ => none
  | fuel + 1, past, t, m =>
    if stop t m then some (past, t, m)
    else match t.perform m with
      | .ok s m' => s.task?.bind fun t' => t'.upTo stop fuel (s.onto m' past) m'
      | .error .. => none

theorem ran_of_upTo {t' : Task} {m' : Machine} (h : Ran past m (some t))
    (hup : t.upTo stop fuel past m = some (past', t', m')) :
    Ran past' m' (some t') ∧ stop t' m' = true := by
  induction fuel generalizing past t m with
  | zero => cases hup
  | succ fuel ih =>
    rw [Task.upTo] at hup
    split_ifs at hup with hstop
    · cases hup
      exact ⟨h, hstop⟩
    · split at hup
      · rename_i s n hs
        obtain ⟨u, hu, hup⟩ := Option.bind_eq_some_iff.1 hup
        exact ih (hu ▸ h.next hs) hup
      · cases hup

/-- Runs a text in a fresh runtime up to a task at which to stop. -/
def firstAt? (stop : Task → Machine → Bool) (source : String) :
    Option (Chronicle × Task × Machine) :=
  match compileSource source false with
  | .error _ => none
  | .ok p =>
    match (Exec.newCont .exit >>= p.start) (.initial default) with
    | .ok s m => s.task?.bind fun t => t.upTo stop 200 (s.onto m []) m
    | .error .. => none

theorem ran_of_firstAt? (h : firstAt? stop source = some (past, t, m)) :
    Ran past m (some t) ∧ stop t m = true := by
  unfold firstAt? at h
  split at h
  · cases h
  · split at h
    · rename_i s n hs
      obtain ⟨u, hu, hup⟩ := Option.bind_eq_some_iff.1 h
      exact ran_of_upTo (hu ▸ (Ran.fresh default).started hs) hup
    · cases h

/-- The task calls a function for which a result was kept. -/
def Task.isKept (t : Task) (m : Machine) : Bool :=
  match t with
  | .call (.cached table _) args => (m.cached? table (Value.array (args.drop 2)).text).isSome
  | _ => false

/-- Whatever the closure itself has handed back meets the condition. -/
def Chronicle.answersMeet (past : Chronicle) (i : Nat) (ok : List Value → Value → Bool) : Bool :=
  past.all fun
    | (.call (.closure i' ..) (.cont j _ :: _ :: xs), _) => i' != i || past.all fun
      | (.call (.cont j' _) vs, _) => j' != j || ok xs (argument vs 0)
      | _ => true
    | _ => true

theorem Answered.of_answersMeet {ok : List Value → Value → Bool} {i : Nat} {name : Option String}
    {params : List String} {body : List Stmt} {env : Env} (hok : past.answersMeet i ok = true)
    (h : Answered past (.closure i name params body env) xs v) : ok xs v = true := by
  obtain ⟨j, c, address, n, vs, n', hcall, -, hback, rfl⟩ := h
  have hcalled := List.all_eq_true.1 hok _ hcall
  simp only [bne_self_eq_false, Bool.false_or] at hcalled
  simpa only [bne_self_eq_false, Bool.false_or] using List.all_eq_true.1 hcalled _ hback

/-- The second path finds what the first has left. -/
def backtrackingSource : String :=
  "var g = cache(function(x) \x7b return [x]; \x7d); " ++
    "Enumerate(function() \x7b sample(Bernoulli(\x7bp: 0.5\x7d)); return g('a'); \x7d)"

/-- The task calls a closure that keeps its results, and so far the closure has handed back arrays
of its arguments. -/
def Chronicle.packs (past : Chronicle) : Task → Bool
  | .call (.cached _ (.closure i ..)) _ =>
    past.answersMeet i fun xs v => v.text == (Value.array xs).text
  | _ => false

theorem Chronicle.exists_of_packs (h : past.packs t = true) :
    ∃ table f args, t = .call (.cached table f) args ∧
      ∀ xs v, Answered past f xs v → v.text = (Value.array xs).text := by
  unfold Chronicle.packs at h
  split at h
  · exact ⟨_, _, _, rfl, fun xs v hanswered => beq_iff_eq.1 (hanswered.of_answersMeet h)⟩
  · cases h

theorem backtrackingSource_recalls :
    ∃ past m table f args v, firstAt? Task.isKept backtrackingSource =
        some (past, .call (.cached table f) args, m) ∧
      m.cached? table (Value.array (args.drop 2)).text = some v ∧
      v.text = (Value.array (args.drop 2)).text ∧
      (Task.call (.cached table f) args).perform m = .ok (.resume (argument args 0) v) m := by
  have hrecall :
      (firstAt? Task.isKept backtrackingSource).any (fun x => x.1.packs x.2.1) = true := by
    decide +kernel
  obtain ⟨⟨past, t, m⟩, hfirst, hpacks⟩ := (Option.any_eq_true _ _).1 hrecall
  obtain ⟨hran, hrecalls⟩ := ran_of_firstAt? hfirst
  obtain ⟨table, f, args, rfl, hresult⟩ := Chronicle.exists_of_packs hpacks
  obtain ⟨v, hv⟩ := Option.isSome_iff_exists.1 hrecalls
  obtain ⟨hkept, -⟩ := cached_calls_agree hran hresult fun xs ys w heq hw => hw.trans heq
  obtain ⟨htext, hperform⟩ := hkept v hv
  exact ⟨past, m, table, f, args, v, hfirst, hv, htext, hperform⟩

/-! ## Arguments with the same text -/

/-- Applies a function to two functions, which print alike. -/
def applyingSource (g : String) : String :=
  "var g = " ++ g ++ "; " ++
    "[g(function() \x7b return 'a'; \x7d), g(function() \x7b return 'b'; \x7d)]"

/-- The result of applying a function depends on this function alone. When results are kept, the
second function gets the result of the first. -/
theorem applyingSource_recalls_other :
    (∃ v m, runSource 50 (applyingSource "function(f) \x7b return f(); \x7d") false
      (.initial default) = .ok (some v) m ∧ v.text = "[\"a\",\"b\"]") ∧
    ∃ v m, runSource 50 (applyingSource "cache(function(f) \x7b return f(); \x7d)") false
      (.initial default) = .ok (some v) m ∧ v.text = "[\"a\",\"a\"]" :=
  ⟨by decide +kernel, by decide +kernel⟩

end Chance
