import Chance.Proofs.Enumeration.Exploration

/-!
# Enumeration is exhaustive replay

An enumeration without a limit hands its tally the results of all replays, each once, in an order
that depends on the strategy. The function is called in any state that a runtime can reach, and
every sequence of choices leads to the end of a replay.

- `Leads`: a run from one task to another, with the results handed over on the way,
- `Explores.finishes`: what is handed over from any point of the exploration,
- `Reached`: the states of a runtime,
- `enumeration_replays_exhaustively`: the whole enumeration.
-/

namespace Chance

open Replay

/-! ## Whole explorations -/

variable {fuel n : Nat} {t t' u : Task} {m m' m₁ : Machine} {s : Step}
  {results : List (Value × Float)} {tally : Tally} {p : Program} {k thunk : Value} {a : String}
  {options : EnumerateOptions} {c : Call}

/-- The replays that are outstanding. -/
def outstanding (ws : List Pending) : List Result :=
  ws.flatMap Pending.results

/-- A bound on the work that is outstanding. -/
def work : List Pending → Nat
  | [] => 0
  | w :: ws => w.size + 1 + work ws

theorem work_append (ws ws' : List Pending) : work (ws ++ ws') = work ws + work ws' := by
  induction ws with
  | nil => exact (Nat.zero_add _).symm
  | cons w ws ih =>
    simp only [List.cons_append, work, ih]
    omega

theorem work_perm {ws ws' : List Pending} (h : ws.Perm ws') : work ws = work ws' := by
  induction h with
  | nil => rfl
  | cons w _ ih => simp only [work, ih]
  | swap w w' ws =>
    simp only [work]
    omega
  | trans _ _ ih ih' => exact ih.trans ih'

theorem exists_pending {i : Nat} {qs : List Point} {rs : List Result} {size : Nat}
    (h : Branches n i qs rs size) : ∃ bs : List Pending, bs.map Pending.point = qs ∧
      (∀ w ∈ bs, Unfolds n w.point w.results w.size) ∧
      (outstanding bs).map Result.printed = rs.map Result.printed ∧ work bs = size := by
  induction qs generalizing i rs size with
  | nil =>
    cases h
    exact ⟨[], rfl, nofun, rfl, rfl⟩
  | cons q qs ih =>
    cases h with
    | @cons _ _ _ rs _ size _ hq hqs =>
      obtain ⟨bs, hpoints, hunfolds, hprinted, hwork⟩ := ih hqs
      refine ⟨⟨q, rs, size⟩ :: bs, ?_, List.forall_mem_cons.2 ⟨hq, hunfolds⟩, ?_, ?_⟩
      · rw [List.map_cons, hpoints]
      · -- The place of a branch shows in the choices, not in the results.
        have hafter : (rs.map (Result.after i)).map Result.printed = rs.map Result.printed := by
          rw [List.map_map]
          rfl
        rw [outstanding, List.flatMap_cons, List.map_append, List.map_append, hafter, ← hprinted]
        rfl
      · rw [work, hwork]

/-- The run gets from one task to another, and hands the results to the tally of the enumeration
`n` on the way. -/
inductive Leads (n : Nat) : Task → Machine → List (Value × Float) → Task → Machine → Prop
  | refl {t : Task} {m : Machine} : Leads n t m [] t m
  | step {t t' u : Task} {m m' m₁ : Machine} {s : Step} {results : List (Value × Float)} :
      t.perform m = .ok s m' → s.task? = some t' → Leads n t' m' results u m₁ →
      Leads n t m ((t.hands n m).toList ++ results) u m₁

theorem Leads.quiet (hands : t.hands n m = none) (hs : t.perform m = .ok s m')
    (ht' : s.task? = some t') (h : Leads n t' m' results u m₁) : Leads n t m results u m₁ := by
  have hstep := Leads.step hs ht' h
  rwa [hands] at hstep

theorem Leads.handing {r : Value × Float} (hands : t.hands n m = some r)
    (hs : t.perform m = .ok s m') (ht' : s.task? = some t') (h : Leads n t' m' results u m₁) :
    Leads n t m (r :: results) u m₁ := by
  have hstep := Leads.step hs ht' h
  rwa [hands] at hstep

theorem Leads.trans {t'' : Task} {m'' : Machine} {results' : List (Value × Float)}
    (h : Leads n t m results t' m') (h' : Leads n t' m' results' t'' m'') :
    Leads n t m (results ++ results') t'' m'' := by
  induction h with
  | refl => exact h'
  | step hs ht' _ ih =>
    rw [List.append_assoc]
    exact .step hs ht' (ih h')

/-- A tally with further results. -/
def Tally.addAll (tally : Tally) (results : List (Value × Float)) : Tally :=
  results.foldl (fun y r => y.add r.1 r.2) tally

/-- What a tally sees of the results that it is handed. -/
def printed (results : List (Value × Float)) : List (String × Float) :=
  results.map fun r => (r.1.text, r.2)

/-- Whatever is taken up next, the results handed over are those of the replays from the point being
explored and from the points that wait. -/
theorem Explores.finishes {n : Nat} {outer : List Coroutine} {e : Engine} {t : Task} {m : Machine}
    {p : Point} {ws : List Pending} {rs : List Result} {size : Nat}
    (h : Explores n outer e t m p ws) (hp : Unfolds n p rs size) :
    ∃ results last t' m', Leads n t m results t' m' ∧ t'.hands n m' = some last ∧
      (printed (results ++ [last])).Perm ((rs ++ outstanding ws).map Result.printed) ∧
      Finishes outer e t' m' (e.tally.addAll (results ++ [last])) := by
  -- Every move of a replay lessens the work that is outstanding.
  induction hN : size + work ws using Nat.strongRecOn generalizing e t m p ws rs size with
  | _ N ih =>
    cases hp with
    | @ends _ v s hmove =>
      obtain ⟨v', htext, hands, hrest⟩ := h.ends (moves_of_move hmove)
      rcases hrest with ⟨rfl, hfinishes⟩ | hnext
      · refine ⟨[], (v', s), t, m, .refl, hands, ?_, hfinishes⟩
        rw [printed, List.nil_append, List.map_singleton, htext]
        exact .refl _
      · obtain ⟨w, ws', t', m', e', rfl, hperform, hexplores, hw, htally, hk, hstore⟩ := hnext
        have hless : w.size + work ws' < N := by
          rw [work] at hN
          omega
        obtain ⟨results, last, t₁, m₁, hleads, hlast, hperm, e₁, m₂, hends⟩ :=
          ih _ hless hexplores hw rfl
        rw [htally, hk, hstore] at hends
        refine ⟨(v', s) :: results, last, t₁, m₁, hleads.handing hands hperform rfl, hlast, ?_,
          e₁, m₂, hends⟩
        rw [printed, List.cons_append, List.map_cons, htext]
        exact hperm.cons _
    | @goes _ q _ size hmove hq =>
      obtain ⟨hands, s, t', m', e', hperform, hs, hexplores, htally, hk, hstore⟩ :=
        h.goes (moves_of_move hmove)
      have hless : size + work ws < N := by omega
      obtain ⟨results, last, t₁, m₁, hleads, hlast, hperm, e₁, m₂, hends⟩ :=
        ih _ hless hexplores hq rfl
      rw [htally, hk, hstore] at hends
      exact ⟨results, last, t₁, m₁, hleads.quiet hands hperform hs, hlast, hperm, e₁, m₂, hends⟩
    | @chooses _ qs _ size hmove hqs =>
      obtain ⟨bs, rfl, hunfolds, hprinted, hwork⟩ := exists_pending hqs
      obtain ⟨hands, s, t', m', e', w, ws', hperform, hs, hwaiting, hexplores, hw, htally, hk,
        hstore⟩ := h.chooses (moves_of_move hmove) hunfolds
      have hless : w.size + work ws' < N := by
        have hsum := work_perm hwaiting
        rw [work, work_append, hwork] at hsum
        omega
      obtain ⟨results, last, t₁, m₁, hleads, hlast, hperm, e₁, m₂, hends⟩ :=
        ih _ hless hexplores hw rfl
      rw [htally, hk, hstore] at hends
      refine ⟨results, last, t₁, m₁, hleads.quiet hands hperform hs, hlast, hperm.trans ?_, e₁, m₂,
        hends⟩
      have hresults : ((w.results ++ outstanding ws').map Result.printed).Perm
          ((outstanding (bs ++ ws)).map Result.printed) := (hwaiting.flatMap_right _).map _
      refine hresults.trans (.of_eq ?_)
      calc (outstanding (bs ++ ws)).map Result.printed
        _ = (outstanding bs ++ outstanding ws).map Result.printed := by
          rw [outstanding, List.flatMap_append]
          rfl
        _ = (rs ++ outstanding ws).map Result.printed := by
          rw [List.map_append, hprinted, ← List.map_append]

/-! ## Results without probability -/

/-- The results that a tally passes over. -/
def Improbable (score : Float) : Prop :=
  (score == Number.negInfinity || score.isNaN) = true

theorem Tally.addEntry_ne_nil (key : String) (v : Value) (score : Float) (es : List TallyEntry) :
    addEntry key v score es ≠ [] := by
  cases es with
  | nil => exact List.cons_ne_nil _ _
  | cons e es =>
    simp only [addEntry]
    split_ifs <;> exact List.cons_ne_nil _ _

theorem Tally.add_entries_eq_nil_iff {v : Value} {score : Float} :
    (tally.add v score).entries = [] ↔ tally.entries = [] ∧ Improbable score := by
  unfold Tally.add Improbable
  split_ifs with hscore
  · exact (and_iff_left hscore).symm
  · exact iff_of_false (addEntry_ne_nil _ _ _ _) fun h => hscore h.2

theorem Tally.addAll_entries_eq_nil_iff : (tally.addAll results).entries = [] ↔
      tally.entries = [] ∧ ∀ r ∈ results, Improbable r.2 := by
  induction results generalizing tally with
  | nil => exact (and_iff_left nofun).symm
  | cons r results ih =>
    rw [List.forall_mem_cons, ← and_assoc, ← add_entries_eq_nil_iff]
    exact ih

theorem Tally.marginal_eq_error_iff {er : Error} : (empty.addAll results).marginal = .error er ↔
      er = .zeroProbability ∧ ∀ r ∈ results, Improbable r.2 := by
  have hnil : (empty.addAll results).entries = [] ↔ ∀ r ∈ results, Improbable r.2 :=
    addAll_entries_eq_nil_iff.trans (and_iff_right rfl)
  unfold marginal
  split_ifs with hempty
  · rw [and_iff_left (hnil.1 (List.isEmpty_iff.1 hempty)), Except.error.injEq, eq_comm]
  · exact iff_of_false nofun fun h => hempty (List.isEmpty_iff.2 (hnil.2 h.2))

theorem forall_improbable_iff {replays : List Result}
    (h : (printed results).Perm (replays.map Result.printed)) :
    (∀ r ∈ results, Improbable r.2) ↔ ∀ r ∈ replays, Improbable r.score := by
  have hleft : (∀ x ∈ printed results, Improbable x.2) ↔ ∀ r ∈ results, Improbable r.2 := by
    rw [printed, List.forall_mem_map]
  have hright : (∀ x ∈ replays.map Result.printed, Improbable x.2) ↔
      ∀ r ∈ replays, Improbable r.score := by
    rw [List.forall_mem_map]
    rfl
  rw [← hleft, ← hright]
  exact forall_congr' fun x => imp_congr_left h.mem_iff

/-! ## States of a runtime -/

/-- All functions may occur, and the identities that have been given out. -/
abbrev Scope.below (next : Nat) : Scope :=
  ⟨anyCode, fun i => i < next⟩

theorem exists_fits_below (next : Nat) :
    ∃ π : Pairing, π.Bounded ∧ π.Fits (fun next i => i < next) next := by
  let π : Pairing := .same (fun i => i < next) next (.inl fun _ => id)
  have hπ : π.Bounded := by
    rintro i _ ⟨rfl, hi⟩
    exact ⟨hi, hi⟩
  exact ⟨π, hπ,
    { same := fun hi => ⟨rfl, hi⟩
      left := rfl
      right := rfl
      grows := fun hρ hij => (hρ.bounded hπ hij).1 }⟩

/-- The state of a runtime and what it has to do, if anything: it runs any programs one after
another, under any scripts, and an error removes the coroutines that were installed meanwhile. -/
inductive Reached : Machine → Option Task → Prop
  | fresh (supply : Supply) : Reached (.initial supply) none
  | scripted {m : Machine} (choices : List Nat) :
      Reached m none → Reached (m.installScript choices) none
  | started {p : Program} {m m' : Machine} {s : Step} :
      Reached m none → (Exec.newCont .exit >>= p.start) m = .ok s m' → Reached m' s.task?
  | next {t : Task} {m m' : Machine} {s : Step} :
      Reached m (some t) → t.perform m = .ok s m' → Reached m' s.task?
  | failed {t : Task} {m m' : Machine} {er : Error} (depth : Nat) :
      Reached m (some t) → t.perform m = .error er m' → Reached (m'.truncate depth) none

theorem Machine.Over.truncate {s : Scope} (h : m.Over s) (depth : Nat) :
    (m.truncate depth).Over s where
  store := h.store
  stack e he := h.stack e (List.mem_of_mem_drop he)
  tables := h.tables

theorem Machine.Over.installScript {s : Scope} (h : m.Over s) (choices : List Nat) :
    (m.installScript choices).Over s where
  store := h.store
  stack e he := by
    rcases List.mem_cons.1 he with he | he
    · cases he
    · exact h.stack e he
  tables := h.tables

theorem Program.start_eq_ok (h : p.start k m = .ok s m') :
    ∃ name params body, p.body = [.expr (.func name params body)] := by
  unfold Program.start at h
  generalize p.body = body at h ⊢
  split at h
  · exact ⟨_, _, _, rfl⟩
  · cases h

theorem start_over (hm : m.Over (.below m.nextId))
    (h : (Exec.newCont .exit >>= p.start) m = .ok s m') :
    m'.Over (.below m'.nextId) ∧ ∀ t ∈ s.task?, t.Over (.below m'.nextId) := by
  obtain ⟨π, -, hπ⟩ := exists_fits_below (m.nextId + 1)
  have hroom : Machine.Over (.below m.nextId) { m with nextId := m.nextId + 1 } :=
    ⟨hm.store, hm.stack, hm.tables⟩
  have halike : Machine.Alike (.whole anyCode False bodyWithin_any) π
      { m with nextId := m.nextId + 1 } { m with nextId := m.nextId + 1 } :=
    hroom.alike (fun hi => hπ.same (Nat.lt_succ_of_lt hi)) hπ.left hπ.right
  have hover : Machine.Over (.below (m.nextId + 1)) { m with nextId := m.nextId + 1 } := by
    refine halike.over fun {i j} hij => ?_
    have hlt := hπ.grows (Pairing.le_refl π) hij
    rwa [← hπ.left] at hlt
  obtain ⟨name, params, body, hbody⟩ := Program.start_eq_ok h
  have hk : (Value.cont m.nextId .exit).Over (.below (m.nextId + 1)) :=
    .cont (Nat.lt_succ_self _) .exit
  exact (Program.start_staysOver bodyWithin_any hbody trivial hπ hk hover).next h

/-- Only identities that have been given out occur. -/
theorem Reached.over {m : Machine} {x : Option Task} (h : Reached m x) :
    m.Over (.below m.nextId) ∧ ∀ t ∈ x, t.Over (.below m.nextId) := by
  induction h with
  | fresh supply => exact ⟨Machine.initial_over _ supply, nofun⟩
  | scripted choices _ ih => exact ⟨ih.1.installScript choices, nofun⟩
  | started _ hs ih => exact start_over ih.1 hs
  | @next t m m' s _ hs ih =>
    obtain ⟨π, -, hπ⟩ := exists_fits_below m.nextId
    exact (Task.perform_staysOver bodyWithin_any hπ (ih.2 t rfl) ih.1).next hs
  | @failed t m m' er depth _ hs ih =>
    obtain ⟨π, -, hπ⟩ := exists_fits_below m.nextId
    have hstays := Task.perform_staysOver bodyWithin_any hπ (ih.2 t rfl) ih.1
    exact ⟨(hstays.error hs).2.truncate depth, nofun⟩

/-! ## Whole enumerations -/

/-- The task calls an enumeration of the paths through `thunk`, whose result `k` will receive. -/
inductive Task.Begins : Task → Value → String → Value → EnumerateOptions → Prop
  | enumerate {args : List Value} {k : Value} {a : String} {options : EnumerateOptions} :
      callerOf args = .ok (k, a) → (argument args 2).isCallable = true →
      EnumerateOptions.ofValue "Enumerate" (argument args 3) = .ok options →
      Begins (.call (.builtin .enumerate) args) k a (argument args 2) options
  | infer {args : List Value} {k : Value} {a : String} {options : EnumerateOptions} :
      callerOf args = .ok (k, a) →
      EnumerateOptions.ofMethod (argument args 2) (argument args 3) = .ok options →
      Begins (.call (.builtin .infer) args) k a (argument args 3) options

theorem Task.Begins.perform_eq (h : t.Begins k a thunk options) :
    t.perform = startEnumeration k a thunk options := by
  cases h with
  | @enumerate args _ _ _ hcaller hcallable hoptions =>
    change enumerateCall args = _
    simp only [enumerateCall, hcaller, hoptions, hcallable, if_true]
    rfl
  | @infer args _ _ _ hcaller hoptions =>
    change inferCall args = _
    simp only [inferCall, hcaller, hoptions]
    rfl

theorem argument_over {s : Scope} {args : List Value} (h : ∀ v ∈ args, v.Over s) (i : Nat) :
    (argument args i).Over s := by
  unfold argument
  cases hi : args[i]? with
  | none => exact .undefined
  | some v => exact h v (List.mem_of_getElem? hi)

theorem Task.Begins.thunk_over {s : Scope} (h : t.Begins k a thunk options) (ht : t.Over s) :
    thunk.Over s := by
  cases h with
  | enumerate => exact argument_over ht.2 2
  | infer => exact argument_over ht.2 3

/-- An enumeration that has not begun. -/
def Engine.begin (m : Machine) (k : Value) (a : String) (options : EnumerateOptions) : Engine where
  id := m.nextId
  score := 0
  frontier := .empty options.strategy
  tally := .empty
  completed := 0
  done := false
  limit := options.limit
  k := k
  address := a
  store := m.store

/-- The continuation that ends a path. -/
def exitOf (m : Machine) : Value :=
  .cont (m.nextId + 1) (.leave m.nextId)

theorem startEnumeration_eq (m : Machine) (k : Value) (a : String) (thunk : Value)
    (options : EnumerateOptions) : startEnumeration k a thunk options m =
      .ok (.bounce (.enter (.begin m k a options) thunk (exitOf m)))
        { m with nextId := m.nextId + 2 } :=
  rfl

theorem explores_start (k : Value) (a : String) (strategy : Strategy)
    (hm : m.Over (.below m.nextId)) (hthunk : thunk.Over (.below m.nextId)) :
    Explores m.nextId m.stack (.begin m k a ⟨none, strategy⟩) (.call thunk [exitOf m, .str a])
      { m with
        nextId := m.nextId + 2
        stack := .engine (.begin m k a ⟨none, strategy⟩) :: m.stack }
      (start m thunk a) [] := by
  have houter {f : Engine} (hf : .engine f ∈ m.stack) : f.id < m.nextId := (hm.stack f hf).id
  have hunder : Underway m.nextId (m.nextId + 2) m.stack (.begin m k a ⟨none, strategy⟩) [] :=
    { id := rfl
      going := rfl
      unlimited := rfl
      outer := houter
      frontier := by
        rw [Engine.begin, Frontier.toList_empty]
        exact .nil }
  have hbelow : ∀ {f}, .engine f ∈ Coroutine.engine (.begin m k a ⟨none, strategy⟩) :: m.stack →
      f.id ≤ m.nextId := by
    intro f hf
    rcases List.mem_cons.1 hf with hf | hf
    · cases hf
      exact Nat.le_refl _
    · exact Nat.le_of_lt (houter hf)
  -- Both sides start in the same state, with every identity paired with itself.
  obtain ⟨π, hbounded, hπ⟩ := exists_fits_below (m.nextId + 2)
  have hold {i : Nat} (hi : i < m.nextId) : π.ids i i := hπ.same (by omega)
  have hown : π.ids m.nextId m.nextId := hπ.same (by omega)
  have hnew : π.ids (m.nextId + 1) (m.nextId + 1) := hπ.same (by omega)
  refine ⟨hunder, rfl, hbelow, π, hbounded, hown, ?_, ?_⟩
  · exact .call (hthunk.alike hold) (.cons (.cont hnew (.leave hown)) (.cons (.str a) .nil))
  · exact alike_bare rfl rfl (hm.store.alike hold) hπ.left hπ.right (by simp [start]) (by simp)

/-- A call of an enumeration in a state. -/
structure Call where
  task : Task
  machine : Machine
  k : Value
  address : String
  thunk : Value
  options : EnumerateOptions

/-- The task as the call of an enumeration. -/
def Task.call? (t : Task) (m : Machine) : Option Call :=
  match t with
  | .call (.builtin .enumerate) args =>
    match callerOf args, EnumerateOptions.ofValue "Enumerate" (argument args 3) with
    | .ok (k, a), .ok options =>
      if (argument args 2).isCallable then some ⟨t, m, k, a, argument args 2, options⟩ else none
    | _, _ => none
  | _ => none

/-- Performs tasks up to the first call of an enumeration. -/
def Task.search : Nat → Task → Machine → Option Call
  | 0, _, _ => none
  | fuel + 1, t, m =>
    match t.call? m with
    | some c => some c
    | none =>
      match t.perform m with
      | .ok s m' => s.task?.bind fun u => u.search fuel m'
      | .error .. => none

/-- Runs a text in a fresh runtime up to the first call of an enumeration. -/
def firstCall? (source : String) : Option Call :=
  match compileSource source false with
  | .error _ => none
  | .ok p =>
    match (Exec.newCont .exit >>= p.start) (.initial default) with
    | .ok s m => s.task?.bind fun t => t.search 100 m
    | .error .. => none

/-- The call is one that a runtime reaches. -/
structure Call.IsReached (c : Call) : Prop where
  reached : Reached c.machine (some c.task)
  begins : c.task.Begins c.k c.address c.thunk c.options

theorem Task.begins_of_call? (h : t.call? m = some c) :
    c.task = t ∧ c.machine = m ∧ t.Begins c.k c.address c.thunk c.options := by
  unfold Task.call? at h
  split at h
  · split at h
    · rename_i hcaller hoptions
      split_ifs at h with hcallable
      cases h
      exact ⟨rfl, rfl, .enumerate hcaller hcallable hoptions⟩
    · cases h
  · cases h

theorem isReached_of_search (ht : Reached m (some t)) (h : t.search fuel m = some c) :
    c.IsReached := by
  induction fuel generalizing t m with
  | zero => cases h
  | succ fuel ih =>
    unfold Task.search at h
    split at h
    · rename_i hcall
      cases h
      obtain ⟨rfl, rfl, hbegins⟩ := Task.begins_of_call? hcall
      exact ⟨ht, hbegins⟩
    · split at h
      · rename_i s m' hs
        obtain ⟨u, hu, hsearch⟩ := Option.bind_eq_some_iff.1 h
        exact ih (hu ▸ ht.next hs) hsearch
      · cases h

theorem isReached_of_firstCall? {source : String} (h : firstCall? source = some c) :
    c.IsReached := by
  unfold firstCall? at h
  split at h
  · cases h
  · split at h
    · rename_i s m hs
      obtain ⟨t, ht, hsearch⟩ := Option.bind_eq_some_iff.1 h
      have hstarted := (Reached.fresh default).started hs
      exact isReached_of_search (ht ▸ hstarted) hsearch
    · cases h

theorem Call.IsReached.id_lt (h : c.IsReached) :
    ∀ e, .engine e ∈ c.machine.stack → e.id < c.machine.nextId :=
  fun e he => (h.reached.over.1.stack e he).id

/-- How the last task of an enumeration ends that was called in the state `m`: the run goes on at
`k` with the distribution of the results, from the store and with the coroutines of the call, or
fails because there is none. -/
def Concludes (m : Machine) (k : Value) (results : List (Value × Float)) :
    EStateM.Result Error Machine Step → Prop
  | .ok s m' => ∃ i d, (Tally.empty.addAll results).marginal = .ok d ∧
      s = .resume k (.dist i d) ∧ m'.store = m.store ∧ m'.stack = m.stack
  | .error er _ => (Tally.empty.addAll results).marginal = .error er

theorem Finishes.concludes
    (h : Finishes m.stack (.begin m k a options) t m₁ (Tally.empty.addAll results)) :
    Concludes m k results (t.perform m₁) := by
  obtain ⟨e, m₂, hperform, hstack, hbelow, htally, hk, hstore⟩ := h
  rw [hperform, finish_onTop hstack hbelow, htally]
  cases hmarginal : (Tally.empty.addAll results).marginal with
  | error er => exact hmarginal
  | ok d => exact ⟨m₂.nextId, d, hmarginal, by rw [hk]; rfl, hstore, rfl⟩

theorem Concludes.fails_iff {outcome : EStateM.Result Error Machine Step}
    (h : Concludes m k results outcome) :
    (∃ m', outcome = .error .zeroProbability m') ↔ ∀ r ∈ results, Improbable r.2 := by
  cases outcome with
  | ok s m' =>
    obtain ⟨i, d, hmarginal, -⟩ := h
    refine iff_of_false (fun ⟨_, houtcome⟩ => by cases houtcome) fun hzero => ?_
    have herror := Tally.marginal_eq_error_iff.2 ⟨rfl, hzero⟩
    rw [hmarginal] at herror
    cases herror
  | error er m' =>
    obtain ⟨rfl, hzero⟩ := Tally.marginal_eq_error_iff.1 h
    exact iff_of_true ⟨m', rfl⟩ hzero

/-- An enumeration without a limit is exhaustive replay. In any state that a runtime reaches, if
every sequence of choices leads to the end of a replay, then under each strategy the results handed
to the tally are those of the replays, one for each sequence of choices; the enumeration goes on
with their distribution, from the store at the call; and it fails for want of probability exactly if
no replay has any. -/
theorem enumeration_replays_exhaustively {m : Machine} {t : Task} {k thunk : Value} {a : String}
    {options : EnumerateOptions} (hreached : Reached m (some t))
    (hbegins : t.Begins k a thunk options) (hlimit : options.limit = none)
    (hsettles : Settles m.nextId (start m thunk a)) :
    ∃ replays : List Result, (replays.map Result.choices).Nodup ∧
      (∀ r, r ∈ replays ↔ Replays m.nextId r.choices (start m thunk a) r.value r.score) ∧
      t.perform m = startEnumeration k a thunk ⟨none, options.strategy⟩ m ∧
      ∀ strategy : Strategy, ∃ t₀ m₀ results last t₁ m₁,
        startEnumeration k a thunk ⟨none, strategy⟩ m = .ok (.bounce t₀) m₀ ∧
        Leads m.nextId t₀ m₀ results t₁ m₁ ∧ t₁.hands m.nextId m₁ = some last ∧
        (printed (results ++ [last])).Perm (replays.map Result.printed) ∧
        Concludes m k (results ++ [last]) (t₁.perform m₁) ∧
        ((∃ m₂, t₁.perform m₁ = .error .zeroProbability m₂) ↔
          ∀ r ∈ replays, Improbable r.score) := by
  obtain ⟨hm, ht⟩ := hreached.over
  have hthunk := hbegins.thunk_over (ht t rfl)
  obtain ⟨replays, size, hunfolds⟩ := hsettles.unfolds
  refine ⟨replays, hunfolds.nodup, fun r => hunfolds.mem_iff, ?_, fun strategy => ?_⟩
  · rw [hbegins.perform_eq, ← hlimit]
  · have hexplores := explores_start k a strategy hm hthunk
    obtain ⟨results, last, t₁, m₁, hleads, hlast, hperm, hfinishes⟩ := hexplores.finishes hunfolds
    rw [outstanding, List.flatMap_nil, List.append_nil] at hperm
    have hconcludes := hfinishes.concludes
    refine ⟨_, _, results, last, t₁, m₁, startEnumeration_eq _ _ _ _ _,
      hleads.quiet rfl rfl rfl, hlast, hperm, hconcludes, ?_⟩
    rw [hconcludes.fails_iff, forall_improbable_iff hperm]

/-- A source whose enumeration begins with a factor, a nested enumeration and a change to the store,
and whose choices depend on one another. -/
def branchingSource : String :=
  "Enumerate(function() \x7b factor(2); Enumerate(function() \x7b return 1; \x7d); " ++
    "globalStore.n = 3; " ++
    "return sample(Bernoulli(\x7bp: 0.5\x7d)) ? sample(Bernoulli(\x7bp: 0.25\x7d)) : " ++
    "globalStore.n; \x7d)"

theorem branchingSource_replays_exhaustively :
    ∃ c : Call, firstCall? branchingSource = some c ∧ c.options.limit = none ∧
      Settles c.machine.nextId (start c.machine c.thunk c.address) ∧
      ∃ replays : List Result, (replays.map Result.choices).Nodup ∧
        (∀ r, r ∈ replays ↔ Replays c.machine.nextId r.choices
          (start c.machine c.thunk c.address) r.value r.score) ∧
        ∀ strategy : Strategy, ∃ t₀ m₀ results last t₁ m₁,
          startEnumeration c.k c.address c.thunk ⟨none, strategy⟩ c.machine =
            .ok (.bounce t₀) m₀ ∧
          Leads c.machine.nextId t₀ m₀ results t₁ m₁ ∧
          t₁.hands c.machine.nextId m₁ = some last ∧
          (printed (results ++ [last])).Perm (replays.map Result.printed) ∧
          Concludes c.machine c.k (results ++ [last]) (t₁.perform m₁) := by
  have hcall : (firstCall? branchingSource).any (fun c => c.options.limit.isNone &&
      settles? c.machine.nextId 60 (start c.machine c.thunk c.address)) = true := by
    decide +kernel
  obtain ⟨c, hc, hok⟩ := (Option.any_eq_true _ _).1 hcall
  rw [Bool.and_eq_true, Option.isNone_iff_eq_none] at hok
  obtain ⟨hlimit, hsettles⟩ := hok
  have hsettles := settles_of_settles? hsettles
  have hreached := isReached_of_firstCall? hc
  obtain ⟨replays, hnodup, hmem, -, hruns⟩ :=
    enumeration_replays_exhaustively hreached.reached hreached.begins hlimit hsettles
  refine ⟨c, hc, hlimit, hsettles, replays, hnodup, hmem, fun strategy => ?_⟩
  obtain ⟨t₀, m₀, results, last, t₁, m₁, hstart, hleads, hlast, hperm, hends, -⟩ := hruns strategy
  exact ⟨t₀, m₀, results, last, t₁, m₁, hstart, hleads, hlast, hperm, hends⟩

/-! ## Paths that end elsewhere -/

/-- The task returns from the last path of the enumeration `n`. -/
def Task.isLast (n : Nat) (t : Task) (m : Machine) : Bool :=
  match t, m.engine? n with
  | .call (.cont _ (.leave i)) _, some e => i == n && !e.done && e.frontier.isEmpty
  | _, _ => false

theorem Task.perform_of_isLast (h : t.isLast n m = true) :
    ∃ e m', t.perform m = Engine.finish e m' ∧ (t.hands n m).isSome = true := by
  unfold Task.isLast at h
  split at h
  · rename_i j i args e he
    simp only [Bool.and_eq_true, Bool.not_eq_true', beq_iff_eq] at h
    obtain ⟨⟨rfl, hdone⟩, hempty⟩ := h
    refine ⟨e.counting (argument args 0), m.putEngine (e.counting (argument args 0)), ?_, ?_⟩
    · have hlive : (Task.call (.cont j (.leave i)) args).perform m =
          e.leave (argument args 0) m := by
        change (Engine.live i >>= fun e => e.leave (argument args 0)) m = _
        rw [Engine.live_bind, he]
        exact if_neg (by rw [hdone]; exact Bool.false_ne_true)
      rw [hlive]
      change (if (e.counting (argument args 0)).withinLimit && !e.frontier.isEmpty then
        (e.counting (argument args 0)).advance else (e.counting (argument args 0)).finish)
          (m.putEngine (e.counting (argument args 0))) = _
      rw [hempty, Bool.not_true, Bool.and_false]
      rfl
    · simp only [Task.hands, if_true, he, Option.map_some, Option.isSome_some]
  · cases h

/-- Performs tasks up to the return from the last path of the enumeration `n`, and gathers the
results handed over before it. -/
def Task.trace (perform : Task → Exec Step) (n : Nat) :
    Nat → Task → Machine → Option (List (Value × Float) × Task × Machine)
  | 0, _, _ => none
  | fuel + 1, t, m =>
    if t.isLast n m then some ([], t, m)
    else
      match perform t m with
      | .ok s m' => s.task?.bind fun u =>
        (u.trace perform n fuel m').map fun x => ((t.hands n m).toList ++ x.1, x.2)
      | .error .. => none

theorem Task.leads_of_trace {t₁ : Task}
    (h : t.trace Task.perform n fuel m = some (results, t₁, m₁)) :
    Leads n t m results t₁ m₁ ∧ t₁.isLast n m₁ = true := by
  induction fuel generalizing t m results with
  | zero => cases h
  | succ fuel ih =>
    unfold Task.trace at h
    split at h
    · rename_i hlast
      cases h
      exact ⟨.refl, hlast⟩
    · split at h
      · rename_i s m' hs
        obtain ⟨u, hu, hrest⟩ := Option.bind_eq_some_iff.1 h
        obtain ⟨⟨results', t', m'⟩, htrace, hx⟩ := Option.map_eq_some_iff.1 hrest
        cases hx
        obtain ⟨hleads, hlast⟩ := ih htrace
        exact ⟨.step hs hu hleads, hlast⟩
      · cases h

/-- Under the strategy the called enumeration hands over so many results in all. -/
def Call.HandsOver (c : Call) (strategy : Strategy) (count : Nat) : Prop :=
  ∃ t₀ m₀ results last t₁ m₁ e m₂,
    startEnumeration c.k c.address c.thunk ⟨none, strategy⟩ c.machine = .ok (.bounce t₀) m₀ ∧
    Leads c.machine.nextId t₀ m₀ results t₁ m₁ ∧ t₁.hands c.machine.nextId m₁ = some last ∧
    t₁.perform m₁ = Engine.finish e m₂ ∧ (results ++ [last]).length = count

/-- The number of results that the called enumeration hands over under the strategy. -/
def Call.count? (c : Call) (strategy : Strategy) : Option Nat :=
  match startEnumeration c.k c.address c.thunk ⟨none, strategy⟩ c.machine with
  | .ok (.bounce t) m => (t.trace Task.perform c.machine.nextId 200 m).map fun x => x.1.length + 1
  | _ => none

theorem Call.handsOver_of_count? {strategy : Strategy} {count : Nat}
    (h : c.count? strategy = some count) : c.HandsOver strategy count := by
  unfold Call.count? at h
  split at h
  · rename_i t m hstart
    obtain ⟨⟨results, t₁, m₁⟩, htrace, hcount⟩ := Option.map_eq_some_iff.1 h
    obtain ⟨hleads, hlast⟩ := Task.leads_of_trace htrace
    obtain ⟨e, m₂, hfinish, hands⟩ := Task.perform_of_isLast hlast
    obtain ⟨last, hhanded⟩ := Option.isSome_iff_exists.1 hands
    refine ⟨t, m, results, last, t₁, m₁, e, m₂, hstart, hleads, hhanded, hfinish, ?_⟩
    rw [List.length_append]
    exact hcount
  · cases h

/-- A source that names a continuation of its own: a path of the outer enumeration ends by calling
it within the inner one, which stays installed and answers what follows. -/
def capturingSource : String :=
  "var d = Enumerate(function() \x7b if (sample(Bernoulli(\x7bp: 0.5\x7d))) \x7b " ++
    "Enumerate(function() \x7b return _k1(); \x7d); \x7d " ++
    "return sample(Bernoulli(\x7bp: 0.5\x7d)); \x7d, \x7bstrategy: 'breadthFirst'\x7d); " ++
    "d.support().length"

/-- Paths that end within an enumeration of their own make the strategies differ. -/
theorem capturingSource_strategies_differ :
    ∃ c, firstCall? capturingSource = some c ∧ c.options.limit = none ∧
      c.HandsOver .depthFirst 3 ∧ c.HandsOver .breadthFirst 2 := by
  have hcall : (firstCall? capturingSource).any (fun c => c.options.limit.isNone &&
      (c.count? .depthFirst == some 3 && c.count? .breadthFirst == some 2)) = true := by
    decide +kernel
  obtain ⟨c, hc, hok⟩ := (Option.any_eq_true _ _).1 hcall
  simp only [Bool.and_eq_true, Option.isNone_iff_eq_none, beq_iff_eq] at hok
  obtain ⟨hlimit, hdepth, hbreadth⟩ := hok
  exact ⟨c, hc, hlimit, Call.handsOver_of_count? hdepth, Call.handsOver_of_count? hbreadth⟩

end Chance
