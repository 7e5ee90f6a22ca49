import Chance.Machine.Slice

/-!
# Slices of a run

Cutting a run into slices changes nothing about it. Whatever the clock says, the slices together
execute the thunks of the run from the first to the last, and end as it ends. A thunk is a task
together with those that are part of the same step.

- `Step.thunks`, `Trampoline.sliceThunks`: the thunks that a run and a slice execute,
- `Course.LeadsTo`: a course executes some thunks and goes on as another,
- `Trampoline.runSlices`: slices one after another, without a cancellation,
- `slicing_is_invisible`: slices against the run in one go.
-/

namespace Chance

/-! ## Thunks -/

/-- The thunks that a run executes, each with the state it finds. The task itself begins one if
`fresh` is set; otherwise it is part of the one before. -/
def Task.thunks : Nat → Bool → Task → Machine → List (Task × Machine)
  | 0, _, _, _ => []
  | fuel + 1, fresh, t, m =>
    (if fresh then [(t, m)] else []) ++
      match t.perform m with
      | .ok (.bounce t') m' => thunks fuel true t' m'
      | .ok (.through t') m' => thunks fuel false t' m'
      | _ => []

def Step.thunks (fuel : Nat) : Step → Machine → List (Task × Machine)
  | .done _, _ => []
  | .bounce t, m | .through t, m => t.thunks fuel true m

namespace Trampoline

/-- The thunks of a slice that has completed `n` steps, from a task on. -/
def thunksFrom (clock : Clock) : Nat → Bool → Task → Nat → Machine → List (Task × Machine)
  | 0, _, _, _, _ => []
  | fuel + 1, fresh, t, n, m =>
    (if fresh then [(t, m)] else []) ++
      match t.perform m with
      | .ok (.bounce t') m' =>
        if isOver clock (n + 1) then [] else thunksFrom clock fuel true t' (n + 1) m'
      | .ok (.through t') m' => thunksFrom clock fuel false t' n m'
      | _ => []

/-- The thunks that a slice executes. -/
def sliceThunks (clock : Clock) (fuel : Nat) (t : Trampoline) (m : Machine) :
    List (Task × Machine) :=
  if t.cancelled then []
  else
    match t.pending with
    | none | some (.done _) => []
    | some (.bounce u) | some (.through u) => thunksFrom clock fuel true u 0 m

/-- Where slices have got: how the last one ended, what is left, and the thunks they executed. -/
structure Progress where
  slice : Slice
  trampoline : Trampoline
  machine : Machine
  thunks : List (Task × Machine)

def oneSlice (clock : Clock) (fuel : Nat) (t : Trampoline) (m : Machine) : Progress :=
  let r := t.runSlice clock fuel m
  ⟨r.1, r.2.1, r.2.2, t.sliceThunks clock fuel m⟩

/-- So many slices by the clocks in turn, unless one before the last does not yield. -/
def runSlices (fuel : Nat) : Nat → (Nat → Clock) → Trampoline → Machine → Progress
  | 0, _, t, m => ⟨.yielded, t, m, []⟩
  | count + 1, clocks, t, m =>
    let first := t.oneSlice (clocks 0) fuel m
    match first.slice with
    | .yielded =>
      let rest := runSlices fuel count (fun i => clocks (i + 1)) first.trampoline first.machine
      { rest with thunks := first.thunks ++ rest.thunks }
    | _ => first

end Trampoline

/-! ## Courses -/

/-- What comes of a run, by the number of tasks it may perform: its result, and the thunks it
executes. -/
abbrev Course := Nat → EStateM.Result Error Machine (Option Value) × List (Task × Machine)

/-- The course executes the thunks and goes on as the other one. -/
def Course.LeadsTo (c : Course) (ts : List (Task × Machine)) (c' : Course) : Prop :=
  ∃ k, ∀ j, c (k + j) = ((c' j).1, ts ++ (c' j).2)

theorem Course.LeadsTo.refl (c : Course) : c.LeadsTo [] c :=
  ⟨0, fun j => by rw [Nat.zero_add, List.nil_append]⟩

theorem Course.LeadsTo.trans {c c' c'' : Course} {ts us : List (Task × Machine)}
    (h : c.LeadsTo ts c') (h' : c'.LeadsTo us c'') : c.LeadsTo (ts ++ us) c'' := by
  obtain ⟨k, hk⟩ := h
  obtain ⟨l, hl⟩ := h'
  refine ⟨k + l, fun j => ?_⟩
  rw [Nat.add_assoc, hk, hl, List.append_assoc]

def Step.course (s : Step) (m : Machine) : Course :=
  fun j => (s.drive j m, s.thunks j m)

/-- The course of a run in the middle of a thunk, which `t` goes on with. -/
def Task.course (t : Task) (m : Machine) : Course :=
  fun j => (t.drive j m, t.thunks j false m)

/-- What is left of a run after a slice. -/
def Slice.course (slice : Slice) (pending : Option Step) (m : Machine) : Course :=
  match slice, pending with
  | .finished v, _ => fun _ => (.ok (some v) m, [])
  | .failed e, _ => fun _ => (.error e m, [])
  | _, some s => s.course m
  | _, none => fun _ => (.ok none m, [])

/-- The number of thunks that a slice leaves incomplete. -/
def Slice.incomplete : Slice → Nat
  | .failed _ => 1
  | _ => 0

section Courses

variable {t u : Task} {s : Step} {m m' : Machine}

theorem Task.course_of_error {e : Error} (h : t.perform m = .error e m') (j : Nat) :
    t.course m (j + 1) = (.error e m', []) := by
  simp only [Task.course, Task.drive_succ, Task.thunks, h]
  rfl

theorem Task.course_of_done {v : Value} (h : t.perform m = .ok (.done v) m') (j : Nat) :
    t.course m (j + 1) = (.ok (some v) m', []) := by
  simp only [Task.course, Task.drive_succ, Task.thunks, h]
  rfl

theorem Task.course_of_through (h : t.perform m = .ok (.through u) m') (j : Nat) :
    t.course m (j + 1) = u.course m' j := by
  simp only [Task.course, Task.drive_succ, Task.thunks, h]
  rfl

theorem Task.course_of_bounce (h : t.perform m = .ok (.bounce u) m') (j : Nat) :
    t.course m (j + 1) = (Step.bounce u).course m' j := by
  simp only [Task.course, Task.drive_succ, Task.thunks, h]
  rfl

theorem Step.course_bounce_succ (u : Task) (m : Machine) (j : Nat) :
    (Step.bounce u).course m (j + 1) =
      ((u.course m (j + 1)).1, (u, m) :: (u.course m (j + 1)).2) := rfl

theorem Task.course_add {fuel : Nat} (h : ∀ n, t.drive fuel m ≠ .ok none n) (more : Nat) :
    t.course m (fuel + more) = t.course m fuel := by
  induction fuel generalizing t m with
  | zero => exact absurd rfl (h m)
  | succ fuel ih =>
    rw [Nat.add_right_comm]
    rw [Task.drive_succ] at h
    cases hstep : t.perform m with
    | error e n => rw [Task.course_of_error hstep, Task.course_of_error hstep]
    | ok s n =>
      rw [hstep] at h
      cases s with
      | done v => rw [Task.course_of_done hstep, Task.course_of_done hstep]
      | through u => rw [Task.course_of_through hstep, Task.course_of_through hstep, ih h]
      | bounce u =>
        rw [Task.course_of_bounce hstep, Task.course_of_bounce hstep]
        -- A run that has ended has performed a task, so the thunk of `u` is begun on both sides.
        cases fuel with
        | zero => exact absurd rfl (h n)
        | succ fuel =>
          have hu := ih h
          rw [Nat.add_right_comm] at hu ⊢
          rw [Step.course_bounce_succ, Step.course_bounce_succ, hu]

theorem Step.course_add {fuel : Nat} (h : ∀ n, s.drive fuel m ≠ .ok none n) (more : Nat) :
    s.course m (fuel + more) = s.course m fuel := by
  cases s with
  | done v => rfl
  | bounce t | through t =>
    cases fuel with
    | zero => exact absurd rfl (h m)
    | succ fuel =>
      have ht := Task.course_add h more
      rw [Nat.add_right_comm] at ht ⊢
      exact (Step.course_bounce_succ t m _).trans
        (ht ▸ (Step.course_bounce_succ t m fuel).symm)

theorem Step.course_unique {k l : Nat} (hk : ∀ n, s.drive k m ≠ .ok none n)
    (hl : ∀ n, s.drive l m ≠ .ok none n) : s.course m k = s.course m l := by
  rw [← Step.course_add hk l, Nat.add_comm, Step.course_add hl k]

end Courses

namespace Trampoline

/-! ## One slice -/

section OneSlice

variable {clock : Clock} {fuel : Nat} {t u : Task} {n : Nat} {m m' : Machine}
  {ts : List (Task × Machine)} {r : SliceEnd}

theorem thunksFrom_fresh (clock : Clock) (fuel : Nat) (t : Task) (n : Nat) (m : Machine) :
    thunksFrom clock (fuel + 1) true t n m = (t, m) :: thunksFrom clock (fuel + 1) false t n m :=
  rfl

/-- What a slice does in the middle of a thunk that `t` goes on with, when it has completed `n`
steps: the end `r` is where the run in one go gets to after the thunks `ts` that follow. -/
structure Cuts (t : Task) (m : Machine) (n : Nat) (ts : List (Task × Machine)) (r : SliceEnd) :
    Prop where
  uncancelled : r.slice ≠ .cancelled
  pending : r.slice = .yielded → ∃ s, r.pending = some s
  steps : r.steps + r.slice.incomplete = n + 1 + ts.length
  course : ∃ k, ∀ j, t.course m (k + j + 1) =
    ((r.slice.course r.pending r.machine j).1,
      ts ++ (r.slice.course r.pending r.machine j).2)

theorem Cuts.through (hstep : t.perform m = .ok (.through u) m') (h : Cuts u m' n ts r) :
    Cuts t m n ts r where
  uncancelled := h.uncancelled
  pending := h.pending
  steps := h.steps
  course := by
    obtain ⟨k, hk⟩ := h.course
    refine ⟨k + 1, fun j => ?_⟩
    rw [Task.course_of_through hstep, Nat.add_right_comm, hk]

theorem Cuts.bounce (hstep : t.perform m = .ok (.bounce u) m') (h : Cuts u m' (n + 1) ts r) :
    Cuts t m n ((u, m') :: ts) r where
  uncancelled := h.uncancelled
  pending := h.pending
  steps := by
    rw [h.steps, List.length_cons]
    omega
  course := by
    obtain ⟨k, hk⟩ := h.course
    refine ⟨k + 1, fun j => ?_⟩
    rw [Task.course_of_bounce hstep, Nat.add_right_comm, Step.course_bounce_succ, hk]
    rfl

theorem sliceFrom_cuts (h : (sliceFrom clock fuel t n m).slice ≠ .outOfFuel) :
    Cuts t m n (thunksFrom clock fuel false t n m) (sliceFrom clock fuel t n m) := by
  induction fuel generalizing t n m with
  | zero => exact absurd rfl h
  | succ fuel ih =>
    simp only [sliceFrom, thunksFrom, Bool.false_eq_true, if_false, List.nil_append] at h ⊢
    cases hstep : t.perform m with
    | error e m' =>
      exact ⟨nofun, nofun, rfl, 0, fun j => Task.course_of_error hstep _⟩
    | ok s m' =>
      rw [hstep] at h
      cases s with
      | through u => exact (ih h).through hstep
      | bounce u =>
        simp only at h ⊢
        by_cases hover : isOver clock (n + 1) = true
        · -- The slice ends here, with the next thunk pending.
          rw [if_pos hover, if_pos hover]
          refine ⟨nofun, fun _ => ⟨_, rfl⟩, rfl, 0, fun j => ?_⟩
          rw [Nat.zero_add, Task.course_of_bounce hstep]
          rfl
        · rw [if_neg hover] at h
          rw [if_neg hover, if_neg hover]
          -- There is fuel left, so the next thunk is executed.
          cases fuel with
          | zero => exact absurd rfl h
          | succ fuel => exact (ih h).bounce hstep
      | done v =>
        simp only
        by_cases hover : isOver clock (n + 1) = true
        · rw [if_pos hover]
          refine ⟨nofun, fun _ => ⟨_, rfl⟩, rfl, 0, fun j => ?_⟩
          rw [Nat.zero_add, Task.course_of_done hstep]
          rfl
        · rw [if_neg hover]
          refine ⟨nofun, nofun, rfl, 0, fun j => ?_⟩
          rw [Nat.zero_add, Task.course_of_done hstep]
          rfl

theorem sliceFrom_outOfFuel (h : (sliceFrom clock fuel t n m).slice = .outOfFuel) :
    t.drive fuel m = .ok none (sliceFrom clock fuel t n m).machine := by
  induction fuel generalizing t n m with
  | zero => rfl
  | succ fuel ih =>
    rw [Task.drive_succ]
    simp only [sliceFrom] at h ⊢
    cases hstep : t.perform m with
    | error e m' => simp [hstep] at h
    | ok s m' =>
      rw [hstep] at h
      cases s with
      | through u => exact ih h
      | bounce u =>
        simp only at h ⊢
        by_cases hover : isOver clock (n + 1) = true
        · simp [hover] at h
        · rw [if_neg hover] at h ⊢
          exact ih h
      | done v =>
        simp only at h
        split at h <;> cases h

end OneSlice

/-! ## Slices -/

/-- What slices of a run from `s` have come to, when `n` steps had been completed before: where the
run in one go gets to after the thunks that they executed. -/
structure Progress.Follows (p : Progress) (fuel : Nat) (s : Step) (m : Machine) (n : Nat) :
    Prop where
  uncancelled : p.trampoline.cancelled = false ∧ p.slice ≠ .cancelled
  pending : p.slice = .yielded → ∃ s', p.trampoline.pending = some s'
  steps : p.slice ≠ .outOfFuel → p.trampoline.steps + p.slice.incomplete = n + p.thunks.length
  course : p.slice ≠ .outOfFuel →
    (s.course m).LeadsTo p.thunks (p.slice.course p.trampoline.pending p.machine)
  unfinished : p.slice = .outOfFuel → ∃ k ≥ fuel, s.drive k m = .ok none p.machine

section Slices

variable {clock : Clock} {clocks : Nat → Clock} {fuel n count : Nat} {s : Step} {m : Machine}
  {p : Progress} {e : Error}

theorem follows_task (clock : Clock) (fuel n : Nat) (t : Task) (m : Machine) :
    Progress.Follows
      ⟨(sliceFrom clock fuel t 0 m).slice,
        ⟨(sliceFrom clock fuel t 0 m).pending, n + (sliceFrom clock fuel t 0 m).steps, false⟩,
        (sliceFrom clock fuel t 0 m).machine, thunksFrom clock fuel true t 0 m⟩
      fuel (.bounce t) m n := by
  by_cases hfuel : (sliceFrom clock fuel t 0 m).slice = .outOfFuel
  · refine ⟨⟨rfl, ?_⟩, ?_, fun h => absurd hfuel h, fun h => absurd hfuel h,
      fun _ => ⟨fuel, Nat.le_refl _, sliceFrom_outOfFuel hfuel⟩⟩
    · rw [hfuel]
      nofun
    · rw [hfuel]
      nofun
  · have hcuts := sliceFrom_cuts hfuel
    cases fuel with
    | zero => exact absurd rfl hfuel
    | succ fuel =>
      refine ⟨⟨rfl, hcuts.uncancelled⟩, hcuts.pending, fun _ => ?_, fun _ => ?_,
        fun h => absurd h hfuel⟩
      · have hsteps := hcuts.steps
        simp only [thunksFrom_fresh, List.length_cons]
        omega
      · obtain ⟨k, hk⟩ := hcuts.course
        refine ⟨k + 1, fun j => ?_⟩
        rw [Nat.add_right_comm, Step.course_bounce_succ, hk]
        rfl

theorem oneSlice_follows (clock : Clock) (fuel n : Nat) (s : Step) (m : Machine) :
    (oneSlice clock fuel ⟨some s, n, false⟩ m).Follows fuel s m n := by
  cases s with
  | done v => exact ⟨⟨rfl, nofun⟩, nofun, fun _ => rfl, fun _ => .refl _, nofun⟩
  | bounce t => exact follows_task clock fuel n t m
  | through t =>
    have h := follows_task clock fuel n t m
    exact ⟨h.uncancelled, h.pending, h.steps, h.course, h.unfinished⟩

theorem eq_of_pending {t : Trampoline} (hpending : t.pending = some s)
    (huncancelled : t.cancelled = false) : t = ⟨some s, t.steps, false⟩ := by
  rw [← hpending, ← huncancelled]

theorem Progress.Follows.trans {q : Progress} {s' : Step} (hp : p.Follows fuel s m n)
    (hyield : p.slice = .yielded) (hpending : p.trampoline.pending = some s')
    (hq : q.Follows fuel s' p.machine p.trampoline.steps) :
    Progress.Follows { q with thunks := p.thunks ++ q.thunks } fuel s m n := by
  have hfuel : p.slice ≠ .outOfFuel := by
    rw [hyield]
    nofun
  have hcourse := hp.course hfuel
  rw [hyield, hpending] at hcourse
  refine ⟨hq.uncancelled, hq.pending, fun h => ?_, fun h => hcourse.trans (hq.course h),
    fun h => ?_⟩
  · have hsteps := hp.steps hfuel
    have hsteps' := hq.steps h
    rw [hyield] at hsteps
    simp only [Slice.incomplete, Nat.add_zero] at hsteps
    simp only [List.length_append]
    omega
  · obtain ⟨k, hk, hdrive⟩ := hq.unfinished h
    obtain ⟨l, hl⟩ := hcourse
    exact ⟨l + k, by omega, (congrArg Prod.fst (hl k)).trans hdrive⟩

theorem runSlices_follows (fuel count n : Nat) (clocks : Nat → Clock) (s : Step) (m : Machine) :
    (runSlices fuel count clocks ⟨some s, n, false⟩ m).Follows fuel s m n := by
  induction count generalizing clocks s n m with
  | zero => exact ⟨⟨rfl, nofun⟩, fun _ => ⟨s, rfl⟩, fun _ => rfl, fun _ => .refl _, nofun⟩
  | succ count ih =>
    have hfirst := oneSlice_follows (clocks 0) fuel n s m
    simp only [runSlices]
    split
    case h_1 hyield =>
      obtain ⟨s', hpending⟩ := hfirst.pending hyield
      refine hfirst.trans hyield hpending ?_
      rw [eq_of_pending hpending hfirst.uncancelled.1]
      exact ih _ _ _ _
    case h_2 => exact hfirst

theorem Progress.Follows.of_yielded (h : p.Follows fuel s m 0) (hslice : p.slice = .yielded) :
    p.trampoline.steps = p.thunks.length ∧
      ∃ s', p.trampoline.pending = some s' ∧
        (s.course m).LeadsTo p.thunks (s'.course p.machine) := by
  have hsteps := h.steps (by rw [hslice]; nofun)
  have hcourse := h.course (by rw [hslice]; nofun)
  obtain ⟨s', hpending⟩ := h.pending hslice
  rw [hslice, hpending] at hcourse
  rw [hslice, Nat.zero_add] at hsteps
  exact ⟨hsteps, s', hpending, hcourse⟩

theorem Progress.Follows.of_finished {v : Value} (h : p.Follows fuel s m 0)
    (hslice : p.slice = .finished v) : p.trampoline.steps = p.thunks.length ∧
      ∃ k, s.drive k m = .ok (some v) p.machine ∧ s.thunks k m = p.thunks := by
  have hsteps := h.steps (by rw [hslice]; nofun)
  obtain ⟨k, hk⟩ := h.course (by rw [hslice]; nofun)
  rw [hslice] at hk
  rw [hslice, Nat.zero_add] at hsteps
  have hend := hk 0
  exact ⟨hsteps, k, congrArg Prod.fst hend, (congrArg Prod.snd hend).trans (List.append_nil _)⟩

theorem Progress.Follows.of_failed (h : p.Follows fuel s m 0) (hslice : p.slice = .failed e) :
    p.trampoline.steps + 1 = p.thunks.length ∧
      ∃ k, s.drive k m = .error e p.machine ∧ s.thunks k m = p.thunks := by
  have hsteps := h.steps (by rw [hslice]; nofun)
  obtain ⟨k, hk⟩ := h.course (by rw [hslice]; nofun)
  rw [hslice] at hk
  rw [hslice, Nat.zero_add] at hsteps
  have hend := hk 0
  exact ⟨hsteps, k, congrArg Prod.fst hend, (congrArg Prod.snd hend).trans (List.append_nil _)⟩

theorem Progress.Follows.ended {p : Progress} {k : Nat} (h : p.Follows fuel s m 0)
    (hended : ∀ m', s.drive k m ≠ .ok none m') (hfuel : p.slice ≠ .outOfFuel)
    (hyield : p.slice ≠ .yielded) :
    (∃ v, p.slice = .finished v ∧ s.drive k m = .ok (some v) p.machine ∧
        s.thunks k m = p.thunks) ∨
      ∃ e, p.slice = .failed e ∧ s.drive k m = .error e p.machine ∧ s.thunks k m = p.thunks := by
  cases hslice : p.slice with
  | finished v =>
    obtain ⟨-, l, hdrive, hthunks⟩ := h.of_finished hslice
    have hsame : s.course m k = s.course m l := Step.course_unique hended (by rw [hdrive]; nofun)
    exact .inl ⟨v, rfl, (congrArg Prod.fst hsame).trans hdrive,
      (congrArg Prod.snd hsame).trans hthunks⟩
  | failed e =>
    obtain ⟨-, l, hdrive, hthunks⟩ := h.of_failed hslice
    have hsame : s.course m k = s.course m l := Step.course_unique hended (by rw [hdrive]; nofun)
    exact .inr ⟨e, rfl, (congrArg Prod.fst hsame).trans hdrive,
      (congrArg Prod.snd hsame).trans hthunks⟩
  | cancelled => exact absurd hslice h.uncancelled.2
  | yielded => exact absurd hslice hyield
  | outOfFuel => exact absurd hslice hfuel

theorem thunks_ne_nil_of_yielded (h : (oneSlice clock fuel ⟨some s, n, false⟩ m).slice = .yielded) :
    (oneSlice clock fuel ⟨some s, n, false⟩ m).thunks ≠ [] := by
  cases s with
  | done v => cases h
  | bounce t | through t =>
    cases fuel with
    | zero => cases h
    | succ fuel => exact List.cons_ne_nil _ _

theorem count_le_of_yielded
    (h : (runSlices fuel count clocks ⟨some s, n, false⟩ m).slice = .yielded) :
    count ≤ (runSlices fuel count clocks ⟨some s, n, false⟩ m).thunks.length := by
  induction count generalizing clocks s n m with
  | zero => exact Nat.zero_le _
  | succ count ih =>
    simp only [runSlices] at h ⊢
    split
    case h_1 hyield =>
      rw [hyield] at h
      have hfirst := oneSlice_follows (clocks 0) fuel n s m
      obtain ⟨s', hpending⟩ := hfirst.pending hyield
      have hthunks := List.length_pos_iff.2 (thunks_ne_nil_of_yielded hyield)
      rw [eq_of_pending hpending hfirst.uncancelled.1] at h ⊢
      have hrest := ih h
      simp only [List.length_append]
      omega
    case h_2 hother =>
      split at h
      case h_1 hyield => exact absurd hyield hother
      case h_2 => exact absurd h hother

/-- With enough fuel for each, and more slices than the run has thunks, slices get to the end of
a run that ends. -/
theorem slice_of_ended {k : Nat} (hended : ∀ m', s.drive k m ≠ .ok none m') (hfuel : k ≤ fuel)
    (hcount : (s.thunks k m).length < count) :
    (runSlices fuel count clocks ⟨some s, 0, false⟩ m).slice ≠ .outOfFuel ∧
      (runSlices fuel count clocks ⟨some s, 0, false⟩ m).slice ≠ .yielded := by
  have hfollows := runSlices_follows fuel count 0 clocks s m
  refine ⟨fun hslice => ?_, fun hslice => ?_⟩
  · obtain ⟨l, hl, hdrive⟩ := hfollows.unfinished hslice
    -- The run had ended after fewer tasks than that.
    have hlater := congrArg Prod.fst (Step.course_add hended (l - k))
    rw [Nat.add_sub_cancel' (Nat.le_trans hfuel hl)] at hlater
    exact hended _ (hlater.symm.trans hdrive)
  · have hmany := count_le_of_yielded hslice
    obtain ⟨l, hl⟩ := hfollows.course (by rw [hslice]; nofun)
    -- All the thunks that the slices executed are thunks of the run.
    have hthunks := congrArg Prod.snd ((hl k).symm.trans
      ((Nat.add_comm l k ▸ Step.course_add hended l)))
    have hlength := congrArg List.length hthunks
    simp only [List.length_append] at hlength
    have hrun : ((s.course m k).2).length = (s.thunks k m).length := rfl
    omega

/-- A run in slices that ends in an error has come to a task that fails, or was cancelled where the
run in one go would be after some tasks. -/
theorem exists_drive_of_runSliced {hook : Nat → Bool} {slices yields yields' : Nat} {m' : Machine}
    (h : runSliced clocks hook fuel slices yields ⟨some s, n, false⟩ m =
      (some (.error e), yields', m')) :
    ∃ k, s.drive k m = .error e m' ∨ e = .cancelled ∧ ∃ o, s.drive k m = .ok o m' := by
  induction slices generalizing s n m yields with
  | zero => cases h
  | succ slices ih =>
    have hfirst := oneSlice_follows (clocks yields) fuel n s m
    generalize hp : oneSlice (clocks yields) fuel ⟨some s, n, false⟩ m = p at hfirst
    have hslice : runSlice (clocks yields) fuel ⟨some s, n, false⟩ m =
        (p.slice, p.trampoline, p.machine) := by rw [← hp]; rfl
    rw [runSliced, hslice] at h
    have hcourse := hfirst.course
    cases hend : p.slice with
    | finished v | outOfFuel =>
      rw [hend] at h
      cases h
    | cancelled => exact absurd hend hfirst.uncancelled.2
    | failed er =>
      rw [hend] at h hcourse
      cases h
      obtain ⟨k, hk⟩ := hcourse nofun
      exact ⟨k, .inl (congrArg Prod.fst (hk 0))⟩
    | yielded =>
      obtain ⟨s', hpending⟩ := hfirst.pending hend
      rw [hend] at h
      rw [hend, hpending] at hcourse
      -- The slice has got as far as some tasks of the run in one go; the rest is like a new run.
      obtain ⟨l, hl⟩ := hcourse nofun
      have hdrive (j : Nat) : s.drive (l + j) m = s'.drive j p.machine := congrArg Prod.fst (hl j)
      rw [eq_of_pending hpending hfirst.uncancelled.1] at h
      simp only at h
      by_cases hhook : hook (yields + 1) = true
      · -- The next slice, if there is one, finds the flag set.
        rw [if_pos hhook] at h
        cases slices with
        | zero => cases h
        | succ slices =>
          cases h
          refine ⟨l, .inr ⟨rfl, ?_⟩⟩
          have hnow := hdrive 0
          cases s' with
          | done v => exact ⟨some v, hnow⟩
          | bounce t | through t => exact ⟨none, hnow⟩
      · rw [if_neg hhook] at h
        obtain ⟨k, hk⟩ := ih h
        rw [← hdrive] at hk
        exact ⟨l + k, hk⟩

end Slices

/-- Cutting a run into slices is invisible. Slices by any clocks, without a cancellation, are at
each moment where the run in one go gets to after the same thunks, and they end as it ends if it
does. After a cancellation nothing is executed any more. -/
theorem slicing_is_invisible (clocks : Nat → Clock) (s : Step) (m : Machine) :
    (∀ fuel count,
      let p := runSlices fuel count clocks (ofStep s) m
      match p.slice with
      | .yielded => p.trampoline.steps = p.thunks.length ∧
          ∃ s', p.trampoline.pending = some s' ∧ ∃ k, ∀ j,
            s.drive (k + j) m = s'.drive j p.machine ∧
              s.thunks (k + j) m = p.thunks ++ s'.thunks j p.machine
      | .finished v => p.trampoline.steps = p.thunks.length ∧
          ∃ k, s.drive k m = .ok (some v) p.machine ∧ s.thunks k m = p.thunks
      | .failed e => p.trampoline.steps + 1 = p.thunks.length ∧
          ∃ k, s.drive k m = .error e p.machine ∧ s.thunks k m = p.thunks
      | .outOfFuel => ∃ k ≥ fuel, s.drive k m = .ok none p.machine
      | .cancelled => False) ∧
    (∀ k fuel count, k ≤ fuel → (s.thunks k m).length < count →
      let p := runSlices fuel count clocks (ofStep s) m
      match s.drive k m with
      | .ok (some v) m' => p.slice = .finished v ∧ p.machine = m' ∧ p.thunks = s.thunks k m
      | .error e m' => p.slice = .failed e ∧ p.machine = m' ∧ p.thunks = s.thunks k m
      | .ok none _ => True) ∧
    ∀ (t : Trampoline) (clock : Clock) (fuel : Nat) (m : Machine), t.cancelled = true →
      let p := t.oneSlice clock fuel m
      p.slice = .cancelled ∧ p.trampoline.cancelled = true ∧ p.trampoline.steps = t.steps ∧
        p.machine = m ∧ p.thunks = [] := by
  refine ⟨fun fuel count => ?_, fun k fuel count hfuel hcount => ?_, fun t clock fuel m ht => ?_⟩
  · have hfollows := runSlices_follows fuel count 0 clocks s m
    simp only [ofStep]
    split
    case h_1 hslice =>
      obtain ⟨hsteps, s', hpending, k, hk⟩ := hfollows.of_yielded hslice
      exact ⟨hsteps, s', hpending, k, fun j => Prod.ext_iff.1 (hk j)⟩
    case h_2 v hslice => exact hfollows.of_finished hslice
    case h_3 e hslice => exact hfollows.of_failed hslice
    case h_4 hslice => exact hfollows.unfinished hslice
    case h_5 hslice => exact hfollows.uncancelled.2 hslice
  · have hfollows := runSlices_follows fuel count 0 clocks s m
    simp only [ofStep]
    -- If the run is not over after so many tasks, nothing is claimed.
    by_cases hended : ∀ m', s.drive k m ≠ .ok none m'
    · obtain ⟨hout, hyield⟩ := slice_of_ended hended hfuel hcount
      rcases hfollows.ended hended hout hyield with ⟨v, hslice, hdrive, hthunks⟩ |
        ⟨e, hslice, hdrive, hthunks⟩
      · rw [hdrive]
        exact ⟨hslice, rfl, hthunks.symm⟩
      · rw [hdrive]
        exact ⟨hslice, rfl, hthunks.symm⟩
    · obtain ⟨m', hrun⟩ := Classical.not_forall_not.1 hended
      rw [hrun]
      trivial
  · simp [oneSlice, runSlice, sliceThunks, ht]

end Trampoline

end Chance
