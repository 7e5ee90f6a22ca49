import Chance.Proofs.Machine.Discipline

/-!
# Runs under other coroutines

A program runs above coroutines that are not part of it. What happens above them is up to the
machine. What they are asked is theirs to answer: a coroutine gets a continuation and may resume it,
or one that it got before, with a value of its own, or never.

- `Task.ask?`: what a task asks of the coroutines below all enumerations,
- `Trace`: the runs of a program under any such coroutines,
- `Trace.perform`: the machine's own coroutines are among them.
-/

namespace Chance

/-! ## Questions -/

inductive Question where
  | sample (d : Dist) (options : Value)
  | factor (x : Float)

def Question.channel : Question → Channel
  | sample .. => .sample
  | factor _ => .factor

/-- A question to a coroutine, and where the run goes on with the answer. -/
structure Ask where
  question : Question
  address : String
  k : Value

namespace Ask

def site (q : Ask) : Site :=
  (q.question.channel, q.address)

/-- Asks the innermost coroutine. -/
def pose (q : Ask) : Exec Step :=
  match q.question with
  | .sample d options => sampleAt q.k q.address d options
  | .factor x => factorAt q.k q.address x

end Ask

/-- What the task asks of coroutines that do not treat samples with an extra score in a way of their
own, and the state in which it asks, which differs by new identities only. -/
def Task.ask? (t : Task) (m : Machine) : Option (Ask × Machine) :=
  match t with
  | .call (.builtin .sample) args =>
    match callerOf args, (argument args 2).toDist with
    | .ok (k, a), .ok d => some (⟨.sample d (argument args 3), a, k⟩, m)
    | _, _ => none
  | .call (.builtin .factor) args =>
    match callerOf args, numberArgument args 2 with
    | .ok (k, a), .ok x => some (⟨.factor x, a, k⟩, m)
    | _, _ => none
  | .call (.builtin .sampleWithFactor) args =>
    match callerOf args, (argument args 2).toDist with
    | .ok (k, a), .ok d =>
      some (⟨.sample d .undefined, a, .cont m.nextId (.drawn k a (argument args 3))⟩,
        { m with nextId := m.nextId + 1 })
    | _, _ => none
  | .call (.cont _ (.scored k a v)) args =>
    match (argument args 0).toNumber with
    | .ok x =>
      some (⟨.factor x, a, .cont m.nextId (.weighted k v)⟩, { m with nextId := m.nextId + 1 })
    | .error _ => none
  | _ => none

/-- The tasks that ask something. -/
inductive Poses : Task → Machine → Ask → Machine → Prop
  | sample {args : List Value} {k : Value} {a : String} {d : Dist} {m : Machine} :
      callerOf args = .ok (k, a) → (argument args 2).toDist = .ok d →
      Poses (.call (.builtin .sample) args) m ⟨.sample d (argument args 3), a, k⟩ m
  | factor {args : List Value} {k : Value} {a : String} {x : Float} {m : Machine} :
      callerOf args = .ok (k, a) → numberArgument args 2 = .ok x →
      Poses (.call (.builtin .factor) args) m ⟨.factor x, a, k⟩ m
  | drawn {args : List Value} {k : Value} {a : String} {d : Dist} {m : Machine} :
      callerOf args = .ok (k, a) → (argument args 2).toDist = .ok d →
      Poses (.call (.builtin .sampleWithFactor) args) m
        ⟨.sample d .undefined, a, .cont m.nextId (.drawn k a (argument args 3))⟩
        { m with nextId := m.nextId + 1 }
  | scored {args : List Value} {i : Nat} {k v : Value} {a : String} {x : Float} {m : Machine} :
      (argument args 0).toNumber = .ok x →
      Poses (.call (.cont i (.scored k a v)) args) m
        ⟨.factor x, a, .cont m.nextId (.weighted k v)⟩ { m with nextId := m.nextId + 1 }

theorem Task.poses_of_ask? {t : Task} {m n : Machine} {q : Ask} (h : t.ask? m = some (q, n)) :
    Poses t m q n := by
  unfold Task.ask? at h
  split at h
  · split at h
    · next hcaller hd =>
      cases h
      exact .sample hcaller hd
    · cases h
  · split at h
    · next hcaller hx =>
      cases h
      exact .factor hcaller hx
    · cases h
  · split at h
    · next hcaller hd =>
      cases h
      exact .drawn hcaller hd
    · cases h
  · split at h
    · next hx =>
      cases h
      exact .scored hx
    · cases h
  · cases h

section Questions

variable {S : List Coroutine} {T : Set Site} {t : Task} {q : Ask} {m n : Machine}

theorem Poses.perform_eq (hS : Bare m.stack) (h : Poses t m q n) : t.perform m = q.pose n := by
  cases h with
  | sample hcaller hd =>
    simp only [Task.perform, applyValue, Builtin.run, hcaller, hd]
    rfl
  | factor hcaller hx =>
    simp only [Task.perform, applyValue, Builtin.run, hcaller, hx]
    rfl
  | @drawn args k a d m hcaller hd =>
    simp only [Task.perform, applyValue, Builtin.run, hcaller, hd]
    change sampleWithFactorAt k a d (argument args 3) m = _
    unfold sampleWithFactorAt
    rw [currentCoroutine_bind]
    rcases hS.head? with hhead | ⟨i, hhead⟩ <;> rw [hhead] <;> rfl
  | scored hx =>
    simp only [Task.perform, applyValue, Cont.receive, hx]
    rfl

theorem Task.Fits.of_builtin {b : Builtin} {args : List Value} {k : Value} {a : String}
    (ht : Task.Fits [] T (.call (.builtin b) args)) (hcaller : callerOf args = .ok (k, a)) :
    ∃ G vs, args = k :: .str a :: vs ∧ ValuesHeld vs ∧ Continues [] G k ∧ Disjoint (Below a) G ∧
      Below a ∪ G ⊆ T := by
  cases ht with
  | call _ hk hvs hapart hwithin =>
    cases hcaller
    rw [shown_nil] at hapart hwithin
    exact ⟨_, _, rfl, hvs, hk, hapart, hwithin⟩
  | resume hk => cases hk

/-- A task that fits asks at a site of its own, at which the run does not ask again once it goes on
with the answer. -/
theorem Poses.fits (hm : m.Held) (ht : t.Fits [] T) (h : Poses t m q n) :
    q.site ∈ T ∧ m.Settles n ∧ ∃ G ⊆ T, q.site ∉ G ∧ Continues [] G q.k := by
  have hnext : m.Settles { m with nextId := m.nextId + 1 } :=
    ⟨rfl, Nat.le_succ _, hm.store, hm.tables⟩
  cases h with
  | sample hcaller | factor hcaller =>
    obtain ⟨G, vs, rfl, _, hk, hapart, hwithin⟩ := ht.of_builtin hcaller
    exact ⟨hwithin (.inl (mem_below_self _ _)), hm.settles, G, Set.subset_union_right.trans hwithin,
      Set.disjoint_left.1 hapart (mem_below_self _ _), hk⟩
  | @drawn args k a d m hcaller =>
    obtain ⟨G, vs, rfl, hvs, hk, hapart, hwithin⟩ := ht.of_builtin hcaller
    have hfactor := Set.union_subset_union_left G (factor_below_subset a)
    refine ⟨hwithin (.inl (mem_below_self _ _)), hnext,
      insert (.factor, a) (Below (subaddress a "sf")) ∪ G, hfactor.trans hwithin, ?_, ?_⟩
    · rintro ((heq | hbelow) | hG)
      · cases heq
      · exact not_mem_below_subaddress _ _ _ hbelow
      · exact Set.disjoint_left.1 hapart (mem_below_self _ _) hG
    · refine .drawn hk (argument_held hvs 1) ?_ ?_ <;> rw [shown_nil]
      exact hapart
  | scored hx =>
    cases ht with
    | call hf => cases hf
    | resume hk hv =>
      cases hk with
      | scored hk hv' hapart hwithin =>
        rw [shown_nil] at hapart hwithin
        exact ⟨hwithin (.inl rfl), hnext, _, Set.subset_union_right.trans hwithin,
          Set.disjoint_left.1 hapart rfl, .weighted hk hv' subset_rfl⟩

/-- A program can hold what the question is about. -/
def Question.Held : Question → Prop
  | sample d _ => d.Held
  | factor _ => True

theorem Poses.question_held (ht : t.Fits [] T) (h : Poses t m q n) : q.question.Held := by
  cases h with
  | sample hcaller hd | drawn hcaller hd =>
    obtain ⟨G, vs, rfl, hvs, _⟩ := ht.of_builtin hcaller
    exact held_inherited.toDist (argument_held hvs 0) hd
  | factor | scored => trivial

theorem Ask.pose_resumes (hS : Bare m.stack) (hm : m.Held) (hq : q.question.Held) :
    q.pose.Stays (Step.Resumes q.k) m := by
  obtain ⟨question, address, k⟩ := q
  cases question with
  | sample d options => exact sampleAt_resumes hS hm hq k address options
  | factor x => exact factorAt_resumes hS hm k address x

end Questions

/-! ## Traces -/

/-- A step of the machine: the state before it, what is to be done next, and the state after it. -/
structure Transition where
  before : Machine
  task : Task
  after : Machine

/-- What has happened so far, the latest first, and the continuations that the coroutines may still
resume. -/
structure History where
  steps : List Transition
  asked : List Site
  pending : List Value

/-- The runs of a program above the coroutines `S`, whatever these answer. Without a task it is up
to them to go on. If `reuse` is false they resume each continuation once at most. -/
inductive Trace (S : List Coroutine) (reuse : Bool) (p : Program) :
    History → Option Task → Machine → Prop
  | start {i : Nat} {s : Step} {t : Task} {m m' : Machine} : m.stack = S → m.Held →
      p.start (.cont i .exit) m = .ok s m' → s.task? = some t →
      Trace S reuse p ⟨[], [], []⟩ (some t) m'
  | step {h : History} {s : Step} {t t' : Task} {m m' : Machine} : Trace S reuse p h (some t) m →
      (m.stack = S → t.ask? m = none) → t.perform m = .ok s m' → s.task? = some t' →
      Trace S reuse p ⟨⟨m, t', m'⟩ :: h.steps, h.asked, h.pending⟩ (some t') m'
  | ask {h : History} {t : Task} {m m' : Machine} {q : Ask} : Trace S reuse p h (some t) m →
      m.stack = S → t.ask? m = some (q, m') →
      Trace S reuse p ⟨h.steps, q.site :: h.asked, q.k :: h.pending⟩ none m'
  | answer {h : History} {m m' : Machine} {before after : List Value} {k v : Value} :
      Trace S reuse p h none m → h.pending = before ++ k :: after → v.Held → m.Settles m' →
      Trace S reuse p ⟨h.steps, h.asked, if reuse then h.pending else before ++ after⟩
        (some (.call k [v])) m'

/-! ## The machine's own coroutines -/

/-- The sites at which a task asks if just so many coroutines are installed. -/
def Task.asks (depth : Nat) (t : Task) (m : Machine) : List Site :=
  if m.depth = depth then ((t.ask? m).map fun q => q.1.site).toList else []

/-- The sites at which the machine asks in so many steps, the latest first. -/
def Task.asked (depth : Nat) : Nat → Task → Machine → List Site
  | 0, _, _ => []
  | fuel + 1, t, m =>
    match t.perform m with
    | .ok (.bounce t') m' | .ok (.through t') m' => asked depth fuel t' m' ++ t.asks depth m
    | _ => t.asks depth m

/-- The sites at which the machine asks in so many steps of a compiled program. -/
def Program.asked (depth fuel : Nat) (p : Program) (m : Machine) : List Site :=
  match p.start (.cont m.nextId .exit) { m with nextId := m.nextId + 1 } with
  | .ok (.bounce t) m' | .ok (.through t) m' => t.asked depth fuel m'
  | _ => []

section Machines

variable {S : List Coroutine} {T : Set Site} {σ : List Nat} {reuse : Bool} {p : Program}
  {h : History} {t : Task} {m : Machine}

theorem asks_eq_of_base (hstack : m.stack = S) :
    t.asks S.length m = ((t.ask? m).map fun q => q.1.site).toList := by
  rw [Task.asks, if_pos (by rw [Machine.depth, hstack])]

theorem asks_eq_nil (hsuffix : S <:+ m.stack) (hstack : m.stack ≠ S) : t.asks S.length m = [] := by
  refine if_neg fun hdepth => hstack ?_
  exact (hsuffix.eq_of_length hdepth.symm).symm

/-- A step of the machine is a step of a run under some coroutines. -/
theorem Trace.perform (hS : Bare S) (htrace : Trace S reuse p h (some t) m)
    (hready : Ready S T σ t m) {s : Step} {t' : Task} {m' : Machine}
    (hstep : t.perform m = .ok s m') (hs : s.task? = some t') :
    ∃ h', Trace S reuse p h' (some t') m' ∧ h'.asked = t.asks S.length m ++ h.asked := by
  by_cases hstack : m.stack = S
  · rw [asks_eq_of_base hstack]
    cases hask : t.ask? m with
    | none => exact ⟨_, htrace.step (fun _ => hask) hstep hs, rfl⟩
    | some qn =>
      obtain ⟨q, n⟩ := qn
      have hposes := Task.poses_of_ask? hask
      obtain rfl := hready.base hS hstack
      have htask := hready.task
      rw [shown_nil] at htask
      obtain ⟨_, hn, _⟩ := hposes.fits hready.machine.held htask
      have hbare : Bare n.stack := by rwa [hn.stack, hstack]
      have hresumes := q.pose_resumes hbare hn.held (hposes.question_held htask)
      unfold Exec.Stays at hresumes
      rw [← hposes.perform_eq (by rwa [hstack]), hstep] at hresumes
      obtain ⟨⟨v, rfl, hv⟩, hm'⟩ := hresumes
      cases hs
      have hpending : q.k :: h.pending = [] ++ q.k :: h.pending := rfl
      exact ⟨_, (htrace.ask hstack hask).answer hpending hv hm', rfl⟩
  · rw [asks_eq_nil hready.machine.tower.suffix hstack]
    exact ⟨_, htrace.step (fun heq => absurd heq hstack) hstep hs, rfl⟩

theorem Trace.exists_asked (hS : Bare S) (fuel : Nat) (htrace : Trace S reuse p h (some t) m)
    (hready : Ready S T σ t m) :
    ∃ h' c m', Trace S reuse p h' c m' ∧ h'.asked = t.asked S.length fuel m ++ h.asked := by
  induction fuel generalizing σ h t m with
  | zero => exact ⟨h, some t, m, htrace, rfl⟩
  | succ fuel ih =>
    have hnext {s : Step} {t' : Task} {m' : Machine} (hstep : t.perform m = .ok s m')
        (hs : s.task? = some t') : ∃ h' c m'', Trace S reuse p h' c m'' ∧
          h'.asked = (t'.asked S.length fuel m' ++ t.asks S.length m) ++ h.asked := by
      obtain ⟨h', htrace', hasked⟩ := htrace.perform hS hready hstep hs
      obtain ⟨σ', hready', _⟩ := hready.next hS hstep hs
      obtain ⟨h'', c, m'', htrace'', hasked'⟩ := ih htrace' hready'
      exact ⟨h'', c, m'', htrace'', by rw [hasked', hasked, List.append_assoc]⟩
    have hlast : ∃ h' c m', Trace S reuse p h' c m' ∧ h'.asked = t.asks S.length m ++ h.asked := by
      by_cases hstack : m.stack = S
      · rw [asks_eq_of_base hstack]
        cases hask : t.ask? m with
        | none => exact ⟨h, some t, m, htrace, rfl⟩
        | some qn => exact ⟨_, none, qn.2, htrace.ask hstack hask, rfl⟩
      · rw [asks_eq_nil hready.machine.tower.suffix hstack]
        exact ⟨h, some t, m, htrace, rfl⟩
    simp only [Task.asked]
    split
    · next hstep => exact hnext hstep rfl
    · next hstep => exact hnext hstep rfl
    · exact hlast

end Machines

/-! ## The start of a run -/

section Start

variable {p q : Program} {m m' : Machine} {F : Set Site}

theorem Program.start_calls (hq : p.compile = .ok q)
    (hnames : ∀ x ∈ stmtsNames p.body, ¬ IsGenerated x) (hm : m.Held) (hF : Below "" ⊆ F)
    (i : Nat) : (q.start (.cont i .exit)).Stays (Step.Calls [] F) m := by
  obtain ⟨name, params, body, hbody, hcode⟩ :=
    p.compile_threaded hq fun x hx => ordinary_of_not_isGenerated (hnames x hx)
  unfold Program.start
  rw [hbody]
  refine .bind (.freshId hm) fun j n _ hn => ?_
  refine enterClosure_function hcode globalEnv_held (.exit : Continues [] ∅ _)
    (List.forall_mem_nil _) (Set.disjoint_empty _) ?_ hn.held
  rwa [shown_nil, Set.union_empty]

theorem Program.start_ready {S : List Coroutine} (hq : p.compile = .ok q)
    (hnames : ∀ x ∈ stmtsNames p.body, ¬ IsGenerated x) (hstack : m.stack = S) (hm : m.Held)
    (hF : Below "" ⊆ F) {i : Nat} {s : Step} {t : Task}
    (hstart : q.start (.cont i .exit) m = .ok s m') (hs : s.task? = some t) :
    m.Settles m' ∧ Ready S F [] t m' ∧ t.entered? = none := by
  have hcalls := p.start_calls hq hnames hm hF i
  unfold Exec.Stays at hcalls
  rw [hstart] at hcalls
  obtain ⟨⟨f, args, rfl, hfits⟩, hm'⟩ := hcalls
  cases hs
  refine ⟨hm', ⟨.of_base hm'.held (hm'.stack.trans hstack), ?_, nofun⟩, rfl⟩
  rwa [shown_nil]

end Start

/-! ## A start under a script -/

/-- A state with a script that makes no choices. -/
def scripted : Machine :=
  (Machine.initial default).installScript []

theorem bare_scripted : Bare scripted.stack := by
  intro e he
  cases List.mem_singleton.1 he

theorem held_scripted : scripted.Held :=
  ⟨nofun, nofun⟩

end Chance
