import Chance.Proofs.Machine.Over

/-!
# Compiled code never gets stuck

A runtime that runs only compiled programs stays over the functions that the form check accepts, and
such functions can always be entered: they end in a call, they call nothing else than primitives in
place, and they assign to the store only.

- `Checked`: the functions that the form check accepts,
- `GoesOn`: computations that do not end the run,
- `Task.perform_safe`, `Program.start_safe`: one step from a state over checked functions,
- `Served`: the tasks of a runtime, whoever answers and however often continuations are called.
-/

namespace Chance

/-! ## Checked functions -/

/-- Functions in continuation-passing form, as the form check accepts them. -/
def Checked : Code := fun name params body =>
  Compile.checkPlain (.func name params body) = .ok () ∧ (Expr.func name params body).Proper

mutual

theorem checkPlain_within :
    ∀ {e : Expr}, Compile.checkPlain e = .ok () → e.Proper → e.Within Checked True
  | .array _, h, hp => checkPlains_within h hp
  | .object _, h, hp => checkFields_within h hp
  | .unary _ e, h, hp => checkPlain_within (e := e) h hp
  | .binary _ _ _, h, hp | .logic _ _ _, h, hp | .member _ _, h, hp => by
    obtain ⟨_, hl, hr⟩ := exists_ok_of_bind h
    exact ⟨checkPlain_within hl hp.1, checkPlain_within hr hp.2⟩
  | .cond _ _ _, h, hp => by
    obtain ⟨_, ht, h⟩ := exists_ok_of_bind h
    obtain ⟨_, hc, ha⟩ := exists_ok_of_bind h
    exact ⟨checkPlain_within ht hp.1, checkPlain_within hc hp.2.1, checkPlain_within ha hp.2.2⟩
  | .call f es, h, hp => by
    simp only [Compile.checkPlain] at h
    split_ifs at h with hprimitive
    obtain ⟨_, hf, hes⟩ := exists_ok_of_bind h
    exact ⟨fun _ => hprimitive, checkPlain_within hf hp.1, checkPlains_within hes hp.2⟩
  | .func _ _ _, h, hp => ⟨h, hp⟩
  | .assign _ _, h, hp => by
    obtain ⟨_, ht, hv⟩ := exists_ok_of_bind h
    exact ⟨fun _ => hp.1, checkPlain_within ht hp.2.1, checkPlain_within hv hp.2.2⟩
  | .num _, _, _ | .str _, _, _ | .bool _, _, _ | .null, _, _ | .undefined, _, _ | .var _, _, _ =>
    trivial

theorem checkPlains_within :
    ∀ {es : List Expr}, Compile.checkPlains es = .ok () → ExprsProper es →
      ExprsWithin Checked True es
  | [], _, _ => trivial
  | _ :: _, h, hp => by
    obtain ⟨_, he, hes⟩ := exists_ok_of_bind h
    exact ⟨checkPlain_within he hp.1, checkPlains_within hes hp.2⟩

theorem checkFields_within :
    ∀ {fs : List (String × Expr)}, Compile.checkFields fs = .ok () → FieldsProper fs →
      FieldsWithin Checked True fs
  | [], _, _ => trivial
  | (_, _) :: _, h, hp => by
    obtain ⟨_, he, hes⟩ := exists_ok_of_bind h
    exact ⟨checkPlain_within he hp.1, checkFields_within hes hp.2⟩

end

theorem checkTail_within :
    ∀ {e : Expr}, Compile.checkTail e = .ok () → e.Proper → e.TailWithin Checked True
  | .cond _ _ _, h, hp => by
    obtain ⟨_, ht, h⟩ := exists_ok_of_bind h
    obtain ⟨_, hc, ha⟩ := exists_ok_of_bind h
    exact ⟨checkPlain_within ht hp.1, checkTail_within hc hp.2.1, checkTail_within ha hp.2.2⟩
  | .call f es, h, hp => by
    simp only [Compile.checkTail] at h
    split_ifs at h with hprimitive
    obtain ⟨_, hf, hes⟩ := exists_ok_of_bind h
    have hcall : f.isPrimitive = false := by simpa using hprimitive
    exact ⟨fun _ => hcall, checkPlain_within hf hp.1, checkPlains_within hes hp.2⟩
  | .array _, h, _ | .object _, h, _ | .unary _ _, h, _ | .binary _ _ _, h, _ | .logic _ _ _, h, _
  | .member _ _, h, _ | .func _ _ _, h, _ | .assign _ _, h, _ | .num _, h, _ | .str _, h, _
  | .bool _, h, _ | .null, h, _ | .undefined, h, _ | .var _, h, _ => by cases h

theorem Checked.body {name : Option String} {params : List String} {body : List Stmt}
    (h : Checked name params body) : ∃ e, body = [.expr e] ∧ e.TailWithin Checked True := by
  obtain ⟨hcheck, _, _, hproper⟩ := h
  cases body with
  | nil => cases hcheck
  | cons s rest =>
    cases s with
    | expr e =>
      cases rest with
      | nil => exact ⟨e, rfl, checkTail_within hcheck hproper.1⟩
      | cons => cases hcheck
    | _ => cases hcheck

theorem Checked.bodyWithin {name : Option String} {params : List String} {body : List Stmt}
    (h : Checked name params body) : BodyWithin Checked True body := by
  obtain ⟨e, rfl, he⟩ := h.body
  refine ⟨?_, fun _ => ⟨e, rfl⟩⟩
  rintro _ ⟨⟩
  exact he

/-- All functions are checked; nothing is said about identities. -/
def Scope.checked : Scope where
  code := Checked
  known _ := True

/-! ## Where runs end -/

/-- The computation does not end the run. -/
def GoesOn (x : Exec Step) : Prop :=
  ∀ m v m', x m ≠ .ok (.done v) m'

namespace GoesOn

theorem bounce (t : Task) : GoesOn (pure (.bounce t)) := nofun

theorem through (t : Task) : GoesOn (pure (.through t)) := nofun

theorem throw (e : Error) : GoesOn (throw e) := nofun

theorem bind {α : Type} {x : Exec α} {f : α → Exec Step} (h : ∀ a, GoesOn (f a)) :
    GoesOn (x >>= f) := by
  intro m v m'
  simp only [Bind.bind, EStateM.bind]
  cases x m with
  | ok a n => exact h a n v m'
  | error e n => exact nofun

end GoesOn

theorem Engine.finish_goesOn (e : Engine) : GoesOn e.finish :=
  .bind fun _ => .bind fun _ => .bind fun _ => .bind fun _ => .bind fun _ => .bounce _

theorem Engine.advance_goesOn (e : Engine) : GoesOn e.advance := by
  unfold Engine.advance
  split
  · exact .bind fun _ => .bind fun _ => .bounce _
  · exact e.finish_goesOn

theorem Engine.leave_goesOn (e : Engine) (v : Value) : GoesOn (e.leave v) := by
  refine .bind fun _ => ?_
  split_ifs
  · exact Engine.advance_goesOn _
  · exact Engine.finish_goesOn _

theorem sampleAt_goesOn (k : Value) (a : String) (d : Dist) (o : Value) :
    GoesOn (sampleAt k a d o) := by
  refine .bind fun c => ?_
  split
  · exact .bind fun _ => .bind fun _ => .bind fun _ => Engine.advance_goesOn _
  · exact .bind fun _ => .bind fun _ => .bounce _
  · exact .bind fun _ => .bind fun _ => .bounce _

theorem factorAt_goesOn (k : Value) (a : String) (x : Float) : GoesOn (factorAt k a x) := by
  refine .bind fun c => ?_
  split
  · refine .bind fun _ => ?_
    split_ifs
    · exact Engine.leave_goesOn _ _
    · exact .bounce _
  · exact .bind fun _ => .bounce _
  · exact .throw _

theorem sampleWithFactorAt_goesOn (k : Value) (a : String) (d : Dist) (f : Value) :
    GoesOn (sampleWithFactorAt k a d f) := by
  refine .bind fun c => ?_
  split
  · exact .bind fun _ => .bind fun _ => .through _
  · exact .bind fun _ => sampleAt_goesOn _ _ _ _

theorem startEnumeration_goesOn (k : Value) (a : String) (thunk : Value)
    (options : EnumerateOptions) : GoesOn (startEnumeration k a thunk options) :=
  .bind fun _ => .bind fun _ => .bind fun _ => .bounce _

theorem gatherCalls_goesOn (how : Gather) (args : List Value) : GoesOn (gatherCalls how args) :=
  .bind fun _ => .bind fun _ => .through _

theorem Builtin.run_goesOn (b : Builtin) (args : List Value) : GoesOn (b.run args) := by
  cases b with
  | map | filter | forEach => exact gatherCalls_goesOn _ args
  | times =>
    refine .bind fun _ => .bind fun _ => ?_
    dsimp only
    split_ifs
    · exact .bind fun _ => .through _
    · exact .through _
  | cache =>
    simp only [Builtin.run, makeCached]
    split_ifs
    · exact .bind fun _ => .bounce _
    · exact .throw _
  | sample => exact .bind fun _ => .bind fun _ => sampleAt_goesOn _ _ _ _
  | factor => exact .bind fun _ => .bind fun _ => factorAt_goesOn _ _ _
  | sampleWithFactor => exact .bind fun _ => .bind fun _ => sampleWithFactorAt_goesOn _ _ _ _
  | incrementalize =>
    refine .bind fun _ => ?_
    dsimp only
    split
    · exact .bind fun _ => .through _
    · exact .bind fun _ => .through _
  | enumerate =>
    refine .bind fun _ => ?_
    dsimp only
    split_ifs
    · exact .bind fun _ => startEnumeration_goesOn _ _ _ _
    · exact .throw _
  | infer => exact .bind fun _ => .bind fun _ => startEnumeration_goesOn _ _ _ _

theorem callCached_goesOn (table : Nat) (f : Value) (args : List Value) :
    GoesOn (callCached table f args) := by
  refine .bind fun _ => ?_
  split
  · exact .bounce _
  · exact .bind fun _ => .through _

theorem Loop.collect_goesOn (l : Loop) (index : Nat) (rest : List Value) (acc item v : Value) :
    GoesOn (l.collect index rest acc item v) := by
  cases l with
  | gather => exact .bounce _
  | weigh => exact .bind fun _ => .bind fun _ => .bind fun _ => .bind fun _ => .bounce _

theorem Loop.iterate_goesOn (l : Loop) (index : Nat) (rest : List Value) (acc : Value) :
    GoesOn (l.iterate index rest acc) := by
  cases l with
  | gather =>
    cases rest with
    | nil => exact .bounce _
    | cons => exact .bind fun _ => .through _
  | weigh =>
    cases rest with
    | nil => exact .bind fun e => e.advance_goesOn
    | cons => exact .bind fun _ => .bind fun _ => .through _

theorem Cont.receive_goesOn {c : Cont} (v : Value) (h : c ≠ .exit) : GoesOn (c.receive v) := by
  cases c with
  | exit => exact absurd rfl h
  | collect => exact Loop.collect_goesOn _ _ _ _ _ _
  | remember => exact .bind fun _ => .bounce _
  | drawn => exact .bind fun _ => .through _
  | scored => exact .bind fun _ => .bind fun _ => factorAt_goesOn _ _ _
  | weighted => exact .bounce _
  | leave => exact .bind fun e => e.leave_goesOn _

theorem evalTail_goesOn {code : Code} {env : Env} :
    ∀ {e : Expr}, e.TailWithin code True → GoesOn (evalTail env e)
  | .cond _ _ _, h => by
    refine .bind fun _ => ?_
    split_ifs
    · exact evalTail_goesOn h.2.1
    · exact evalTail_goesOn h.2.2
  | .call f _, h => by
    have hcall : f.isPrimitive = false := h.1 trivial
    simp only [evalTail, hcall, Bool.false_eq_true, if_false]
    exact .bind fun _ => .bind fun _ => .bounce _
  | .num _, h | .str _, h | .bool _, h | .null, h | .undefined, h | .var _, h | .array _, h
  | .object _, h | .unary .., h | .binary .., h | .logic .., h | .member .., h | .func .., h
  | .assign .., h => absurd trivial h.1

theorem enterClosure_goesOn {id : Nat} {name : Option String} {params : List String}
    {body : List Stmt} {env : Env} {args : List Value} (h : Checked name params body) :
    GoesOn (enterClosure id name params body env args) := by
  obtain ⟨e, rfl, he⟩ := h.body
  exact evalTail_goesOn he

theorem Task.perform_goesOn {t : Task} (h : t.Over .checked)
    (hexit : ∀ i args, t ≠ .call (.cont i .exit) args) : GoesOn t.perform := by
  cases t with
  | turn => exact .bounce _
  | iterate => exact Loop.iterate_goesOn _ _ _ _
  | enter => exact .bind fun _ => .through _
  | call f args =>
    cases f with
    | closure =>
      cases h.1 with
      | closure _ hcode _ => exact enterClosure_goesOn hcode
    | builtin b => exact b.run_goesOn args
    | cached => exact callCached_goesOn _ _ _
    | cont i c =>
      refine Cont.receive_goesOn _ ?_
      rintro rfl
      exact hexit i args rfl
    | primitive p =>
      rcases args with _ | ⟨k, _ | ⟨a, rest⟩⟩
      · exact .throw _
      · exact .throw _
      · exact .bind fun _ => .bounce _
    | _ => exact .throw _

/-! ## Safety -/

theorem exists_fits_all (next : Nat) : ∃ π : Pairing, π.Fits (fun _ _ => True) next :=
  ⟨.same (fun _ => True) next (.inr fun _ => trivial),
    { same := fun _ => ⟨rfl, trivial⟩
      left := rfl
      right := rfl
      grows := fun _ _ => trivial }⟩

/-- The computation does not fail for the form of the code, and all functions stay checked. -/
abbrev SafeFrom (x : Exec Step) (m : Machine) : Prop :=
  StaysOver Checked (fun _ _ => True) True x m

theorem SafeFrom.fails {x : Exec Step} {m m' : Machine} {e : Error} (h : SafeFrom x m)
    (he : x m = .error e m') : e.isMalformed = false ∧ m'.Over .checked :=
  ⟨(h.error he).1 trivial, (h.error he).2⟩

/-- One task in a state over checked functions. -/
theorem Task.perform_safe {t : Task} {m : Machine} (ht : t.Over .checked) (hm : m.Over .checked) :
    SafeFrom t.perform m := by
  obtain ⟨π, hπ⟩ := exists_fits_all m.nextId
  exact Task.perform_staysOver Checked.bodyWithin hπ ht hm

/-- The first step of a program in continuation-passing form. -/
theorem Program.start_safe {p : Program} {k : Value} {m : Machine} (hp : p.IsConverted)
    (hk : k.Over .checked) (hm : m.Over .checked) : SafeFrom (p.start k) m := by
  obtain ⟨name, params, body, hbody, hcode⟩ := hp
  obtain ⟨π, hπ⟩ := exists_fits_all m.nextId
  exact Program.start_staysOver Checked.bodyWithin hbody hcode hπ hk hm

theorem Program.start_goesOn {p : Program} (hp : p.IsConverted) (k : Value) :
    GoesOn (p.start k) := by
  obtain ⟨name, params, body, hbody, hcode⟩ := hp
  unfold Program.start
  rw [hbody]
  exact .bind fun _ => enterClosure_goesOn hcode

theorem Task.drive_safe {fuel : Nat} {t : Task} {m m' : Machine} {e : Error}
    (ht : t.Over .checked) (hm : m.Over .checked) (h : t.drive fuel m = .error e m') :
    e.isMalformed = false := by
  induction fuel generalizing t m with
  | zero => cases h
  | succ fuel ih =>
    have hsafe := Task.perform_safe ht hm
    simp only [Task.drive, Bind.bind, EStateM.bind] at h
    cases hp : t.perform m with
    | error e n =>
      rw [hp] at h
      cases h
      exact (SafeFrom.fails hsafe hp).1
    | ok s n =>
      obtain ⟨hn, hs⟩ := hsafe.next hp
      rw [hp] at h
      cases s with
      | done v => cases h
      | bounce u => exact ih (hs u rfl) hn h
      | through u => exact ih (hs u rfl) hn h

/-- What a runtime has to do while it runs the program: the program is started in any state over
checked functions, with any continuation; a task hands over to the next; and whoever answers, at
any time and any number of times, calls a function, a saved continuation say, with any arguments
and in any state, as long as all functions are checked. -/
inductive Served (p : Program) : Machine → Task → Prop
  | start {k : Value} {m m' : Machine} {s : Step} {t : Task} :
      k.Over .checked → m.Over .checked → p.start k m = .ok s m' → s.task? = some t → Served p m' t
  | next {m m' : Machine} {s : Step} {t u : Task} :
      Served p m t → t.perform m = .ok s m' → s.task? = some u → Served p m' u
  | answered {m m' : Machine} {t : Task} {f : Value} {args : List Value} :
      Served p m t → m'.Over .checked → f.Over .checked → (∀ v ∈ args, v.Over .checked) →
      Served p m' (.call f args)

theorem Served.over {p : Program} {m : Machine} {t : Task} (hp : p.IsConverted)
    (h : Served p m t) : m.Over .checked ∧ t.Over .checked := by
  induction h with
  | start hk hm hs ht =>
    obtain ⟨hm', hover⟩ := (Program.start_safe hp hk hm).next hs
    exact ⟨hm', hover _ ht⟩
  | next _ hs hu ih =>
    obtain ⟨hm', hover⟩ := (Task.perform_safe ih.2 ih.1).next hs
    exact ⟨hm', hover _ hu⟩
  | answered _ hm hf hargs _ => exact ⟨hm, hf, hargs⟩

theorem Program.run_safe {p : Program} {fuel : Nat} {m m' : Machine} {e : Error}
    (hp : p.IsConverted) (hm : m.Over .checked) (h : p.run fuel m = .error e m') :
    e.isMalformed = false := by
  have hk : (Value.cont m.nextId .exit).Over .checked := .cont trivial .exit
  have hm' : Machine.Over .checked { m with nextId := m.nextId + 1 } :=
    ⟨hm.store, hm.stack, hm.tables⟩
  have hsafe := Program.start_safe hp hk hm'
  have hrun : p.run fuel m = (p.start (.cont m.nextId .exit) >>= fun s => s.run fuel)
      { m with nextId := m.nextId + 1 } := rfl
  simp only [hrun, Bind.bind, EStateM.bind] at h
  split at h
  · rename_i s n hs
    obtain ⟨hn, hover⟩ := hsafe.next hs
    have hdrive {t : Task} (ht : t.Over .checked)
        (h : (t.drive fuel).guarded n = .error e m') : e.isMalformed = false := by
      unfold Exec.guarded at h
      split at h
      · cases h
      · rename_i hdrive
        cases h
        exact Task.drive_safe ht hn hdrive
    cases s with
    | done v => cases h
    | bounce t => exact hdrive (hover t rfl) h
    | through t => exact hdrive (hover t rfl) h
  · rename_i hs
    cases h
    exact (SafeFrom.fails hsafe hs).1

/-- A compiled program never gets stuck in a runtime over checked functions, as a fresh one is and
as each step, failed ones included, leaves it: neither its start nor any task that the runtime
serves fails for the form of the code, the run ends nowhere but at the continuation made for that,
and so running the program to its end never fails for the form of the code. -/
theorem compiled_code_never_stuck {source : String} {withPrelude : Bool} {p : Program}
    (h : compileSource source withPrelude = .ok p) :
    (∀ supply, (Machine.initial supply).Over .checked) ∧
    (∀ {k : Value} {m : Machine}, k.Over .checked → m.Over .checked →
      (∀ {e m'}, p.start k m = .error e m' → e.isMalformed = false ∧ m'.Over .checked) ∧
      (∀ {s m'}, p.start k m = .ok s m' → m'.Over .checked ∧ ∃ t, s.task? = some t)) ∧
    (∀ {m : Machine} {t : Task}, Served p m t →
      (∀ {e m'}, t.perform m = .error e m' → e.isMalformed = false ∧ m'.Over .checked) ∧
      (∀ {s m'}, t.perform m = .ok s m' → m'.Over .checked) ∧
      (∀ {v m'}, t.perform m = .ok (.done v) m' → ∃ i args, t = .call (.cont i .exit) args)) ∧
    (∀ {fuel : Nat} {m m' : Machine} {e : Error}, m.Over .checked → p.run fuel m = .error e m' →
      e.isMalformed = false) := by
  have hp := compileSource_isConverted h
  refine ⟨Machine.initial_over .checked, fun hk hm => ?_, fun ht => ?_, Program.run_safe hp⟩
  · have hsafe := Program.start_safe hp hk hm
    refine ⟨SafeFrom.fails hsafe, fun {s m'} hs => ⟨(hsafe.next hs).1, ?_⟩⟩
    cases s with
    | bounce t => exact ⟨t, rfl⟩
    | through t => exact ⟨t, rfl⟩
    | done v => exact absurd hs (Program.start_goesOn hp _ _ _ _)
  · obtain ⟨hm, hover⟩ := ht.over hp
    have hsafe := Task.perform_safe hover hm
    refine ⟨SafeFrom.fails hsafe, fun hs => (hsafe.next hs).1, fun hs => ?_⟩
    by_contra hexit
    exact Task.perform_goesOn hover (fun i args heq => hexit ⟨i, args, heq⟩) _ _ _ hs

/-- A source whose run goes through an enumeration and an assignment. -/
def busySource : String :=
  "Enumerate(function() \x7b return globalStore.n = sample(Bernoulli(\x7bp: 0.5\x7d)); \x7d)"

/-- The text compiles, and the first step hands over to a task. -/
def startsWell (source : String) : Bool :=
  match compileSource source false with
  | .error _ => false
  | .ok p =>
    match p.start (.cont 0 .exit) (Machine.initial default) with
    | .ok s _ => s.task?.isSome
    | .error _ _ => false

theorem busySource_never_stuck :
    ∃ p, compileSource busySource false = .ok p ∧
      (∀ {fuel : Nat} {m' : Machine} {e : Error},
        p.run fuel (Machine.initial default) = .error e m' → e.isMalformed = false) ∧
      ∃ m t, Served p m t ∧
        ∀ {v m'}, t.perform m = .ok (.done v) m' → ∃ i args, t = .call (.cont i .exit) args := by
  have hstarts : startsWell busySource = true := by decide +kernel
  unfold startsWell at hstarts
  split at hstarts
  · cases hstarts
  · rename_i p hp
    obtain ⟨hinitial, -, hserved, hrun⟩ := compiled_code_never_stuck hp
    split at hstarts
    · rename_i s m hs
      obtain ⟨t, ht⟩ := Option.isSome_iff_exists.1 hstarts
      have hfirst : Served p m t := .start (.cont trivial .exit) (hinitial default) hs ht
      exact ⟨p, hp, hrun (hinitial default), m, t, hfirst, (hserved hfirst).2.2⟩
    · cases hstarts

end Chance
