import Chance.Proofs.Enumeration.Exhaustive
import Chance.Proofs.Machine.Aside

/-!
# What a task asks of the enumerations

Most tasks leave the coroutines alone. Any other begins or enters an enumeration, or asks one that
is installed to answer a sample, to count a factor, to end a path, to queue a value or to go on. The
task does the same in all states that differ in hidden parts of the enumerations only, so that a
statement about steps has to be checked for these few deeds (`Task.perform_deed`). -/

namespace Chance

open Exec

/-! ## Hidden parts -/

/-- The change of enumerations keeps what others can see. -/
structure Engine.Hidden (g : Engine → Engine) : Prop where
  id : ∀ e, (g e).id = e.id
  score : ∀ e, (g e).score = e.score
  done : ∀ e, (g e).done = e.done

def Coroutine.mapEngine (g : Engine → Engine) : Coroutine → Coroutine
  | .engine e => .engine (g e)
  | .script j => .script j

/-- Changes all enumerations that are installed. -/
def Machine.mapEngines (g : Engine → Engine) (m : Machine) : Machine :=
  m.withStack (m.stack.map (Coroutine.mapEngine g))

section MapEngines

variable {g : Engine → Engine} {m : Machine} {e : Engine} {j : Nat}

theorem mapEngines_id (m : Machine) : m.mapEngines id = m := by
  have hstack : m.stack.map (Coroutine.mapEngine id) = m.stack :=
    (List.map_congr_left (g := id) fun c _ => by cases c <;> rfl).trans (List.map_id _)
  rw [Machine.mapEngines, hstack]
  rfl

theorem head?_mapEngines (m : Machine) :
    (m.mapEngines g).stack.head? = m.stack.head?.map (Coroutine.mapEngine g) :=
  List.head?_map

theorem head?_mapEngines_of_engine {e : Engine} (h : m.stack.head? = some (.engine e)) :
    (m.mapEngines g).stack.head? = some (.engine (g e)) := by
  rw [head?_mapEngines, h]
  rfl

theorem head?_mapEngines_of_script {script : Option Nat}
    (h : m.stack.head? = script.map .script) :
    (m.mapEngines g).stack.head? = script.map .script := by
  rw [head?_mapEngines, h, Option.map_map]
  rfl

theorem engine?_mapEngines (hg : Engine.Hidden g) (m : Machine) (j : Nat) :
    (m.mapEngines g).engine? j = (m.engine? j).map g := by
  simp only [Machine.engine?, Machine.mapEngines, Machine.withStack]
  induction m.stack with
  | nil => rfl
  | cons c cs ih =>
    rw [List.map_cons, List.findSome?_cons, List.findSome?_cons]
    cases c with
    | script j => exact ih
    | engine e =>
      simp only [Coroutine.mapEngine, hg.id]
      by_cases hid : e.id = j
      · simp only [hid, if_true, Option.map_some]
      · simpa only [hid, if_false] using ih

theorem putEngine_mapEngines (hg : Engine.Hidden g) (m : Machine) (e : Engine) :
    (m.mapEngines g).putEngine (g e) = (m.putEngine e).mapEngines g := by
  simp only [Machine.putEngine, Machine.mapEngines, Machine.withStack, List.map_map]
  congr 2
  funext c
  cases c with
  | script j => rfl
  | engine f =>
    simp only [Function.comp, Coroutine.mapEngine, hg.id]
    split <;> rfl

end MapEngines

/-! ## Samples that no enumeration answers -/

theorem Machine.asks (m : Machine) :
    (∃ e, m.stack.head? = some (.engine e)) ∨
      ∃ script : Option Nat, m.stack.head? = script.map .script := by
  rcases m.stack.head? with _ | e | j
  · exact .inr ⟨none, rfl⟩
  · exact .inl ⟨e, rfl⟩
  · exact .inr ⟨some j, rfl⟩

/-- A sample from a script, or by drawing. -/
def drawAt (script : Option Nat) (k : Value) (a : String) (d : Dist) (options : Value) :
    Exec Step :=
  fun m => match script with
    | some j => .ok (.resume k (m.answer j a d options).1) (m.answer j a d options).2
    | none => .ok (.resume k (d.sample m.supply).1) { m with supply := (d.sample m.supply).2 }

theorem sampleAt_eq_drawAt {script : Option Nat} {m : Machine} {k : Value} {a : String} {d : Dist}
    {o : Value} (h : m.stack.head? = script.map .script) :
    sampleAt k a d o m = drawAt script k a d o m := by
  unfold sampleAt
  rw [currentCoroutine_bind, h]
  cases script <;> rfl

theorem drawAt_aside (script : Option Nat) (k : Value) (a : String) (d : Dist) (options : Value) :
    Aside Step.Stays (drawAt script k a d options) := by
  intro m
  cases script with
  | none => exact ⟨rfl, rfl, Nat.le_refl m.nextId, fun _ => rfl⟩
  | some j =>
    simp only [drawAt, Machine.answer, Machine.withStack]
    cases m.scripts[j]? with
    | none => exact ⟨rfl, rfl, Nat.le_refl m.nextId, fun _ => rfl⟩
    | some s => exact ⟨rfl, rfl, Nat.le_refl m.nextId, fun _ => rfl⟩

/-- A factor for a script, or outside of any inference. -/
def noteAt (script : Option Nat) (k : Value) (a : String) (x : Float) : Exec Step :=
  fun m => match script with
    | some j => .ok (.resume k .undefined) (m.note j a x)
    | none => .error .factorOutsideInference m

theorem factorAt_eq_noteAt {script : Option Nat} {m : Machine} {k : Value} {a : String} {x : Float}
    (h : m.stack.head? = script.map .script) : factorAt k a x m = noteAt script k a x m := by
  unfold factorAt
  rw [currentCoroutine_bind, h]
  cases script <;> rfl

theorem noteAt_aside (script : Option Nat) (k : Value) (a : String) (x : Float) :
    Aside Step.Stays (noteAt script k a x) := by
  intro m
  cases script with
  | none => exact ⟨rfl, fun _ => rfl⟩
  | some j =>
    simp only [noteAt, Machine.note, Machine.withStack]
    cases m.scripts[j]? with
    | none => exact ⟨rfl, rfl, Nat.le_refl m.nextId, fun _ => rfl⟩
    | some s => exact ⟨rfl, rfl, Nat.le_refl m.nextId, fun _ => rfl⟩

theorem handedAtFactor_of_script {script : Option Nat} {m : Machine}
    (h : m.stack.head? = script.map .script) (i : Nat) (x : Except Error Float) :
    handedAtFactor i m x = none := by
  unfold handedAtFactor
  rw [h]
  cases script <;> rfl

/-! ## Deeds -/

/-- In the state `m`, and also with hidden parts changed, `y` does what `z` does in the state `n`
with the enumeration `e`. -/
def Does (y : Exec Step) (m : Machine) (z : Engine → Exec Step) (e : Engine) (n : Machine) : Prop :=
  ∀ g, Engine.Hidden g → y (m.mapEngines g) = z (g e) (n.mapEngines g)

theorem Does.plain {y : Exec Step} {z : Engine → Exec Step} {m n : Machine} {e : Engine}
    (h : Does y m z e n) : y m = z e n := by
  have hplain := h id ⟨fun _ => rfl, fun _ => rfl, fun _ => rfl⟩
  rwa [mapEngines_id, mapEngines_id] at hplain

/-- What the task `t` asks of the enumerations in the state `m`, where `y` does the task. -/
inductive Deed (t : Task) (m : Machine) (y : Exec Step) : Prop
  | fails {x : Error} : Does y m (fun _ => throw x) default m → Deed t m y
  | stays {x : Exec Step} : (∀ i, t.hands i m = none) → Aside Step.Stays x →
      Does y m (fun _ => x) default m → Deed t m y
  | begins {k thunk : Value} {a : String} {options : EnumerateOptions} :
      (∀ i, t.hands i m = none) → y = startEnumeration k a thunk options → Deed t m y
  | enters {e : Engine} {thunk exit : Value} : t = .enter e thunk exit → y = t.perform → Deed t m y
  | samples {args : List Value} {k : Value} {a : String} {d : Dist} {e : Engine} :
      t = .call (.builtin .sample) args → callerOf args = .ok (k, a) →
      (argument args 2).toDist = .ok d → m.stack.head? = some (.engine e) →
      Does y m (fun e => e.sample k d) e m → Deed t m y
  | factors {k : Value} {x : Float} {e : Engine} {n : Nat} :
      (∃ args, t = .call (.builtin .factor) args ∨
        ∃ id k a v, t = .call (.cont id (.scored k a v)) args) →
      (∀ i, t.hands i m = handedAtFactor i m (.ok x)) → m.stack.head? = some (.engine e) →
      m.nextId ≤ n → Does y m (fun e => e.factor k x) e { m with nextId := n } → Deed t m y
  | leaves {id j : Nat} {args : List Value} {e : Engine} : t = .call (.cont id (.leave j)) args →
      m.engine? j = some e → Does y m (fun e => e.leave (argument args 0)) e m → Deed t m y
  | queues {id j index : Nat} {args rest : List Value} {k f acc item : Value} {a : String}
      {d : Dist} {store : Store} {base : Float} {e : Engine} {x : Entry} {s : Step} :
      t = .call (.cont id (.collect (.weigh j k a d f store base) index rest acc item)) args →
      m.engine? j = some e → s.Stays →
      Does y m (fun e => Engine.save { e with frontier := e.frontier.push x } >>= fun _ => pure s)
        e m → Deed t m y
  | advances {j index : Nat} {k f acc : Value} {a : String} {d : Dist} {store : Store}
      {base : Float} {e : Engine} : t = .iterate (.weigh j k a d f store base) index [] acc →
      m.engine? j = some e → Does y m Engine.advance e m → Deed t m y

namespace Deed

variable {t : Task} {m : Machine} {y : Exec Step} {α : Type}

theorem of_aside (h : ∀ i, t.hands i m = none) (hy : Aside Step.Stays y) : Deed t m y :=
  .stays h hy fun _ _ => rfl

theorem throw (er : Error) : Deed t m (throw er) :=
  .fails fun _ _ => rfl

theorem lift_bind {x : Except Error α} {f : α → Exec Step} (hf : ∀ a, x = .ok a → Deed t m (f a)) :
    Deed t m (liftM x >>= f) := by
  cases x with
  | error er => exact .fails fun _ _ => rfl
  | ok a => exact hf a rfl

theorem live_bind {j : Nat} {f : Engine → Exec Step}
    (h : ∀ e, m.engine? j = some e → Does (Engine.live j >>= f) m f e m →
      Deed t m (Engine.live j >>= f)) : Deed t m (Engine.live j >>= f) := by
  cases he : m.engine? j with
  | none =>
    refine .fails (x := .stale "Enumerate") fun g hg => ?_
    rw [Engine.live_bind, engine?_mapEngines hg, he]
    rfl
  | some e =>
    cases hdone : e.done with
    | true =>
      refine .fails (x := .stale "Enumerate") fun g hg => ?_
      rw [Engine.live_bind, engine?_mapEngines hg, he]
      exact if_pos (by rw [hg.done, hdone])
    | false =>
      refine h e he fun g hg => ?_
      rw [Engine.live_bind, engine?_mapEngines hg, he]
      exact if_neg (by rw [hg.done, hdone]; exact Bool.false_ne_true)

end Deed

section Calls

variable {m : Machine} {args : List Value}

theorem Builtin.run_deed (b : Builtin) : Deed (.call (.builtin b) args) m (b.run args) := by
  cases b with
  | sample =>
    refine .lift_bind fun (k, a) hcaller => .lift_bind fun d hd => ?_
    -- Either an enumeration answers the sample or a script does.
    rcases m.asks with ⟨e, hhead⟩ | ⟨script, hhead⟩
    · refine .samples rfl hcaller hd hhead fun g _ => ?_
      rw [sampleAt, currentCoroutine_bind, head?_mapEngines_of_engine hhead]
    · exact .stays (fun _ => rfl) (drawAt_aside script k a d _) fun g _ =>
        sampleAt_eq_drawAt (head?_mapEngines_of_script hhead)
  | factor =>
    refine .lift_bind fun (k, a) _ => .lift_bind fun x hx => ?_
    rcases m.asks with ⟨e, hhead⟩ | ⟨script, hhead⟩
    · refine .factors (k := k) (x := x) (n := m.nextId) ⟨args, .inl rfl⟩ (fun i => ?_) hhead
        le_rfl fun g _ => ?_
      · rw [← hx]
        rfl
      · exact factorAt_eq_factor (head?_mapEngines_of_engine hhead)
    · exact .stays (fun i => handedAtFactor_of_script hhead i _) (noteAt_aside script k a x)
        fun g _ => factorAt_eq_noteAt (head?_mapEngines_of_script hhead)
  | sampleWithFactor =>
    refine .lift_bind fun (k, a) _ => .lift_bind fun d _ => ?_
    rcases m.asks with ⟨e, hhead⟩ | ⟨script, hhead⟩
    · refine .stays (x := e.sampleWithFactor k a d (argument args 3)) (fun _ => rfl) ?_
        fun g hg => ?_
      · refine .lift_bind fun values => .get_bind (fun _ => .pure rfl) fun _ _ => rfl
      · rw [sampleWithFactorAt, currentCoroutine_bind, head?_mapEngines_of_engine hhead]
        simp only [Engine.sampleWithFactor, hg.id, hg.score]
    · refine .stays (x := Exec.newCont (.drawn k a (argument args 3)) >>= fun after =>
        drawAt script after a d .undefined) (fun _ => rfl) ?_ fun g _ => ?_
      · exact (Aside.newCont _).bind fun _ _ => drawAt_aside _ _ _ _ _
      · have hhead' := head?_mapEngines_of_script (g := g) hhead
        rw [sampleWithFactorAt, currentCoroutine_bind, hhead']
        have hdraw := fun after => sampleAt_eq_drawAt (k := after) (a := a) (d := d)
          (o := .undefined) (m := { m.mapEngines g with nextId := m.nextId + 1 }) hhead'
        cases script <;> exact hdraw _
  | enumerate =>
    refine .lift_bind fun (k, a) _ => ?_
    dsimp only
    split
    · exact .lift_bind fun _ _ => .begins (fun _ => rfl) rfl
    · exact .throw _
  | infer => exact .lift_bind fun (_, _) _ => .lift_bind fun _ _ => .begins (fun _ => rfl) rfl
  | map | filter | forEach => exact .of_aside (fun _ => rfl) (gatherCalls_aside _ args)
  | times => exact .of_aside (fun _ => rfl) (repeatCalls_aside args)
  | cache => exact .of_aside (fun _ => rfl) (makeCached_aside args)
  | incrementalize => exact .of_aside (fun _ => rfl) (callWithItems_aside args)

theorem Cont.receive_deed (id : Nat) (c : Cont) :
    Deed (.call (.cont id c) args) m (c.receive (argument args 0)) := by
  cases c with
  | leave j => exact .live_bind fun e he hlive => .leaves rfl he hlive
  | scored k a value =>
    refine .lift_bind fun x hx => ?_
    rcases m.asks with ⟨e, hhead⟩ | ⟨script, hhead⟩
    · refine .factors (k := .cont m.nextId (.weighted k value)) (x := x) (n := m.nextId + 1)
        ⟨args, .inr ⟨id, k, a, value, rfl⟩⟩ (fun i => ?_) hhead (Nat.le_succ _) fun g _ => ?_
      · rw [← hx]
        rfl
      · exact factorAt_eq_factor (m := { m.mapEngines g with nextId := m.nextId + 1 })
          (head?_mapEngines_of_engine hhead)
    · refine .stays (x := Exec.newCont (.weighted k value) >>= fun after => noteAt script after a x)
        (fun i => handedAtFactor_of_script hhead i _) ?_ fun g _ => ?_
      · exact (Aside.newCont _).bind fun _ _ => noteAt_aside _ _ _ _
      · exact factorAt_eq_noteAt (m := { m.mapEngines g with nextId := m.nextId + 1 })
          (head?_mapEngines_of_script hhead)
  | collect l index rest acc item =>
    cases l with
    | gather => exact .of_aside (fun _ => rfl) (gather_collect_aside _ _ _ _ _ _ _ _ _)
    | weigh j k a d f store base =>
      refine .lift_bind fun extra _ => .live_bind fun e he hlive => ?_
      exact .queues (s := .bounce (.turn (.weigh j k a d f store base) (index + 1) rest .undefined))
        (x := ⟨k, item, base + d.score item + extra, m.store⟩) rfl he rfl hlive
  | exit | weighted => exact .of_aside (fun _ => rfl) (.pure rfl)
  | drawn => exact .of_aside (fun _ => rfl) ((Aside.newCont _).bind fun _ _ => .pure rfl)
  | remember =>
    exact .of_aside (fun _ => rfl)
      (.modify_bind (fun _ => rfl) (fun _ => rfl) (fun _ _ => rfl) (.pure rfl))

theorem applyValue_deed (f : Value) : Deed (.call f args) m (applyValue f args) := by
  cases f with
  | builtin b => exact b.run_deed
  | cont id c => exact c.receive_deed id
  | closure => exact .of_aside (fun _ => rfl) (enterClosure_aside _ _ _ _ _ _)
  | cached => exact .of_aside (fun _ => rfl) (callCached_aside _ _ _)
  | primitive p =>
    rcases args with _ | ⟨k, _ | ⟨a, rest⟩⟩
    · exact .throw _
    · exact .throw _
    · exact .of_aside (fun _ => rfl) ((Primitive.run_aside p rest).bind fun _ _ => .pure rfl)
  | _ => exact .throw _

theorem Task.perform_deed (t : Task) (m : Machine) : Deed t m t.perform := by
  cases t with
  | call f args => exact applyValue_deed f
  | turn => exact .of_aside (fun _ => rfl) (.pure rfl)
  | enter e thunk exit => exact .enters rfl rfl
  | iterate l index items acc =>
    cases l with
    | gather => exact .of_aside (fun _ => rfl) (gather_iterate_aside _ _ _ _ _ _ _)
    | weigh j k a d f store base =>
      cases items with
      | nil => exact .live_bind fun e he hlive => .advances rfl he hlive
      | cons item rest =>
        exact .of_aside (fun _ => rfl) ((Aside.setStore _).bind fun _ _ =>
          (Aside.newCont _).bind fun _ _ => .pure rfl)

end Calls

end Chance
