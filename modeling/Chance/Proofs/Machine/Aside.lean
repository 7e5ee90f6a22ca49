import Chance.Proofs.Machine.Tower

/-!
# Computations aside from the coroutines

Most of what a task does neither asks which coroutines are installed nor changes them. Such a
computation goes the same way whatever the stack is (`Exec.Aside`); that holds of evaluation, of
primitive functions and methods, and of all functions that only call other functions.
-/

namespace Chance

/-- The state with other coroutines installed. -/
def Machine.withStack (m : Machine) (S : List Coroutine) : Machine :=
  { m with stack := S }

/-- The computation goes the same way whatever coroutines are installed, and leaves them alone. Its
result satisfies `Q`. -/
def Exec.Aside {α : Type} (Q : α → Prop) (x : Exec α) : Prop :=
  ∀ m : Machine, match x m with
    | .ok a m' => Q a ∧ m'.stack = m.stack ∧ m.nextId ≤ m'.nextId ∧
        ∀ S, x (m.withStack S) = .ok a (m'.withStack S)
    | .error e m' => m'.stack = m.stack ∧ ∀ S, x (m.withStack S) = .error e (m'.withStack S)

namespace Exec.Aside

variable {α β : Type} {P : α → Prop} {Q : β → Prop}

theorem pure {a : α} (h : P a) : Aside P (pure a) :=
  fun m => ⟨h, rfl, Nat.le_refl m.nextId, fun _ => rfl⟩

theorem throw (e : Error) : Aside P (throw e) :=
  fun _ => ⟨rfl, fun _ => rfl⟩

theorem bind {x : Exec α} {f : α → Exec β} (hx : Aside P x) (hf : ∀ a, P a → Aside Q (f a)) :
    Aside Q (x >>= f) := by
  intro m
  have hxm := hx m
  cases hm : x m with
  | error e m' =>
    rw [hm] at hxm
    simp only [Bind.bind, EStateM.bind, hm]
    refine ⟨hxm.1, fun S => ?_⟩
    rw [hxm.2 S]
  | ok a m' =>
    rw [hm] at hxm
    obtain ⟨ha, hstack, hnext, hS⟩ := hxm
    have hfm := hf a ha m'
    simp only [Bind.bind, EStateM.bind, hm]
    cases hm' : f a m' with
    | error e m'' =>
      rw [hm'] at hfm
      refine ⟨hfm.1.trans hstack, fun S => ?_⟩
      rw [hS S]
      exact hfm.2 S
    | ok b m'' =>
      rw [hm'] at hfm
      obtain ⟨hb, hstack', hnext', hS'⟩ := hfm
      refine ⟨hb, hstack'.trans hstack, hnext.trans hnext', fun S => ?_⟩
      rw [hS S]
      exact hS' S

theorem lift (x : Except Error α) : Aside (fun _ => True) (liftM x : Exec α) := by
  cases x with
  | error e => exact .throw e
  | ok a => exact .pure trivial

theorem lift_bind {x : Except Error α} {f : α → Exec β} (hf : ∀ a, Aside Q (f a)) :
    Aside Q (liftM x >>= f) :=
  (Aside.lift x).bind fun a _ => hf a

theorem modify_bind {f : Machine → Machine} {x : PUnit → Exec β}
    (hstack : ∀ m, (f m).stack = m.stack) (hnext : ∀ m, (f m).nextId = m.nextId)
    (hf : ∀ m S, f (m.withStack S) = (f m).withStack S) (hx : Aside Q (x ⟨⟩)) :
    Aside Q ((modify f : Exec PUnit) >>= x) := by
  have hmodify : Aside (fun _ => True) (modify f : Exec PUnit) := fun m =>
    ⟨trivial, hstack m, (hnext m).ge, fun S => congrArg (EStateM.Result.ok PUnit.unit) (hf m S)⟩
  exact hmodify.bind fun _ _ => hx

theorem get_bind {f : Machine → Exec β} (hf : ∀ m, Aside Q (f m))
    (hstack : ∀ m S, f (m.withStack S) = f m) : Aside Q (get >>= f) := by
  intro m
  have hfm := hf m m
  change match f m m with
    | .ok b m' => Q b ∧ m'.stack = m.stack ∧ m.nextId ≤ m'.nextId ∧
        ∀ S, f (m.withStack S) (m.withStack S) = .ok b (m'.withStack S)
    | .error e m' => m'.stack = m.stack ∧
        ∀ S, f (m.withStack S) (m.withStack S) = .error e (m'.withStack S)
  simpa only [hstack] using hfm

theorem freshId : Aside (fun _ => True) Exec.freshId :=
  fun m => ⟨trivial, rfl, Nat.le_succ m.nextId, fun _ => rfl⟩

theorem newCont (c : Cont) : Aside (fun _ => True) (Exec.newCont c) :=
  freshId.bind fun _ _ => .pure trivial

theorem newDist (d : Dist) : Aside (fun _ => True) (Exec.newDist d) :=
  freshId.bind fun _ _ => .pure trivial

theorem setStore (s : Store) : Aside (fun _ => True) (Exec.setStore s) :=
  fun m => ⟨trivial, rfl, Nat.le_refl m.nextId, fun _ => rfl⟩

end Exec.Aside

open Exec

/-! ## Evaluation -/

theorem InPlace.aside {R : Value → Value → Prop} {x y : Exec Value} (h : InPlace R x y) :
    Aside (fun _ => True) x := by
  induction h with
  | pure _ => exact .pure trivial
  | throw _ => exact .throw _
  | lift _ => exact .lift _
  | @bind _ _ _ x _ f _ h _ ih =>
    cases x with
    | error e => exact Aside.throw e
    | ok a =>
      obtain ⟨b, _, hab⟩ := h
      exact ih a b hab
  | newDist _ => exact .newDist _
  | print _ => exact .modify_bind (fun _ => rfl) (fun _ => rfl) (fun _ _ => rfl) (.pure trivial)

theorem Primitive.run_aside (p : Primitive) (args : List Value) :
    Aside (fun _ => True) (p.run args) :=
  (p.run_itself args).aside

theorem evalAll_aside_of {env : Env} {es : List Expr}
    (h : ∀ e ∈ es, Aside (fun _ => True) (eval env e)) :
    Aside (fun _ => True) (evalAll env es) := by
  induction es with
  | nil => exact .pure trivial
  | cons e es ih =>
    obtain ⟨he, hes⟩ := List.forall_mem_cons.1 h
    exact he.bind fun _ _ => (ih hes).bind fun _ _ => .pure trivial

theorem eval_aside (env : Env) (e : Expr) : Aside (fun _ => True) (eval env e) := by
  induction e using Expr.form_induction with
  | num | str | bool | null | undefined => exact .pure trivial
  | var x =>
    rw [eval]
    split
    · exact fun m => ⟨trivial, rfl, Nat.le_refl m.nextId, fun _ => rfl⟩
    · split
      · exact .pure trivial
      · exact .throw _
  | formed h ih =>
    rw [h.eval]
    exact (evalAll_aside_of ih).bind fun vs _ => (h.itself vs).aside
  | logic op ihl ihr =>
    refine ihl.bind fun v _ => ?_
    split
    · exact ihr
    · exact ihr
    · exact .pure trivial
  | cond iht ihc iha =>
    refine iht.bind fun v _ => ?_
    split
    · exact ihc
    · exact iha
  | func => exact Aside.freshId.bind fun _ _ => .pure trivial
  | assign ihp ihv =>
    simp only [eval, if_true]
    exact ihp.bind fun _ _ => ihv.bind fun _ _ =>
      .modify_bind (fun _ => rfl) (fun _ => rfl) (fun _ _ => rfl) (.pure trivial)
  | call_other es hprimitive =>
    rw [eval_call_other hprimitive]
    exact .throw _
  | assign_other v hplace =>
    rw [eval_assign_other hplace]
    exact .throw _

theorem evalAll_aside (env : Env) (es : List Expr) : Aside (fun _ => True) (evalAll env es) :=
  evalAll_aside_of fun e _ => eval_aside env e

/-! ## Calls -/

/-- The enumeration that is to be installed next. -/
def Step.entered? (s : Step) : Option Engine :=
  s.task?.bind Task.entered?

/-- The step does not begin an enumeration. -/
def Step.Stays (s : Step) : Prop :=
  s.entered? = none

theorem evalTail_aside (env : Env) : ∀ e : Expr, Aside Step.Stays (evalTail env e)
  | .call f args => by
    rw [evalTail]
    split
    · exact (eval_aside env _).bind fun _ _ => .pure rfl
    · exact (eval_aside env f).bind fun _ _ => (evalAll_aside env args).bind fun _ _ => .pure rfl
  | .cond t c a => (eval_aside env t).bind fun v _ => by
    split
    · exact evalTail_aside env c
    · exact evalTail_aside env a
  | .num _ | .str _ | .bool _ | .null | .undefined | .var _ | .array _ | .object _ | .unary ..
  | .binary .. | .logic .. | .member .. | .func .. | .assign .. =>
    (eval_aside env _).bind fun _ _ => .pure rfl

theorem enterClosure_aside (id : Nat) (name : Option String) (params : List String)
    (body : List Stmt) (env : Env) (args : List Value) :
    Aside Step.Stays (enterClosure id name params body env args) := by
  unfold enterClosure
  split
  · exact evalTail_aside _ _
  · exact .throw _

theorem gatherCalls_aside (how : Gather) (args : List Value) :
    Aside Step.Stays (gatherCalls how args) :=
  .lift_bind fun _ => .lift_bind fun _ => .pure rfl

theorem repeatCalls_aside (args : List Value) : Aside Step.Stays (repeatCalls args) :=
  .lift_bind fun _ => .lift_bind fun n => by
    split
    · exact .throw _
    · exact .pure rfl

theorem makeCached_aside (args : List Value) : Aside Step.Stays (makeCached args) := by
  unfold makeCached
  dsimp only
  split
  · exact Aside.freshId.bind fun _ _ => .pure rfl
  · exact .throw _

theorem callWithItems_aside (args : List Value) : Aside Step.Stays (callWithItems args) := by
  refine .lift_bind fun (k, a) => ?_
  dsimp only
  split
  · exact .pure rfl
  · exact .lift_bind fun _ => .pure rfl

theorem callCached_aside (table : Nat) (f : Value) (args : List Value) :
    Aside Step.Stays (callCached table f args) := by
  refine .get_bind (fun m => ?_) fun _ _ => rfl
  split
  · exact .pure rfl
  · exact (Aside.newCont _).bind fun _ _ => .pure rfl

theorem gather_collect_aside (how : Gather) (k : Value) (a : String) (f : Value) (index : Nat)
    (rest : List Value) (acc item result : Value) :
    Aside Step.Stays ((Loop.gather how k a f).collect index rest acc item result) :=
  .pure rfl

theorem gather_iterate_aside (how : Gather) (k : Value) (a : String) (f : Value) (index : Nat)
    (items : List Value) (acc : Value) :
    Aside Step.Stays ((Loop.gather how k a f).iterate index items acc) := by
  cases items with
  | nil => exact .pure rfl
  | cons item rest => exact (Aside.newCont _).bind fun _ _ => .pure rfl

end Chance
