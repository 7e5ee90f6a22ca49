import Chance.Proofs.Machine.Inherited
import Chance.Proofs.Syntax.Threaded

/-!
# Values of the program

The values that a program can hold are those from which no continuation is reached by names that the
program could use. Expressions for values of the program give such values, and what is computed in
place leaves the coroutines alone.

- `Value.Held`, `EnvHeld`, `Machine.Held`: values that a program can hold, and scopes and states
  made of them,
- `Exec.Stays`: computations that leave the coroutines alone and such a state as it should be,
- `eval_stays`: evaluation in place.
-/

namespace Chance

/-! ## Values that a program can hold -/

variable {env : Env} {m n : Machine} {e : Expr}

/-- Values that a program can hold. Of the scopes of a function only ordinary names matter, since
its code mentions no others from outside. -/
inductive Value.Held : Value → Prop
  | undefined : Value.Held .undefined
  | null : Value.Held .null
  | bool (b : Bool) : Value.Held (.bool b)
  | num (x : Float) : Value.Held (.num x)
  | str (s : String) : Value.Held (.str s)
  | array {vs : List Value} : (∀ v ∈ vs, Value.Held v) → Value.Held (.array vs)
  | object {fs : List (String × Value)} : (∀ f ∈ fs, Value.Held f.2) → Value.Held (.object fs)
  | closure {i : Nat} {name : Option String} {params : List String} {body : List Stmt} {env : Env} :
      Atom (.func name params body) →
      (∀ frame ∈ env, ∀ b ∈ frame, IsOrdinary b.1 → Value.Held b.2) →
      Value.Held (.closure i name params body env)
  | primitive (p : Primitive) : Value.Held (.primitive p)
  | builtin (b : Builtin) : Value.Held (.builtin b)
  | cached {i : Nat} {f : Value} : Value.Held f → Value.Held (.cached i f)
  | dist {i : Nat} {d : Dist} : (∀ v ∈ d.values, Value.Held v) → Value.Held (.dist i d)

abbrev ValuesHeld (vs : List Value) : Prop :=
  ∀ v ∈ vs, v.Held

abbrev StoreHeld (store : Store) : Prop :=
  ∀ f ∈ store, f.2.Held

/-- Scopes whose ordinary names stand for values that a program can hold. -/
abbrev EnvHeld (env : Env) : Prop :=
  ∀ frame ∈ env, ∀ b ∈ frame, IsOrdinary b.1 → b.2.Held

abbrev Dist.Held (d : Dist) : Prop :=
  ∀ v ∈ d.values, v.Held

structure Machine.Held (m : Machine) : Prop where
  store : StoreHeld m.store
  tables : ∀ t ∈ m.tables, StoreHeld t.2

theorem held_inherited : Inherited Value.Held where
  undefined := .undefined
  null := .null
  bool := .bool
  num := .num
  str := .str
  primitive := .primitive
  builtin := .builtin
  array := ⟨fun | .array h => h, .array⟩
  object := ⟨fun | .object h => h, .object⟩
  dist := ⟨fun | .dist h => h, .dist⟩

theorem argument_held {vs : List Value} (h : ValuesHeld vs) (i : Nat) : (argument vs i).Held :=
  held_inherited.argument h i

theorem EnvHeld.lookup? (h : EnvHeld env) {x : String} (hx : IsOrdinary x) {v : Value}
    (hv : env.lookup? x = some v) : v.Held := by
  obtain ⟨frame, hframe, hb⟩ := lookup?_mem hv
  exact h frame hframe _ hb hx

/-! ## Computations in place -/

/-- The second state is one that a computation in place can leave. -/
structure Machine.Settles (m n : Machine) : Prop where
  stack : n.stack = m.stack
  nextId : m.nextId ≤ n.nextId
  held : n.Held

theorem Machine.Held.settles (h : m.Held) : m.Settles m :=
  ⟨rfl, le_rfl, h⟩

theorem Machine.Settles.trans {l : Machine} (h : l.Settles m) (h' : m.Settles n) : l.Settles n :=
  ⟨h'.stack.trans h.stack, h.nextId.trans h'.nextId, h'.held⟩

/-- The computation leaves the coroutines alone and the state one that a program can hold, and its
result has the property. -/
def Exec.Stays {α : Type} (Q : α → Prop) (x : Exec α) (m : Machine) : Prop :=
  match x m with
  | .ok a n => Q a ∧ m.Settles n
  | .error _ n => n.stack = m.stack

namespace Exec.Stays

variable {α β : Type} {P : α → Prop} {Q : β → Prop} {m : Machine} {a : α}

theorem pure (hm : m.Held) (h : P a) : Stays P (pure a) m :=
  ⟨h, hm.settles⟩

theorem of_eq {x : Exec α} (hx : x m = .ok a m) (hm : m.Held) (h : P a) : Stays P x m := by
  unfold Stays
  rw [hx]
  exact ⟨h, hm.settles⟩

theorem bind {x : Exec α} {f : α → Exec β} (h : Stays P x m)
    (k : ∀ a n, P a → m.Settles n → Stays Q (f a) n) : Stays Q (x >>= f) m := by
  unfold Stays at h
  unfold Stays
  simp only [Bind.bind, EStateM.bind]
  cases hx : x m with
  | error e n =>
    rw [hx] at h
    exact h
  | ok a n =>
    rw [hx] at h
    obtain ⟨ha, hn⟩ := h
    have hk := k a n ha hn
    unfold Stays at hk
    dsimp only
    split at hk
    · exact ⟨hk.1, hn.trans hk.2⟩
    · exact Eq.trans hk hn.stack

theorem freshId (hm : m.Held) : Stays (fun i => m.nextId = i) Exec.freshId m :=
  ⟨rfl, rfl, Nat.le_succ _, hm.store, hm.tables⟩

end Exec.Stays

theorem Machine.Grows.settles (h : m.Grows Value.Held n) (hm : m.Held) : m.Settles n :=
  ⟨h.stack, h.nextId, h.store, h.tables.symm ▸ hm.tables⟩

theorem Exec.Preserves.stays {α : Type} {Q : α → Prop} {x : Exec α}
    (h : x.Preserves Value.Held Q m) (hm : m.Held) : x.Stays Q m := by
  unfold Exec.Preserves at h
  unfold Exec.Stays
  cases hx : x m with
  | ok a n =>
    rw [hx] at h
    exact ⟨h.1, h.2.settles hm⟩
  | error e n =>
    rw [hx] at h
    exact h.stack

theorem InPlace.stays {x y : Exec Value} (h : InPlace (Itself Value.Held) x y) (hm : m.Held) :
    x.Stays Value.Held m :=
  (held_inherited.inPlace h hm.store).stays hm

theorem Atom.parts (h : Atom e) : e.Parts Atom := by
  cases h with
  | array h | object h | unary h => exact h
  | binary h h' | logic h h' | member h h' | assign h h' | call h h' => exact ⟨h, h'⟩
  | cond h h' h'' => exact ⟨h, h', h''⟩
  | _ => trivial

theorem EnvHeld.supplies (henv : EnvHeld env) : Supplies Value.Held Atom env where
  parts := Atom.parts
  var := fun | .var hx, hv => henv.lookup? hx hv
  func _ h := .closure h henv

/-- Expressions for values of the program give values that it can hold. -/
theorem eval_stays (henv : EnvHeld env) (he : Atom e) (hm : m.Held) :
    (eval env e).Stays Value.Held m :=
  (held_inherited.eval henv.supplies he hm.store).stays hm

theorem evalAll_stays (henv : EnvHeld env) {es : List Expr} (hes : ∀ e ∈ es, Atom e) (hm : m.Held) :
    (evalAll env es).Stays ValuesHeld m :=
  (held_inherited.evalAll henv.supplies hes hm.store).stays hm

theorem globalEnv_held : EnvHeld globalEnv :=
  fun frame hframe b hb _ => forall_globalEnv .num .primitive .builtin .object frame hframe b hb

end Chance
