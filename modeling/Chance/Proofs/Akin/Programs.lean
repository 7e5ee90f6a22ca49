import Chance.Proofs.Akin.Twins
import Chance.Proofs.Machine.Aside
import Chance.Proofs.Meaning.Preservation

/-!
# Programs that can be exchanged

Programs whose bodies are twins, once they have been addressed and made linear, compile alike, and
whatever a run of one ends with, so does a run of the other. Both start from a state in which
nothing but data has been stored.

- `Program.core`: the body of a program before its continuations are made explicit,
- `Machine.IsSettled`: states in which there is nothing to compare but data,
- `Program.RunsAs`: runs of one program end as runs of another,
- `Program.compile_iff`, `Program.runsAs`: programs with twin bodies.
-/

namespace Chance

open Compile

/-! ## Results -/

/-- Whatever a run of one program ends with, a run of the other ends with as well. -/
structure Program.RunsAs (q q' : Program) (m : Machine) : Prop where
  left : ∀ fuel, Ended (q.run fuel m) → ∃ fuel', SameEnd (q.run fuel m) (q'.run fuel' m)
  right : ∀ fuel', Ended (q'.run fuel' m) → ∃ fuel, SameEnd (q.run fuel m) (q'.run fuel' m)

section Results

variable {x y : Exec Step} {m n : Machine} {fuel fuel' depth : Nat} {r : RunResult}

/-- What an error leaves behind is removed. -/
def RunResult.truncate (depth : Nat) : RunResult → RunResult
  | .ok v m => .ok v m
  | .error e m => .error e (m.truncate depth)

theorem Machine.Akin.truncate {T : Ties} {π : Matching} (h : m.Akin T π n) (depth : Nat) :
    (m.truncate depth).Akin T π (n.truncate depth) := by
  rw [Machine.truncate, Machine.truncate, h.stack.length_eq]
  exact h.withStack (List.forall₂_drop _ h.stack)

theorem SameEnd.truncate {r r' : RunResult} (h : SameEnd r r') (depth : Nat) :
    SameEnd (r.truncate depth) (r'.truncate depth) := by
  cases h with
  | value hv hm => exact .value hv hm
  | error hm => exact .error (hm.truncate depth)

theorem ended_truncate : Ended (r.truncate depth) ↔ Ended r := by
  cases r with
  | ok v m => exact Iff.rfl
  | error e m => exact ⟨fun _ => nofun, fun _ => nofun⟩

/-- Runs that are guarded end as those that are not, up to what an error leaves behind. -/
theorem evalTail_run (env : Env) (e : Expr) (fuel : Nat) (m : Machine) :
    (evalTail env e >>= Step.run fuel) m =
      RunResult.truncate m.depth ((evalTail env e >>= Step.drive fuel) m) := by
  have haside := evalTail_aside env e m
  simp only [bind, EStateM.bind]
  generalize evalTail env e m = r at haside ⊢
  cases r with
  | error err l =>
    have hself : l.truncate m.depth = l := by
      rw [Machine.truncate, Machine.depth, haside.1, Nat.sub_self, List.drop_zero, ← haside.1]
    exact congrArg (EStateM.Result.error err) hself.symm
  | ok s l =>
    have hdepth : l.depth = m.depth := congrArg List.length haside.2.1
    simp only [Step.run, Exec.guarded, hdepth]
    cases s.drive fuel l <;> rfl

end Results

/-! ## Where programs start -/

/-- Nothing but data has been stored, and no enumeration is in progress. -/
structure Machine.IsSettled (m : Machine) : Prop where
  store : fieldsData m.store = true
  tables : m.tables = []
  stack : ∀ e, Coroutine.engine e ∉ m.stack

theorem Machine.initial_isSettled (supply : Supply) : (Machine.initial supply).IsSettled :=
  ⟨rfl, rfl, fun _ => List.not_mem_nil⟩

section Starting

variable (T : Ties) (π : Matching)

mutual

theorem Value.akin_of_isData : ∀ {v : Value}, v.isData = true → v.Akin T π v
  | .undefined, _ => .undefined
  | .null, _ => .null
  | .bool b, _ => .bool b
  | .num x, _ => .num x
  | .str s, _ => .str s
  | .array _, h => .array (values_akin_of_data h)
  | .object _, h => .object (fields_akin_of_data h)

theorem values_akin_of_data :
    ∀ {vs : List Value}, valuesData vs = true → List.Forall₂ (Value.Akin T π) vs vs
  | [], _ => .nil
  | _ :: _, h =>
    .cons (Value.akin_of_isData (Bool.and_eq_true_iff.1 h).1)
      (values_akin_of_data (Bool.and_eq_true_iff.1 h).2)

theorem fields_akin_of_data :
    ∀ {fs : List (String × Value)}, fieldsData fs = true → StoreAkin T π fs fs
  | [], _ => .nil
  | (_, _) :: _, h =>
    .cons ⟨Value.akin_of_isData (Bool.and_eq_true_iff.1 h).1⟩
      (fields_akin_of_data (Bool.and_eq_true_iff.1 h).2)

end

theorem Machine.IsSettled.akin {m : Machine} (h : m.IsSettled) : m.Akin T .empty m where
  store := fields_akin_of_data T _ h.store
  output := rfl
  left := nofun
  right := nofun
  tables := by rw [h.tables]; exact .nil
  stack := List.forall₂_same.2 fun c hc => by
    cases c with
    | engine e => exact absurd hc (h.stack e)
    | script i => exact .script i
  scripts := List.forall₂_same.2 fun _ _ => ⟨rfl, rfl⟩
  supply := rfl

theorem globalEnv_akin : ∀ frame ∈ globalEnv, ∀ b ∈ frame, b.2.Akin T π b.2 :=
  forall_globalEnv (P := fun v => v.Akin T π v) .num .primitive .builtin fun h =>
    .object (List.forall₂_same.2 fun f hf => ⟨h f hf⟩)

end Starting

/-- Both programs start in the same scope. -/
def Place.start (fuel : Nat) (m : Machine) : Place :=
  ⟨fuel, .empty, 1, 1, startEnv m, startEnv m⟩

namespace Place

variable {fuel : Nat} {m : Machine}

theorem start_scope (X : Set String) : (Place.start fuel m).Scope X := by
  intro x hfresh _
  have hne : generated "k" 0 ≠ x := by
    rintro rfl
    exact hfresh (isFresh_generated (by decide) le_rfl)
  have hframe : frameLookup [(generated "k" 0, .cont m.nextId .exit),
      (generated "address" 0, .str "")] x = frameLookup [(generated "address" 0, .str "")] x := by
    rw [← List.singleton_append, frameLookup_append, frameLookup_singleton (generated "k" 0),
      if_neg hne, Option.or_none]
  simp only [Place.start, startEnv, lookup?_cons, hframe, frameLookup_singleton]
  split_ifs
  · exact .some (.str "")
  · exact lookup?_rel (globalEnv_akin _ _) x

theorem start_named : (Place.start fuel m).Named (generated "k" 0) (generated "k" 0) :=
  ⟨⟨0, Nat.one_pos, rfl⟩, ⟨0, Nat.one_pos, rfl⟩, _, _, rfl, rfl, .cont .exit⟩

end Place

/-! ## Programs -/

/-- The body of a program before its continuations are made explicit. -/
def Program.core (p : Program) : List Stmt :=
  linearize (flattenStmts ((addressStmts (generated "address" 0) (returnLast p.body)).run 1).1)

theorem Program.compile_core (p : Program) :
    (∃ q, p.compile = .ok q) ↔ stmtsSteady p.core = true := by
  have hchecked := convertFunction_meets none [generated "address" 0]
    ((addressStmts (generated "address" 0) (returnLast p.body)).run 1).1
  change checkTail p.code = .ok () ↔ stmtsSteady p.core = true at hchecked
  rw [← hchecked, Program.compile_eq]
  cases checkTail p.code with
  | ok u => exact ⟨fun _ => rfl, fun _ => ⟨_, rfl⟩⟩
  | error e => exact ⟨nofun, nofun⟩

section Programs

variable {b : Prop} {X : Set String} {p p' q q' : Program}

theorem Program.compile_iff (h : StmtsTwin b Set.univ X Set.univ p.core [] p'.core) :
    (∃ q, p.compile = .ok q) ↔ ∃ q', p'.compile = .ok q' := by
  rw [p.compile_core, p'.compile_core, h.steady, stmtsSteady, Bool.and_true]

/-- Programs with twin bodies end alike. -/
theorem Program.runsAs (h : StmtsTwin b Set.univ X Set.univ p.core [] p'.core)
    (hp : p.compile = .ok q) (hp' : p'.compile = .ok q') {m : Machine} (hm : m.IsSettled) :
    q.RunsAs q' m := by
  have hsteady := p.compile_core.1 ⟨q, hp⟩
  have hsim (n : Nat) : Sim n (evalTail (startEnv m) p.code) { m with nextId := m.nextId + 2 }
      (evalTail (startEnv m) p'.code) { m with nextId := m.nextId + 2 } :=
    h.code hsteady rfl (.start n m) _ _ (Place.start_scope X) Place.start_named.after
      (fun _ => rfl) _ _ ((hm.akin _).skip 2 2)
  obtain ⟨rfl, -⟩ := Program.compile_ok hp
  obtain ⟨rfl, -⟩ := Program.compile_ok hp'
  refine ⟨fun fuel => ?_, fun fuel => ?_⟩
  · simp only [ofCode_run, evalTail_run, ended_truncate]
    intro hended
    obtain ⟨fuel', hsame⟩ := (hsim fuel).left fuel le_rfl hended
    exact ⟨fuel', hsame.truncate _⟩
  · simp only [ofCode_run, evalTail_run, ended_truncate]
    intro hended
    obtain ⟨fuel', hsame⟩ := (hsim fuel).right fuel le_rfl hended
    exact ⟨fuel', hsame.truncate _⟩

end Programs

end Chance
