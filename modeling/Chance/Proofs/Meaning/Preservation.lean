import Chance.Proofs.Meaning.Statements
import Chance.Proofs.Machine.Outcomes

/-!
# Conversion preserves meaning

A program can be evaluated directly, or compiled and run. Where direct evaluation gives data, the
run gives the same data and leaves the same store, for all programs whose meaning conversion keeps
(`Demands.tame`). What a block declares is in scope up to the end of the list that the block stands
in: blocks are spliced into their lists, and have no scope of their own.

- `globalEnv_realized`: both begin in the same scope,
- `Program.code_delivers`: the code of a program hands over its value,
- `conversion_preserves_meaning`: whole programs,
- `shadowingSource_keeps_declaration`: a block with a scope of its own would mean something else.
-/

namespace Chance

open Compile

/-! ## The first scope -/

variable {source : String}

theorem globalEnv_realized (π : Matching) : ∀ frame ∈ globalEnv, ∀ b ∈ frame,
    b.2.Realized π b.2 :=
  forall_globalEnv (P := fun v => v.Realized π v) .num .primitive .builtin fun h =>
    .object (List.forall₂_same.2 fun f hf => ⟨h f hf⟩)

theorem startEnv_realized (π : Matching) (n : Machine) :
    EnvRealized π globalEnv (startEnv n) := by
  intro x hx
  have hne {hint : String} (h : hint ∈ nameHints) (i : Nat) : generated hint i ≠ x := by
    rintro rfl
    exact hx ⟨hint, h, i, rfl⟩
  have houtside : (startEnv n).lookup? x = globalEnv.lookup? x := by
    refine lookup?_outside (List.forall_mem_cons.2 ⟨hne (by decide) 0, ?_⟩)
    exact List.forall_mem_singleton.2 (hne (by decide) 0)
  rw [houtside]
  exact lookup?_rel (globalEnv_realized π) x

/-! ## Programs -/

section Programs

variable {p q : Program} {m n : Machine}

theorem Program.compile_ok (h : p.compile = .ok q) :
    q = Program.ofCode p.code ∧ ∃ body, StmtsAddressed (generated "address" 0) p.linear body ∧
      stmtsSteady body = true ∧ p.code = ((sequence body (.var (generated "k" 0))).run 1).1 := by
  let a := generated "address" 0
  let addressed := ((addressStmts a (returnLast p.body)).run 1).1
  have haddressed : StmtsAddressed a p.linear (linearize (flattenStmts addressed)) :=
    (addressStmts_addressed a (returnLast p.body) 1).flatten.linearizeOnto (.nil a)
  rw [Program.compile_eq] at h
  rcases exists_ok_of_bind h with ⟨_, hchecked, hq⟩
  have hsteady : (Expr.func none [a] addressed).flatten.isSteady = true :=
    (convertFunction_meets none [a] addressed).1 hchecked
  have hcode : q = Program.ofCode p.code := (Except.ok.inj hq).symm
  exact ⟨hcode, _, haddressed, hsteady, rfl⟩

theorem run_of_drive {x : Exec Step} {fuel : Nat} {r : Option Value}
    (h : (x >>= Step.drive fuel) m = .ok r n) : (x >>= Step.run fuel) m = .ok r n := by
  rcases Exec.exists_ok_of_bind h with ⟨s, l, hs, hdrive⟩
  rw [Exec.bind_ok hs, Step.run, Exec.guarded, hdrive]

/-- The code of a program hands its value to the continuation of the run. -/
theorem Program.code_delivers (h : p.compile = .ok q) (htame : stmtsMeet .tame p.body)
    {π : Matching} {m' : Machine} (hstate : m.Realized π n) {depth : Nat} {v : Value}
    (hv : p.evaluate .list depth m = .ok v m') :
    ∃ ρ n' w, Arrives (evalTail (startEnv n) p.code) { n with nextId := n.nextId + 2 }
        (pure (.resume (.cont n.nextId .exit) w)) n' ∧
      π ≤ ρ ∧ m'.Realized ρ n' ∧ v.Realized ρ w := by
  rcases Program.compile_ok h with ⟨-, body, haddressed, hsteady, hcode⟩
  rcases Exec.exists_ok_of_bind hv with ⟨⟨env, u⟩, m₁, hexecuted, hv⟩
  cases hv
  let right : Machine := { n with nextId := n.nextId + 2 }
  let start : Juncture := ⟨⟨π, m, right⟩, 1, startEnv n⟩
  have hright : m.Realized π right :=
    ⟨hstate.store, hstate.left,
      fun i j hij => (hstate.right i j hij).trans_le (Nat.le_add_right _ 2)⟩
  have hsituation : Situation start globalEnv (generated "address" 0) :=
    ⟨startEnv_realized π n, ⟨0, rfl⟩, ⟨"", rfl⟩, hright⟩
  have hlookup : (startEnv n).lookup? (generated "k" 0) = some (.cont n.nextId .exit) := rfl
  rcases stmtsSimulated (invoke_delivers depth) haddressed
    (stmtsMeet_linear Demands.tame_stable htame)
    hsteady hsituation hexecuted (.var Nat.zero_lt_one hlookup) with
    ⟨ρ, n', kv, w, harrives, hkv, hreaches, hvw⟩
  cases hkv with
  | var hfound =>
    obtain rfl := Option.some.inj (hlookup.symm.trans hfound)
    exact ⟨ρ, n', w, hcode ▸ harrives, hreaches.growth.le, hreaches.state, hvw⟩

/-- Where direct evaluation of a program gives data, the compiled program returns them and leaves
the same store. Both start from states whose stores are the same, up to the code of functions in
them. -/
theorem conversion_preserves_meaning (hcompile : p.compile = .ok q)
    (htame : stmtsMeet .tame p.body) {π : Matching} {m n m' : Machine} (hstate : m.Realized π n)
    {depth : Nat} {v : Value} (hv : p.evaluate .list depth m = .ok v m')
    (hdata : v.isData = true) :
    ∃ fuel n' ρ, q.run fuel n = .ok (some v) n' ∧ π ≤ ρ ∧
      StoreRealized ρ m'.store n'.store ∧
      (fieldsData m'.store = true → n'.store = m'.store) := by
  rcases Program.code_delivers hcompile htame hstate hv with
    ⟨ρ, n', w, ⟨tasks, harrives⟩, hπ, hstate', hvw⟩
  have hlikeness := (realized_likeness ρ).semblance
  obtain rfl : v = w := hlikeness.eq_of_isData hvw hdata
  refine ⟨tasks + 1, n', ρ, ?_, hπ, hstate'.store, fun hstore =>
    (hlikeness.eq_of_fieldsData hstate'.store hstore).symm⟩
  rw [(Program.compile_ok hcompile).1, ofCode_run]
  -- The last task hands the value to the continuation that ends the run.
  exact run_of_drive (harrives 1)

end Programs

/-! ## Stores of data -/

mutual

theorem Value.realized_of_isData (π : Matching) :
    ∀ {v : Value}, v.isData = true → v.Realized π v
  | .undefined, _ => .undefined
  | .null, _ => .null
  | .bool b, _ => .bool b
  | .num x, _ => .num x
  | .str s, _ => .str s
  | .array _, h => .array (values_realized_of_data π h)
  | .object _, h => .object (fields_realized_of_data π h)

theorem values_realized_of_data (π : Matching) :
    ∀ {vs : List Value}, valuesData vs = true → List.Forall₂ (Value.Realized π) vs vs
  | [], _ => .nil
  | _ :: _, h => by
    rcases Bool.and_eq_true_iff.1 h with ⟨hv, hvs⟩
    exact .cons (Value.realized_of_isData π hv) (values_realized_of_data π hvs)

theorem fields_realized_of_data (π : Matching) :
    ∀ {fs : List (String × Value)}, fieldsData fs = true → StoreRealized π fs fs
  | [], _ => .nil
  | (_, _) :: _, h => by
    rcases Bool.and_eq_true_iff.1 h with ⟨hv, hfs⟩
    exact .cons ⟨Value.realized_of_isData π hv⟩ (fields_realized_of_data π hfs)

end

theorem Machine.realized_of_data {m : Machine} (h : fieldsData m.store = true) :
    m.Realized .empty m :=
  ⟨fields_realized_of_data _ h, nofun, nofun⟩

/-! ## A program with functions, choices and a store -/

def negatingSource : String :=
  "var not = function(b) \x7b if (b) \x7b return false; \x7d return true; \x7d; " ++
    "var twice = function(f, x) \x7b var y = f(x); return f(y); \x7d; " ++
    "var r = twice(not, true); globalStore.r = [r]; r ? 'yes' : not(r)"

theorem negatingSource_keeps_meaning :
    ∃ p q m n fuel, Program.parse negatingSource = .ok p ∧ p.compile = .ok q ∧
      stmtsMeet .tame p.body ∧ p.evaluate .list 3 (.initial default) = .ok (.str "yes") m ∧
      q.run fuel (.initial default) = .ok (some (.str "yes")) n ∧ n.store = m.store := by
  have hsource : ∃ p, Program.parse negatingSource = .ok p ∧ ∃ q, p.compile = .ok q ∧
      stmtsMeet .tame p.body ∧ ∃ v m, p.evaluate .list 3 (.initial default) = .ok v m ∧
        v = .str "yes" ∧ fieldsData m.store = true := by
    decide +kernel
  rcases hsource with ⟨p, hparse, q, hcompile, htame, _, m, hevaluate, rfl, hdata⟩
  rcases conversion_preserves_meaning hcompile htame (Machine.realized_of_data rfl) hevaluate rfl
    with ⟨fuel, n, -, hrun, -, -, hstore⟩
  exact ⟨p, q, m, n, fuel, hparse, hcompile, htame, hevaluate, hrun, hstore hdata⟩

/-! ## A block that declares -/

def shadowingSource : String :=
  "var x = true; if (x) \x7b \x7b var x = false; \x7d globalStore.r = x; \x7d globalStore.r"

/-- The program has no names or expressions that conversion could get wrong. With scopes of their
own for blocks its value is `true`, and the compiled program returns `false`. -/
theorem shadowingSource_keeps_declaration :
    ∃ p q m n, Program.parse shadowingSource = .ok p ∧ p.compile = .ok q ∧
      stmtsMeet .tame p.body ∧
      p.evaluate .own 0 (.initial default) = .ok (.bool true) m ∧
      q.run 20 (.initial default) = .ok (some (.bool false)) n := by
  have hsource : ∃ p, Program.parse shadowingSource = .ok p ∧ ∃ q, p.compile = .ok q ∧
      stmtsMeet .tame p.body ∧
      (∃ v m, p.evaluate .own 0 (.initial default) = .ok v m ∧ v = .bool true) ∧
      ∃ v n, q.run 20 (.initial default) = .ok (some v) n ∧ v = .bool false := by
    decide +kernel
  rcases hsource with ⟨p, hparse, q, hcompile, htame, ⟨_, m, hevaluate, rfl⟩, _, n, hrun, rfl⟩
  exact ⟨p, q, m, n, hparse, hcompile, htame, hevaluate, hrun⟩

/-! ## An operand that waits -/

/-- A function that overwrites what the store held before. -/
def overwriting : String :=
  "globalStore.x = true; var f = function() \x7b globalStore.x = false; return false; \x7d; "

def waitingSource : String :=
  overwriting ++ "globalStore.x === f()"

/-- The same with its operands declared in their order. -/
def declaringSource : String :=
  overwriting ++ "var l = globalStore.x; var r = f(); l === r"

/-- The left operand reads the store, stays in place and is evaluated after the call to its right,
so that the program is not tame. Evaluated in their order the operands differ, and so they do if
they are declared before; the compiled program finds them equal. -/
theorem waitingSource_reads_late :
    ∃ p q p' q' m n n', Program.parse waitingSource = .ok p ∧ p.compile = .ok q ∧
      Program.parse declaringSource = .ok p' ∧ p'.compile = .ok q' ∧ ¬ stmtsMeet .tame p.body ∧
      p.evaluate .list 1 (.initial default) = .ok (.bool false) m ∧
      q.run 20 (.initial default) = .ok (some (.bool true)) n ∧
      q'.run 20 (.initial default) = .ok (some (.bool false)) n' := by
  have hsource : ∃ p, Program.parse waitingSource = .ok p ∧ ∃ q, p.compile = .ok q ∧
      ¬ stmtsMeet .tame p.body ∧
      (∃ v m, p.evaluate .list 1 (.initial default) = .ok v m ∧ v = .bool false) ∧
      ∃ v n, q.run 20 (.initial default) = .ok (some v) n ∧ v = .bool true := by
    decide +kernel
  have hdeclared : ∃ p, Program.parse declaringSource = .ok p ∧ ∃ q, p.compile = .ok q ∧
      ∃ v n, q.run 20 (.initial default) = .ok (some v) n ∧ v = .bool false := by
    decide +kernel
  rcases hsource with ⟨p, hparse, q, hcompile, hwild, ⟨_, m, hevaluate, rfl⟩, _, n, hrun, rfl⟩
  rcases hdeclared with ⟨p', hparse', q', hcompile', _, n', hrun', rfl⟩
  exact ⟨p, q, p', q', m, n, n', hparse, hcompile, hparse', hcompile', hwild, hevaluate,
    hrun, hrun'⟩

end Chance
