import Chance.Proofs.Editing.Twinned
import Chance.Proofs.Machine.Outcomes

/-!
# Returns that are never taken

An arm of a conditional may begin with `if (false) { return 0 }`. Such a return is never taken, yet
what follows the conditional is compiled differently: it is moved into the arms, where it reads the
names that the arms declare. Runs end alike if what follows reads no such name.

- `Program.Deadened`: some arms begin with a return that is never taken,
- `SameEnd.eq_of_data`: results that are data are equal,
- `dead_returns_keep_runs`: both programs compile, or none does, and their runs end alike,
- `shadowingArm_changes_value`: what follows a conditional that declares a name that it reads.
-/

namespace Chance

open Compile

/-- The second program is the first, with arms that begin with a return that is never taken. Where a
conditional gets its first return that way, nothing that follows it reads what its arms declare. -/
def Program.Deadened (p p' : Program) : Prop :=
  StmtsEdited Expr.Edited Set.univ p.body p'.body

/-! ## Runs -/

/-- Data are the same, and so is a store that holds nothing else. -/
theorem SameEnd.eq_of_data {v : Value} {n : Machine} {r : RunResult}
    (h : SameEnd (.ok (some v) n) r) (hv : v.isData = true) :
    ∃ n', r = .ok (some v) n' ∧ n'.output = n.output ∧
      (fieldsData n.store = true → n'.store = n.store) := by
  cases h with
  | @value ρ _ w _ n' hvw hn =>
    have hsemblance := (akin_likeness .none ρ).semblance
    obtain rfl := hsemblance.eq_of_isData hvw hv
    exact ⟨n', rfl, hn.output.symm, fun hstore =>
      (hsemblance.eq_of_fieldsData hn.store hstore).symm⟩

/-- Returns that are never taken change neither whether a program compiles nor what its runs end
with. -/
theorem dead_returns_keep_runs {p p' : Program} (h : p.Deadened p') :
    ((∃ q, p.compile = .ok q) ↔ ∃ q', p'.compile = .ok q') ∧
      ∀ {q q' : Program} {m : Machine}, p.compile = .ok q → p'.compile = .ok q' → m.IsSettled →
        (∀ fuel, Ended (q.run fuel m) → ∃ fuel', SameEnd (q.run fuel m) (q'.run fuel' m)) ∧
        ∀ fuel', Ended (q'.run fuel' m) → ∃ fuel, SameEnd (q.run fuel m) (q'.run fuel' m) := by
  have htwin : StmtsTwin True Set.univ ∅ Set.univ p.core [] p'.core := StmtsEdited.core_twin h
  refine ⟨Program.compile_iff htwin, fun hp hp' hm => ?_⟩
  have hruns := Program.runsAs htwin hp hp' hm
  exact ⟨hruns.left, hruns.right⟩

/-! ## An arm that declares -/

/-- A function that notes in the store that it was switched on. -/
def switching (arm : List Stmt) : Program where
  body :=
    [.declare [("f", .func none ["b"]
      [.declare [("r", .str "off")], .ifElse (.var "b") arm [], .ret (.var "r")])],
     .expr (.call (.var "f") [.bool true])]

def notingArm : List Stmt :=
  [.declare [("s", .str "on")],
   .expr (.assign (.member (.var Expr.storeName) (.str "r")) (.var "s"))]

theorem not_isFresh_of_not_isGenerated {x : String} (h : ¬ IsGenerated x) : ¬ IsFresh 0 x :=
  fun hfresh => h hfresh.isGenerated

theorem switching_deadened :
    (switching notingArm).Deadened (switching (neverReturns :: notingArm)) := by
  have hname {x : String} (h : ¬ IsGenerated x) : ¬ IsFresh 0 x := not_isFresh_of_not_isGenerated h
  have hb : ¬ IsFresh 0 "b" := hname (by decide)
  have hf : ¬ IsFresh 0 "f" := hname (by decide)
  have hr : ¬ IsFresh 0 "r" := hname (by decide)
  have hs : ¬ IsFresh 0 "s" := hname (by decide)
  have hstore : ¬ IsFresh 0 Expr.storeName := hname (by decide)
  have harm : Continuable {"s"} notingArm := ⟨by simp [notingArm, leavesOf, Stmt.leaves], rfl⟩
  have harm' : StmtsEdited Expr.Edited {"s"} notingArm notingArm :=
    .refl ⟨⟨List.forall_mem_singleton.2 ⟨hs, trivial⟩, trivial, trivial⟩,
      ⟨trivial, ⟨hstore, trivial⟩, hs⟩, trivial⟩
  -- The arm declares a name that nothing after it uses, so the arm may be continued.
  have hbody : StmtsEdited Expr.Edited Set.univ
      [.declare [("r", .str "off")], .ifElse (.var "b") notingArm [], .ret (.var "r")]
      [.declare [("r", .str "off")], .ifElse (.var "b") (neverReturns :: notingArm) [],
        .ret (.var "r")] := by
    refine .cons (Set.empty_subset _) (by rintro _ ⟨⟩) (stmtsAvoid_empty _)
      (.refl ⟨List.forall_mem_singleton.2 ⟨hr, trivial⟩, trivial, trivial⟩) ?_
    refine .cons (Z := {"s"}) (Set.subset_univ _) ?_ ?_ ?_ (.refl ⟨⟨trivial, hr⟩, trivial⟩)
    · rintro x rfl
      decide
    · simp [StmtsAvoid, Stmt.Avoids, Expr.Avoids]
    · exact .ifElse (.var hb) (.dead (.same harm')) (.same .nil) fun _ _ =>
        ⟨harm, by rintro _ ⟨⟩, rfl⟩
  refine .cons (Set.empty_subset _) (by rintro _ ⟨⟩) (stmtsAvoid_empty _) ?_
    (.refl ⟨⟨trivial, hf, trivial, trivial⟩, trivial⟩)
  exact .declare (List.forall_mem_singleton.2 hf)
    (.cons "f" (.func (List.forall_mem_singleton.2 hb) hbody) .nil)

/-- Both return `'off'`, and leave the same store. -/
theorem switching_keeps_run :
    ∃ q q' n n' fuel, (switching notingArm).compile = .ok q ∧
      (switching (neverReturns :: notingArm)).compile = .ok q' ∧
      q.run 40 (.initial default) = .ok (some (.str "off")) n ∧
      q'.run fuel (.initial default) = .ok (some (.str "off")) n' ∧ n'.store = n.store := by
  have hends : ∃ q, (switching notingArm).compile = .ok q ∧
      ∃ v n, q.run 40 (.initial default) = .ok (some v) n ∧ v = .str "off" ∧
        fieldsData n.store = true := by
    decide +kernel
  obtain ⟨q, hq, _, n, hrun, rfl, hstore⟩ := hends
  have hended : Ended (q.run 40 (.initial default)) := by simp [hrun, Ended]
  obtain ⟨hcompile, hkeep⟩ := dead_returns_keep_runs switching_deadened
  obtain ⟨q', hq'⟩ := hcompile.1 ⟨q, hq⟩
  obtain ⟨fuel, hsame⟩ := (hkeep hq hq' (Machine.initial_isSettled default)).1 40 hended
  rw [hrun] at hsame
  obtain ⟨n', hrun', -, hstore'⟩ := hsame.eq_of_data rfl
  exact ⟨q, q', n, n', fuel, hq, hq', hrun, hrun', hstore' hstore⟩

/-! ## An arm that declares what is read afterwards -/

/-- Reads a name after the arm. -/
def rereading (arm : List Stmt) : Program where
  body := [.declare [("x", .str "outer")], .ifElse (.bool true) arm [], .expr (.var "x")]

def shadowingArm : List Stmt :=
  [.declare [("x", .str "inner")]]

/-- With a return in the arm, what follows the conditional is moved into the arm, where the name has
another value. -/
theorem shadowingArm_changes_value :
    ∃ q q' n n', (rereading shadowingArm).compile = .ok q ∧
      (rereading (neverReturns :: shadowingArm)).compile = .ok q' ∧
      q.run 20 (.initial default) = .ok (some (.str "outer")) n ∧
      q'.run 20 (.initial default) = .ok (some (.str "inner")) n' := by
  have hends : ∃ q, (rereading shadowingArm).compile = .ok q ∧
      ∃ v n, q.run 20 (.initial default) = .ok (some v) n ∧ v = .str "outer" := by
    decide +kernel
  have hends' : ∃ q', (rereading (neverReturns :: shadowingArm)).compile = .ok q' ∧
      ∃ v n', q'.run 20 (.initial default) = .ok (some v) n' ∧ v = .str "inner" := by
    decide +kernel
  obtain ⟨q, hq, _, n, hrun, rfl⟩ := hends
  obtain ⟨q', hq', _, n', hrun', rfl⟩ := hends'
  exact ⟨q, q', n, n', hq, hq', hrun, hrun'⟩

end Chance
