import Chance.Proofs.Renaming.Passes

/-!
# Free names under compilation

No pass uses a name free that the program does not: addresses are passed on under the parameter that
binds them, and whatever code a continuation is placed in stands below the parameter or the binding
that the code refers to. The passes are followed as for a renaming, here the one that changes
nothing.

- `Program.compile_avoids`: a name that a program does not use free is not used free by its code,
- `generated_names_in_scope`: nor are the names that compilation makes up.
-/

namespace Chance

open Compile

variable {p : Program} {X : Set String}

/-- The name is used outside of every binding of it. -/
def Program.UsesFree (p : Program) (x : String) : Prop :=
  ¬ StmtsAvoid p.body {x}

theorem Program.code_avoids (h : StmtsAvoid p.body X) :
    p.code.Avoids (X \ {generated "k" 0, generated "address" 0}) := by
  set Y := X \ {generated "k" 0, generated "address" 0}
  have hbody : StmtsAvoid (returnLast p.body) Y :=
    returnLast_avoid (stmtsAvoid_anti h Set.sdiff_subset)
  have ha : IsGenerated (generated "address" 0) := ⟨"address", by decide, 0, rfl⟩
  have haddressed :=
    (addressStmts_mirrors isRenaming_id ha _ (fun hmem => hmem.2 (.inr rfl)) hbody 1).2.2
  have hlinear := @linearizeOnto_avoid _ [] _ (flattenStmts_avoid haddressed) trivial
  have hk : Renames id Y (.var (generated "k" 0)) (.var (generated "k" 0)) :=
    .bound isRenaming_id ⟨"k", by decide, 0, rfl⟩ fun hmem => hmem.2 (.inl rfl)
  exact (sequence_mirrors isRenaming_id _ hlinear hk 1).2.avoids

/-- A name that a program does not use free is not used free by what it is compiled to. -/
theorem Program.compile_avoids {q : Program} (h : p.compile = .ok q) (hp : StmtsAvoid p.body X) :
    StmtsAvoid q.body X := by
  rw [Program.compile_eq] at h
  obtain ⟨_, _, hq⟩ := exists_ok_of_bind h
  cases hq
  refine ⟨⟨(Program.code_avoids hp).anti fun x hx => ⟨hx.1, ?_⟩, trivial⟩, trivial⟩
  rintro (rfl | rfl)
  · exact hx.2 (.inr List.mem_cons_self)
  · exact hx.2 (.inr (List.mem_cons_of_mem _ List.mem_cons_self))

theorem Program.UsesFree.mem_names {x : String} (h : p.UsesFree x) : x ∈ stmtsNames p.body := by
  by_contra hx
  refine h (stmtsAvoid_of_forall fun y hy hyx => ?_)
  cases hyx
  exact absurd hy hx

/-- Generated names are in scope wherever they are used: the free names of a compiled program are
free names of the program that it was compiled from. -/
theorem generated_names_in_scope {p q : Program}
    (hnames : ∀ x ∈ stmtsNames p.body, ¬ IsGenerated x) (hcompile : p.compile = .ok q) (x : String)
    (hfree : q.UsesFree x) :
    ¬ IsGenerated x ∧ p.UsesFree x ∧ x ∈ stmtsNames p.body := by
  have hp : p.UsesFree x := fun havoid => hfree (Program.compile_avoids hcompile havoid)
  exact ⟨hnames x hp.mem_names, hp, hp.mem_names⟩

/-- A function that leaves by the value of another one, which is not declared, and a call of it. -/
def leavingProgram : Program :=
  ⟨[.declare [("leave", .func none ["x"]
      [.ifElse (.var "x") [.ret (.call (.var "f") [.var "x"])] [], .ret .null])],
    .expr (.call (.var "leave") [.bool true])]⟩

theorem leavingProgram_names_in_scope : ∃ q, leavingProgram.compile = .ok q ∧ q.UsesFree "f" ∧
    ¬ IsGenerated "f" ∧ leavingProgram.UsesFree "f" ∧ "f" ∈ stmtsNames leavingProgram.body := by
  have hcompile : leavingProgram.compile = .ok (Program.ofCode leavingProgram.code) := rfl
  have hnames : ∀ x ∈ stmtsNames leavingProgram.body, ¬ IsGenerated x := by decide +kernel
  have hfree : (Program.ofCode leavingProgram.code).UsesFree "f" := by
    intro havoids
    -- the call in the arm, below the parameters of the function and of the program
    have hcall := havoids.1.1.2.1.1.2.1.1
    refine hcall ⟨⟨rfl, ?_⟩, ?_⟩ <;> change ¬ (_ ∨ _) <;> decide +kernel
  exact ⟨_, hcompile, hfree, generated_names_in_scope hnames hcompile "f" hfree⟩

end Chance
