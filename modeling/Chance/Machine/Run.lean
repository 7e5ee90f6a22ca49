import Chance.Machine.Step
import Chance.Machine.Globals
import Chance.Compile.Pipeline

/-!
# Runs

A run performs tasks until one ends with a value. Fuel bounds the number of tasks; a run that is out
of fuel has no result.
-/

namespace Chance

/-- Performs tasks until one ends with a value. -/
def Task.drive : Nat → Task → Exec (Option Value)
  | 0, _ => return none
  | fuel + 1, t => do
    match ← t.perform with
    | .done v => return some v
    | .bounce t => drive fuel t
    | .through t => drive fuel t

/-- Goes on from a step until the run has a value. -/
def Step.drive (fuel : Nat) : Step → Exec (Option Value)
  | .done v => return some v
  | .bounce t => t.drive fuel
  | .through t => t.drive fuel

theorem Task.drive_succ (t : Task) (fuel : Nat) (m : Machine) :
    t.drive (fuel + 1) m = match t.perform m with
      | .ok s n => s.drive fuel n
      | .error e n => .error e n := by
  simp only [Task.drive, bind, EStateM.bind]
  cases t.perform m with
  | ok s n => cases s <;> rfl
  | error e n => rfl

/-- Runs something so that an error leaves no coroutine behind that was installed meanwhile. -/
def Exec.guarded {α : Type} (x : Exec α) : Exec α := fun m =>
  match x m with
  | .ok a m' => .ok a m'
  | .error e m' => .error e (m'.truncate m.depth)

/-- Runs from a step to the end. -/
def Step.run (fuel : Nat) (s : Step) : Exec (Option Value) :=
  (s.drive fuel).guarded

namespace Program

/-- The first step of a compiled program, whose value `k` will receive. -/
def start (p : Program) (k : Value) : Exec Step :=
  match p.body with
  | [.expr (.func name params body)] => do
    let id ← Exec.freshId
    enterClosure id name params body globalEnv [k, .str ""]
  | body => throw (.compile .start .notCompiled (bodyOutline body))

/-- Runs a compiled program to its end. -/
def run (fuel : Nat) (p : Program) : Exec (Option Value) := do
  let k ← Exec.newCont .exit
  let s ← p.start k
  s.run fuel

end Program

/-- Compiles and runs a text. -/
def runSource (fuel : Nat) (source : String) (withPrelude : Bool) : Exec (Option Value) := do
  let p ← compileSource source withPrelude
  p.run fuel

end Chance
