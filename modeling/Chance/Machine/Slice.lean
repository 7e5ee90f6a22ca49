import Chance.Machine.Run

/-!
# Runs in slices

A run can be cut into slices that give control back whenever a clock says so. The clock is read
after every 256th step of a slice; a step is a task together with those that are part of it. Between
slices the run can be cancelled.
-/

namespace Chance

/-- Which readings of the clock within a slice, counted from one, find the time used up. -/
abbrev Clock := Nat → Bool

/-- A run between two slices. -/
structure Trampoline where
  /-- What is to be done next; nothing once the run has ended. -/
  pending : Option Step
  /-- The number of steps completed without an error. -/
  steps : Nat
  cancelled : Bool
deriving Inhabited

/-- How a slice ends. -/
inductive Slice where
  | yielded
  | finished (v : Value)
  | cancelled
  | failed (e : Error)
  | outOfFuel
deriving Inhabited

/-- Where a slice ends: how, what is left to do, and the number of steps it completed. -/
structure SliceEnd where
  slice : Slice
  pending : Option Step
  steps : Nat
  machine : Machine
deriving Inhabited

namespace Trampoline

def ofStep (s : Step) : Trampoline :=
  ⟨some s, 0, false⟩

def cancel (t : Trampoline) : Trampoline :=
  { t with cancelled := true }

/-- The number of steps between two readings of the clock. -/
def stepsPerReading : Nat := 256

/-- Whether the slice is over after `n` steps. -/
def isOver (clock : Clock) (n : Nat) : Bool :=
  n % stepsPerReading = 0 && clock (n / stepsPerReading)

/-- Goes on with a slice that has completed `n` steps. -/
def sliceFrom (clock : Clock) : Nat → Task → Nat → Machine → SliceEnd
  | 0, _, n, m => ⟨.outOfFuel, none, n, m⟩
  | fuel + 1, t, n, m =>
    match t.perform m with
    | .error e m => ⟨.failed e, none, n, m⟩
    | .ok (.through t) m => sliceFrom clock fuel t n m
    | .ok (.bounce t) m =>
      if isOver clock (n + 1) then ⟨.yielded, some (.bounce t), n + 1, m⟩
      else sliceFrom clock fuel t (n + 1) m
    | .ok (.done v) m =>
      if isOver clock (n + 1) then ⟨.yielded, some (.done v), n + 1, m⟩
      else ⟨.finished v, none, n + 1, m⟩

/-- Runs a slice from a step. -/
def sliceStep (clock : Clock) (fuel : Nat) (s : Step) (m : Machine) : SliceEnd :=
  match s with
  | .done v => ⟨.finished v, none, 0, m⟩
  | .bounce t => sliceFrom clock fuel t 0 m
  | .through t => sliceFrom clock fuel t 0 m

/-- Runs a slice. A run that was cancelled or has ended stays so. -/
def runSlice (clock : Clock) (fuel : Nat) (t : Trampoline) (m : Machine) :
    Slice × Trampoline × Machine :=
  if t.cancelled then (.cancelled, { t with pending := none }, m)
  else
    match t.pending with
    | none => (.cancelled, t, m)
    | some s =>
      let e := sliceStep clock fuel s m
      (e.slice, { t with pending := e.pending, steps := t.steps + e.steps }, e.machine)

/-- Runs slices to the end, each by the clock for the number of yields before it. After each yield
`hook`, which is given the number of yields so far, decides whether to cancel. The result comes with
the number of yields. -/
def runSliced (clocks : Nat → Clock) (hook : Nat → Bool) (fuel : Nat) :
    Nat → Nat → Trampoline → Machine → Option (Except Error Value) × Nat × Machine
  | 0, yields, _, m => (none, yields, m)
  | slices + 1, yields, t, m =>
    match t.runSlice (clocks yields) fuel m with
    | (.finished v, _, m) => (some (.ok v), yields, m)
    | (.cancelled, _, m) => (some (.error .cancelled), yields, m)
    | (.failed e, _, m) => (some (.error e), yields, m)
    | (.outOfFuel, _, m) => (none, yields, m)
    | (.yielded, t, m) =>
      let t := if hook (yields + 1) then t.cancel else t
      runSliced clocks hook fuel slices (yields + 1) t m

end Trampoline

end Chance
