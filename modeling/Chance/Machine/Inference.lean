import Chance.Machine.Eval

/-!
# Answering `sample` and `factor`

Forward sampling draws and knows no factors. A script takes the choice that is due and records what
it sees. An enumeration puts off every choice but one: it saves the value, the score of the path and
the store for each value of the support, and goes on with the entry that its strategy puts first.
When a path ends, its result is counted and the next entry is taken up; when none is left, or the
limit is reached, the run goes on where the enumeration was called, with the store it had there.
-/

namespace Chance

/-- A name below an address. -/
def subaddress (address part : String) : String :=
  address ++ "_" ++ part

/-- The values of a distribution that can be enumerated. -/
def enumerable (d : Dist) : Except Error (List Value) :=
  match d.support with
  | none => .error (.noSupport d.outline)
  | some [] => .error (.emptySupport d.outline)
  | some vs => .ok vs

namespace Engine

/-- The enumeration with the given identity, if it still goes on. -/
def live (id : Nat) : Exec Engine := do
  match (← get).engine? id with
  | some e => if e.done then throw (.stale "Enumerate") else return e
  | none => throw (.stale "Enumerate")

/-- Saves the state of the enumeration. -/
def save (e : Engine) : Exec Unit :=
  modify fun m => m.putEngine e

/-- Ends the enumeration: the innermost coroutine is removed, the store is as at the call, and the
run goes on with the distribution of the results. -/
def finish (e : Engine) : Exec Step := do
  let d ← e.tally.marginal
  Engine.save { e with done := true, frontier := e.frontier.clear }
  modify fun m => m.uninstall.2
  Exec.setStore e.store
  let v ← Exec.newDist d
  return .resume e.k v

/-- Takes up the next choice that was put off. -/
def advance (e : Engine) : Exec Step := do
  match e.frontier.pop? with
  | some (entry, rest) =>
    Engine.save { e with score := entry.score, frontier := rest }
    Exec.setStore entry.store
    return .resume entry.k entry.value
  | none => e.finish

/-- Whether another path may be explored. -/
def withinLimit (e : Engine) : Bool :=
  match e.limit with
  | some n => e.completed < n
  | none => true

/-- Counts the result of a path and goes on to the next. -/
def leave (e : Engine) (v : Value) : Exec Step := do
  let e := { e with tally := e.tally.add v e.score, completed := e.completed + 1 }
  e.save
  if e.withinLimit && !e.frontier.isEmpty then e.advance else e.finish

/-- Puts off a choice for each value of the distribution. -/
def postpone (e : Engine) (k : Value) (d : Dist) (store : Store) (values : List Value) : Engine :=
  { e with
    frontier := values.foldl
      (fun f v => f.push ⟨k, v, e.score + d.score v, store⟩) e.frontier }

/-- Answers a sample. -/
def sample (e : Engine) (k : Value) (d : Dist) : Exec Step := do
  let values ← enumerable d
  let e := e.postpone k d (← get).store values
  e.save
  e.advance

/-- Answers a factor. A path without probability ends at once. -/
def factor (e : Engine) (k : Value) (x : Float) : Exec Step := do
  let e := { e with score := e.score + x }
  e.save
  if e.score == Number.negInfinity then e.leave .undefined
  else return .resume k .undefined

/-- Answers a sample with an extra score: all values are scored before any is taken up, so that the
extra score counts in their order. -/
def sampleWithFactor (e : Engine) (k : Value) (address : String) (d : Dist) (score : Value) :
    Exec Step := do
  let values ← enumerable d
  let loop : Loop := .weigh e.id k address d score (← get).store e.score
  return .through (.iterate loop 0 values .undefined)

end Engine

/-- The coroutine that answers at present; none stands for forward sampling. -/
def currentCoroutine : Exec (Option Coroutine) := do
  return (← get).stack.head?

/-- Answers a sample. -/
def sampleAt (k : Value) (address : String) (d : Dist) (options : Value) : Exec Step := do
  match ← currentCoroutine with
  | some (.engine e) => e.sample k d
  | some (.script i) =>
    let (v, m) := (← get).answer i address d options
    set m
    return .resume k v
  | none =>
    let m ← get
    let (v, supply) := d.sample m.supply
    set { m with supply := supply }
    return .resume k v

/-- Answers a factor. -/
def factorAt (k : Value) (address : String) (x : Float) : Exec Step := do
  match ← currentCoroutine with
  | some (.engine e) => e.factor k x
  | some (.script i) =>
    modify fun m => m.note i address x
    return .resume k .undefined
  | none => throw .factorOutsideInference

/-- Samples, calls the scoring function, and counts its result as a factor. -/
def drawWithFactorAt (k : Value) (address : String) (d : Dist) (score : Value) : Exec Step := do
  let after ← Exec.newCont (.drawn k address score)
  sampleAt after address d .undefined

/-- Answers a sample with an extra score. -/
def sampleWithFactorAt (k : Value) (address : String) (d : Dist) (score : Value) : Exec Step := do
  match ← currentCoroutine with
  | some (.engine e) => e.sampleWithFactor k address d score
  | _ => drawWithFactorAt k address d score

/-- Begins an enumeration of the paths through `thunk`. -/
def startEnumeration (k : Value) (address : String) (thunk : Value) (options : EnumerateOptions) :
    Exec Step := do
  let id ← Exec.freshId
  let engine : Engine :=
    { id := id
      score := 0
      frontier := .empty options.strategy
      tally := .empty
      completed := 0
      done := false
      limit := options.limit
      k := k
      address := address
      store := (← get).store }
  let exit ← Exec.newCont (.leave id)
  return .bounce (.enter engine thunk exit)

end Chance
