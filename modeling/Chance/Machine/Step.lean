import Chance.Machine.Inference

/-!
# Steps of the machine

`Task.perform` does one task. Functions that call other functions do so by handing the machine the
next task, so that nothing here calls itself.
-/

namespace Chance

/-- What a loop has gathered after the result for an item. -/
def Gather.next (how : Gather) (acc item result : Value) : Value :=
  let push (v : Value) : Value :=
    match acc with
    | .array vs => .array (vs ++ [v])
    | _ => .array [v]
  match how with
  | .map | .times => push result
  | .filter => if result.truthy then push item else acc
  | .forEach => .undefined

/-- What a loop has gathered before its first item. -/
def Gather.start : Gather → Value
  | .forEach => .undefined
  | _ => .array []

/-- The first two arguments of a call: where it goes on and its address. -/
def callerOf (args : List Value) : Except Error (Value × String) := do
  return (argument args 0, ← (argument args 1).toAddress)

/-- Begins a loop of calls over the items of an array. -/
def gatherCalls (how : Gather) (args : List Value) : Exec Step := do
  let (k, a) ← callerOf args
  let items ← (argument args 3).toItems
  return .through (.iterate (.gather how k a (argument args 2)) 0 items how.start)

/-- Begins a loop of so many calls. -/
def repeatCalls (args : List Value) : Exec Step := do
  let (k, a) ← callerOf args
  let n ← numberArgument args 2
  if n < 0 || !Number.isIntegral n then
    throw (.type (.notRepeatable (Decimal.Style.plain.write n)))
  let items := List.replicate (Number.toCount n) Value.undefined
  return .through (.iterate (.gather .times k a (argument args 3)) 0 items Gather.times.start)

/-- Makes a function that keeps its results. -/
def makeCached (args : List Value) : Exec Step := do
  let f := argument args 2
  if f.isCallable then
    let id ← Exec.freshId
    return .resume (argument args 0) (.cached id f)
  else throw (.type (.functionExpected "cache" f.text))

/-- Calls a function with the items of an array as its arguments. -/
def callWithItems (args : List Value) : Exec Step := do
  let (k, a) ← callerOf args
  let items ←
    match argument args 3 with
    | .undefined => pure []
    | v => v.toItems
  return .through (.call (argument args 2) (k :: .str a :: items))

/-- Begins an enumeration with the options in the last argument. -/
def enumerateCall (args : List Value) : Exec Step := do
  let (k, a) ← callerOf args
  let thunk := argument args 2
  if thunk.isCallable then
    let options ← EnumerateOptions.ofValue "Enumerate" (argument args 3)
    startEnumeration k a thunk options
  else throw (.type (.functionExpected "Enumerate" thunk.text))

/-- Begins an inference with the method and options in the first argument. -/
def inferCall (args : List Value) : Exec Step := do
  let (k, a) ← callerOf args
  let thunk := argument args 3
  let options ← EnumerateOptions.ofMethod (argument args 2) thunk
  startEnumeration k a thunk options

/-- Calls a function that takes its continuation along. -/
def Builtin.run (b : Builtin) (args : List Value) : Exec Step :=
  match b with
  | .map => gatherCalls .map args
  | .filter => gatherCalls .filter args
  | .forEach => gatherCalls .forEach args
  | .times => repeatCalls args
  | .cache => makeCached args
  | .sample => do
    let (k, a) ← callerOf args
    let d ← (argument args 2).toDist
    sampleAt k a d (argument args 3)
  | .factor => do
    let (k, a) ← callerOf args
    let x ← numberArgument args 2
    factorAt k a x
  | .sampleWithFactor => do
    let (k, a) ← callerOf args
    let d ← (argument args 2).toDist
    sampleWithFactorAt k a d (argument args 3)
  | .incrementalize => callWithItems args
  | .enumerate => enumerateCall args
  | .infer => inferCall args

/-- Calls a function that keeps its results under the texts of its arguments. -/
def callCached (table : Nat) (f : Value) (args : List Value) : Exec Step := do
  let k := argument args 0
  let rest := args.drop 2
  let key := (Value.array rest).text
  match (← get).cached? table key with
  | some v => return .resume k v
  | none =>
    let after ← Exec.newCont (.remember table key k)
    return .through (.call f (after :: argument args 1 :: rest))

/-- Takes the result for the item of a loop. -/
def Loop.collect (loop : Loop) (index : Nat) (rest : List Value) (acc item result : Value) :
    Exec Step := do
  match loop with
  | .gather how .. => return .bounce (.turn loop (index + 1) rest (how.next acc item result))
  | .weigh engine k _ d _ _ base =>
    let extra ← result.toNumber
    let score := base + d.score item + extra
    let e ← Engine.live engine
    Engine.save { e with frontier := e.frontier.push ⟨k, item, score, (← get).store⟩ }
    return .bounce (.turn loop (index + 1) rest .undefined)

/-- Goes on with a loop: calls its function for the next item, or ends it. -/
def Loop.iterate (loop : Loop) (index : Nat) (items : List Value) (acc : Value) : Exec Step := do
  match loop, items with
  | .gather _ k _ _, [] => return .resume k acc
  | .gather how _ a f, item :: rest =>
    let after ← Exec.newCont (.collect loop index rest acc item)
    let own := if how = .times then [] else [item]
    return .through (.call f (after :: .str (subaddress a (toString index)) :: own))
  | .weigh engine .., [] =>
    let e ← Engine.live engine
    e.advance
  | .weigh _ _ a _ f store _, item :: rest =>
    Exec.setStore store
    let after ← Exec.newCont (.collect loop index rest acc item)
    return .through (.call f [after, .str (subaddress a "sf"), item])

/-- Hands a continuation its value. -/
def Cont.receive (c : Cont) (v : Value) : Exec Step := do
  match c with
  | .exit => return .done v
  | .collect loop index rest acc item => loop.collect index rest acc item v
  | .remember table key k =>
    modify fun m => m.remember table key v
    return .resume k v
  | .drawn k a f =>
    let after ← Exec.newCont (.scored k a v)
    return .through (.call f [after, .str (subaddress a "sf"), v])
  | .scored k a value =>
    let x ← v.toNumber
    let after ← Exec.newCont (.weighted k value)
    factorAt after a x
  | .weighted k value => return .resume k value
  | .leave engine =>
    let e ← Engine.live engine
    e.leave v

/-- Calls a value. -/
def applyValue (f : Value) (args : List Value) : Exec Step := do
  match f with
  | .closure id name params body env => enterClosure id name params body env args
  | .builtin b => b.run args
  | .cached table g => callCached table g args
  | .cont _ c => c.receive (argument args 0)
  | .primitive p =>
    match args with
    | k :: _ :: rest =>
      let v ← p.run rest
      return .resume k v
    | _ => throw (.type (.noContinuation p.name))
  | v => throw (.type (.notFunction v.text))

/-- Does a task. -/
def Task.perform (t : Task) : Exec Step := do
  match t with
  | .call f args => applyValue f args
  | .turn loop index rest acc => return .bounce (.iterate loop index rest acc)
  | .iterate loop index rest acc => loop.iterate index rest acc
  | .enter engine thunk exit =>
    modify fun m => m.install (.engine engine)
    return .through (.call thunk [exit, .str engine.address])

end Chance
