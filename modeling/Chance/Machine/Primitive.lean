import Chance.Machine.State

/-!
# Primitive functions, members and methods

What is computed in place, without a continuation.
-/

namespace Chance

/-- The argument at a position; `undefined` beyond the last. -/
def argument (args : List Value) (i : Nat) : Value :=
  (args[i]?).getD .undefined

/-- The number at a position. -/
def numberArgument (args : List Value) (i : Nat) : Except Error Float :=
  (argument args i).toNumber

/-- A function of one number. -/
def onNumber (f : Float → Float) (args : List Value) : Except Error Value := do
  return .num (f (← numberArgument args 0))

/-- Combines the numbers of all arguments, from the left. -/
def onNumbers (f : Float → Float → Float) (start : Float) (args : List Value) :
    Except Error Value := do
  let m ← args.foldlM (fun m a => do return f m (← a.toNumber)) start
  return .num m

/-- The mean of the values of a distribution. -/
def meanOf (v : Value) : Except Error Value := do
  let d ← v.toDist
  match d.support with
  | none => throw (.type (.infiniteSupport d.outline))
  | some vs =>
    let total ← vs.foldlM (fun total v => do return total + (d.score v).exp * (← v.toNumber)) 0
    return .num total

/-- A new distribution from the parameters in the first argument. -/
def makeDist (kind : Dist.Kind) (args : List Value) : Exec Value := do
  let d ← Dist.make kind (argument args 0)
  Exec.newDist d

/-- Prints the arguments on a line. -/
def printLine (args : List Value) : Exec Value := do
  let line := " ".intercalate (args.map Value.key)
  modify fun m => { m with output := m.output ++ line ++ "\n" }
  return .undefined

def Primitive.run (p : Primitive) (args : List Value) : Exec Value :=
  match p with
  | .log => onNumber Float.log args
  | .exp => onNumber Float.exp args
  | .sqrt => onNumber Float.sqrt args
  | .pow => do
    let x ← numberArgument args 0
    let y ← numberArgument args 1
    return .num (x.pow y)
  | .abs => onNumber Float.abs args
  | .floor => onNumber Float.floor args
  | .ceil => onNumber Float.ceil args
  | .round => onNumber (fun x => (x + 0.5).floor) args
  | .min => onNumbers Number.min Number.infinity args
  | .max => onNumbers Number.max Number.negInfinity args
  | .display => printLine args
  | .expectation => meanOf (argument args 0)
  | .bernoulli => makeDist .bernoulli args
  | .randomInteger => makeDist .randomInteger args
  | .categorical => makeDist .categorical args
  | .discrete => makeDist .discrete args
  | .binomial => makeDist .binomial args
  | .delta => makeDist .delta args
  | .uniform => makeDist .uniform args
  | .gaussian => makeDist .gaussian args

/-- The position that a number denotes. -/
def position? (x : Float) : Option Nat :=
  if x ≥ 0 ∧ Number.isIntegral x then some (Number.toCount x) else none

/-- A property of a value. -/
def member (object property : Value) : Except Error Value :=
  match object, property with
  | .undefined, p => .error (.type (.noProperty p.text object.text))
  | .null, p => .error (.type (.noProperty p.text object.text))
  | .array vs, .num x => .ok (((position? x).bind fun i => vs[i]?).getD .undefined)
  | .array vs, .str "length" => .ok (.num (Float.ofNat vs.length))
  | .str s, .str "length" => .ok (.num (Float.ofNat s.length))
  | .str s, .num x =>
    match (position? x).bind fun i => s.toList[i]? with
    | some c => .ok (.str (String.singleton c))
    | none => .ok .undefined
  | .dist _ d, .str "name" => .ok (.str d.name)
  | .object _, p => .ok (object.get p.key)
  | _, _ => .ok .undefined

/-- An end of a slice: negative numbers count from the end, and all are moved into the range. -/
def sliceEnd (length : Nat) (v : Value) (default : Nat) : Except Error Nat :=
  match v with
  | .undefined => .ok default
  | v => do
    let n ← v.toNumber
    let n := if n < 0 then Float.ofNat length + n else n
    return Number.toCount (Number.min (Number.max n 0) (Float.ofNat length))

/-- The part of a list between two ends; nothing if they cross. -/
def slice {α : Type} (items : List α) (args : List Value) : Except Error (List α) := do
  let start ← sliceEnd items.length (argument args 0) 0
  let stop ← sliceEnd items.length (argument args 1) items.length
  return (items.drop start).take (stop - start)

/-- An array with more items; arrays among the arguments bring their items. -/
def concatItems (vs args : List Value) : List Value :=
  vs ++ args.flatMap fun
    | .array more => more
    | v => [v]

/-- The position of the first item that satisfies a condition, or minus one. -/
def positionOf {α : Type} (p : α → Bool) (items : List α) : Value :=
  match items.findIdx? p with
  | some i => .num (Float.ofNat i)
  | none => .num (-1)

/-- The characters from each position on. -/
def suffixes : List Char → List (List Char)
  | [] => [[]]
  | c :: cs => (c :: cs) :: suffixes cs

/-- Calls a method in place. -/
def callMethod (object : Value) (name : String) (args : List Value) : Exec Value :=
  match object, name with
  | .array vs, "concat" => return .array (concatItems vs args)
  | .array vs, "slice" => do
    let items ← slice vs args
    return .array items
  | .array vs, "indexOf" => return positionOf (fun v => v.same (argument args 0)) vs
  | .str s, "concat" => return .str (args.foldl (fun s a => s ++ a.key) s)
  | .str s, "slice" => do
    let cs ← slice s.toList args
    return .str (String.ofList cs)
  | .str s, "indexOf" =>
    let needle := (argument args 0).key.toList
    return positionOf (fun cs => needle.isPrefixOf cs) (suffixes s.toList)
  | .dist _ d, "score" => return .num (d.score (argument args 0))
  | .dist _ d, "support" =>
    match d.support with
    | some vs => return .array vs
    | none => return .undefined
  | .object _, name =>
    match object.get name with
    | .primitive p => p.run args
    | .undefined => throw (.type (.noMethod object.text name))
    | v =>
      if v.isCallable then throw (.type (.notPrimitiveMethod name))
      else throw (.type (.notFunction v.text))
  | v, name => throw (.type (.noMethodOf v.typeName v.text name))

end Chance
