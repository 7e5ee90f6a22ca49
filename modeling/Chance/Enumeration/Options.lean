import Chance.Enumeration.Strategy
import Chance.Value.Coerce

/-!
# Options of an enumeration

Programs set a limit on the number of completed paths and a strategy by an options object.
-/

namespace Chance

structure EnumerateOptions where
  /-- The number of paths after which the enumeration ends; no limit when absent. -/
  limit : Option Nat
  strategy : Strategy
deriving DecidableEq, Repr

namespace EnumerateOptions

def default : EnumerateOptions :=
  ⟨none, .default none⟩

/-- The limit that a value sets. -/
def limitOf (who : String) (v : Value) : Except Error (Option Nat) :=
  match v with
  | .undefined => .ok none
  | .num x =>
    if x == Number.infinity then .ok none
    else if x ≥ 1 ∧ Number.isIntegral x then .ok (some (Number.toCount x))
    else .error (.options who (.maxExecutions v.text))
  | v => .error (.options who (.maxExecutions v.text))

/-- The strategy that a value sets. -/
def strategyOf (who : String) (limit : Option Nat) (v : Value) : Except Error Strategy :=
  match v with
  | .undefined => .ok (.default limit)
  | .str s =>
    match Strategy.named? s with
    | some strategy => .ok strategy
    | none => .error (.options who (.unknownStrategy s))
  | v => .error (.options who (.strategyType v.text))

/-- Reads the options that `who` was given; without any, the defaults hold. -/
def ofValue (who : String) (options : Value) : Except Error EnumerateOptions :=
  match options with
  | .undefined => .ok default
  | .object fields =>
    match fields.find? fun f => f.1 ≠ "maxExecutions" ∧ f.1 ≠ "strategy" with
    | some f => .error (.options who (.unknown f.1))
    | none => do
      let limit ← limitOf who (options.get "maxExecutions")
      let strategy ← strategyOf who limit (options.get "strategy")
      return ⟨limit, strategy⟩
  | v => .error (.options who (.notObject v.text))

/-- Reads the options of a general inference call: a method, which has to be enumeration, and the
options of that method. -/
def ofMethod (options thunk : Value) : Except Error EnumerateOptions :=
  match options with
  | .object fields => do
    match fields.find? fun f => f.1 = "method" with
    | none => throw (.options "Infer" .noMethod)
    | some (_, m) =>
      match m with
      | .str "enumerate" => pure ()
      | m => throw (.options "Infer" (.unavailableMethod m.text))
    if thunk.isCallable then ofValue "Infer" (.object (fields.filter fun f => f.1 ≠ "method"))
    else throw (.type (.functionExpected "Infer" thunk.text))
  | v => .error (.options "Infer" (.notObject v.text))

end EnumerateOptions

end Chance
