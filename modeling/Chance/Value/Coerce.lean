import Chance.Value.Text
import Chance.Error
import Chance.Text.Blank
import Chance.Decimal.Reading
import Chance.Number.Basic

/-!
# Values taken as something

What values count as where a number, a text, an array or a distribution is wanted, and the
operators that rest on it.
-/

namespace Chance

def Error.unexpected (wanted : Wanted) (v : Value) : Error :=
  .type (.unexpected wanted v.typeName v.text)

namespace Value

/-- The number a value counts as in arithmetic. -/
def toNumber : Value → Except Error Float
  | num x => .ok x
  | bool b => .ok (if b then 1 else 0)
  | null => .ok 0
  | undefined => .ok Number.nan
  | v => .error (.unexpected .number v)

def toText : Value → Except Error String
  | str s => .ok s
  | v => .error (.unexpected .string v)

def toItems : Value → Except Error (List Value)
  | array vs => .ok vs
  | v => .error (.unexpected .array v)

def toDist : Value → Except Error Dist
  | dist _ d => .ok d
  | v => .error (.unexpected .distribution v)

/-- The address that a call was made at. -/
def toAddress : Value → Except Error String
  | str a => .ok a
  | v => .error (.type (.notAddress v.text))

/-- The number a scalar counts as when it is compared with a scalar of another type. -/
def scalarNumber : Value → Float
  | num x => x
  | bool b => if b then 1 else 0
  | str s =>
    match Text.trim s.toList with
    | [] => 0
    | cs => (Decimal.float? cs).getD Number.nan
  | _ => Number.nan

def isNullish : Value → Bool
  | undefined | null => true
  | _ => false

/-- Whether two scalars of different types are compared. -/
def areMixedScalars : Value → Value → Bool
  | num _, str _ | num _, bool _ | str _, num _ | str _, bool _ | bool _, num _ | bool _, str _ =>
    true
  | _, _ => false

/-- Equality up to type: `undefined` and `null` equal only each other, and scalars of different
types compare as numbers. -/
def looselySame (v w : Value) : Bool :=
  if v.isNullish || w.isNullish then v.isNullish && w.isNullish
  else if areMixedScalars v w then v.scalarNumber == w.scalarNumber
  else v.same w

/-- The order of two values, if they have one: of two texts by their bytes, else as numbers. -/
def order (v w : Value) : Except Error (Option Ordering) :=
  match v, w with
  | str s, str t => .ok (some (if s < t then .lt else if s = t then .eq else .gt))
  | v, w => do
    let x ← v.toNumber
    let y ← w.toNumber
    return if x < y then some .lt else if x == y then some .eq else if x > y then some .gt else none

/-- An arithmetic operation on the numbers of two values. -/
def arithmetic (f : Float → Float → Float) (v w : Value) : Except Error Value := do
  let x ← v.toNumber
  let y ← w.toNumber
  return num (f x y)

/-- Addition joins texts as soon as one operand is a text. -/
def plus (v w : Value) : Except Error Value :=
  match v, w with
  | str s, w => .ok (str (s ++ w.key))
  | v, str t => .ok (str (v.key ++ t))
  | v, w => arithmetic (· + ·) v w

end Value

/-- Whether an order is one of those named; no order is none of them. -/
def isOneOf (o : Option Ordering) (orders : List Ordering) : Value :=
  .bool (match o with
    | some o => orders.contains o
    | none => false)

def BinaryOp.apply (op : BinaryOp) (v w : Value) : Except Error Value :=
  match op with
  | .add => v.plus w
  | .sub => v.arithmetic (· - ·) w
  | .mul => v.arithmetic (· * ·) w
  | .div => v.arithmetic (· / ·) w
  | .mod => v.arithmetic Number.remainder w
  | .lt => return isOneOf (← v.order w) [.lt]
  | .le => return isOneOf (← v.order w) [.lt, .eq]
  | .gt => return isOneOf (← v.order w) [.gt]
  | .ge => return isOneOf (← v.order w) [.gt, .eq]
  | .eq => .ok (.bool (v.looselySame w))
  | .ne => .ok (.bool (!v.looselySame w))
  | .strictEq => .ok (.bool (v.same w))
  | .strictNe => .ok (.bool (!v.same w))

def UnaryOp.apply (op : UnaryOp) (v : Value) : Except Error Value :=
  match op with
  | .negate => return .num (-(← v.toNumber))
  | .plus => return .num (← v.toNumber)
  | .not => .ok (.bool (!v.truthy))

end Chance
