import Chance.Decimal.Shortest

/-!
# Arithmetic of doubles

The operations on doubles that the language needs beyond the elementary ones. They are computed
exactly on the mantissa and the exponent, and rounded nowhere.
-/

namespace Chance.Number

def infinity : Float := 1.0 / 0.0

def negInfinity : Float := -1.0 / 0.0

def nan : Float := 0.0 / 0.0

/-- Whether the sign bit is set. -/
def isNegative (x : Float) : Bool :=
  x.toBits >>> 63 = 1

/-- A power of two in the range of doubles. -/
def powerOfTwo (e : Int) : Float :=
  if e < -1022 then Float.ofBits (1 <<< (e + 1074).toNat.toUInt64)
  else Float.ofBits ((e + 1023).toNat.toUInt64 <<< 52)

/-- Finite and without a fractional part. -/
def isIntegral (x : Float) : Bool :=
  x.isFinite &&
    let b := Decimal.Binary.ofBits x.toBits
    b.mantissa % Nat.pow 2 (-b.exponent).toNat = 0

/-- The remainder of the division that rounds towards zero; it has the sign of the dividend. -/
def remainder (x y : Float) : Float :=
  if x.isNaN || y.isNaN || x.isInf || y == 0 then nan
  else if y.isInf || x == 0 then x
  else
    let a := Decimal.Binary.ofBits x.toBits
    let b := Decimal.Binary.ofBits y.toBits
    let e := min a.exponent b.exponent
    let r := (a.mantissa * Nat.pow 2 (a.exponent - e).toNat) %
      (b.mantissa * Nat.pow 2 (b.exponent - e).toNat)
    let magnitude := Float.ofNat r * powerOfTwo e
    if isNegative x then -magnitude else magnitude

/-- The larger of two numbers; of equal ones, such as the two zeros, the second; the other one if
one is not a number. -/
def max (x y : Float) : Float :=
  if y.isNaN || x > y then x else y

/-- The smaller of two numbers; of equal ones, such as the two zeros, the second; the other one if
one is not a number. -/
def min (x y : Float) : Float :=
  if y.isNaN || x < y then x else y

/-- The whole part of a number, between zero and the largest 64-bit count. -/
def toCount (x : Float) : Nat :=
  x.toUInt64.toNat

/-- The sum of a list, from the left, beginning with negative zero. -/
def sum (xs : List Float) : Float :=
  xs.foldl (· + ·) (-0.0)

/-- A number whose order as a natural is the total order of doubles: by sign, then by magnitude,
negative zero below zero, what is not a number at the end. -/
def orderKey (x : Float) : UInt64 :=
  if isNegative x then ~~~x.toBits else x.toBits ||| 0x8000000000000000

/-- `log (exp a + exp b)`, without leaving the logarithms. -/
def logAddExp (a b : Float) : Float :=
  if a == negInfinity then b
  else if b == negInfinity then a
  else
    let m := max a b
    m + ((a - m).exp + (b - m).exp).log

end Chance.Number
