/-!
# Shortest decimals

A finite double stands for an interval of reals, those that round to it. `shortest` selects the
decimal with the fewest digits in that interval, and the closest of those. Everything is computed
on naturals from the bits of the double.
-/

namespace Chance.Decimal

/-- A finite double without its sign: `mantissa * 2 ^ exponent`. -/
structure Binary where
  mantissa : Nat
  exponent : Int
  /-- The neighbour below is half as far away as the neighbour above. -/
  narrowBelow : Bool
deriving DecidableEq, Repr

/-- Reads the magnitude off the bits of a finite double. -/
def Binary.ofBits (bits : UInt64) : Binary :=
  let stored := ((bits >>> 52) &&& 0x7FF).toNat
  let fraction := (bits &&& 0xFFFFFFFFFFFFF).toNat
  if stored = 0 then ⟨fraction, -1074, false⟩
  else ⟨0x10000000000000 + fraction, (stored : Int) - 1075, fraction = 0 ∧ 1 < stored⟩

/-- A decimal `digits * 10 ^ exponent`. -/
structure Digits where
  digits : Nat
  exponent : Int
deriving DecidableEq, Repr

/-- Compares `a * 10 ^ i` with `n * 2 ^ j`. -/
def compareScaled (a : Nat) (i : Int) (n : Nat) (j : Int) : Ordering :=
  compare (a * Nat.pow 10 i.toNat * Nat.pow 2 (-j).toNat)
    (n * Nat.pow 2 j.toNat * Nat.pow 10 (-i).toNat)

/-- The decimal lies among the reals that round to `x`: between the halfway points to the two
neighbours, ends included exactly when the mantissa is even. -/
def Binary.covers (x : Binary) (d : Digits) : Bool :=
  let below := if x.narrowBelow then 4 * x.mantissa - 1 else 4 * x.mantissa - 2
  let above := 4 * x.mantissa + 2
  let closed := x.mantissa % 2 = 0
  let low := compareScaled d.digits d.exponent below (x.exponent - 2)
  let high := compareScaled d.digits d.exponent above (x.exponent - 2)
  (low = .gt ∨ (closed ∧ low = .eq)) ∧ (high = .lt ∨ (closed ∧ high = .eq))

/-- The magnitude as a fraction of naturals. -/
def Binary.fraction (x : Binary) : Nat × Nat :=
  (x.mantissa * Nat.pow 2 x.exponent.toNat, Nat.pow 2 (-x.exponent).toNat)

/-- The number of decimal digits before the point (negative for small magnitudes): the least `k`
with `x < 10 ^ k`, found next to an estimate from the binary logarithms. -/
def Binary.scale (x : Binary) : Int :=
  let (num, den) := x.fraction
  let guess : Int := Int.fdiv (((num.log2 : Int) - den.log2) * 30103) 100000
  let fits (k : Int) : Bool := num * Nat.pow 10 (-k).toNat < den * Nat.pow 10 k.toNat
  if fits guess then guess else if fits (guess + 1) then guess + 1 else guess + 2

/-- The best decimal on the grid of step `10 ^ exponent`, if one of the value's two neighbours there
reads back. A value halfway between the two goes to the upper one. -/
def Binary.onGrid? (x : Binary) (exponent : Int) : Option Digits :=
  let (num, den) := x.fraction
  let num := num * Nat.pow 10 (-exponent).toNat
  let den := den * Nat.pow 10 exponent.toNat
  let lower : Digits := ⟨num / den, exponent⟩
  let upper : Digits := ⟨num / den + 1, exponent⟩
  match x.covers lower, x.covers upper with
  | true, true => some (if 2 * (num % den) < den then lower else upper)
  | true, false => some lower
  | false, true => some upper
  | false, false => none

/-- Moves trailing zeros of the digits into the exponent. -/
def Digits.strip : Nat → Digits → Digits
  | 0, d => d
  | fuel + 1, d =>
    if d.digits % 10 = 0 ∧ d.digits ≠ 0 then strip fuel ⟨d.digits / 10, d.exponent + 1⟩ else d

/-- The decimal with the fewest digits that reads back as `x`. The last resort, the exact value, is
for completeness: seventeen digits always suffice. -/
def Binary.shortest (x : Binary) : Digits :=
  let k := x.scale
  let found := (List.range 17).findSome? fun n => x.onGrid? (k - (n + 1 : Nat))
  let exact : Digits :=
    ⟨x.mantissa * Nat.pow 2 x.exponent.toNat * Nat.pow 5 (-x.exponent).toNat, min x.exponent 0⟩
  let d := found.getD exact
  d.strip (Nat.toDigits 10 d.digits).length

end Chance.Decimal
