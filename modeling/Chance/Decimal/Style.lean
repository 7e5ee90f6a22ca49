import Chance.Decimal.Shortest

/-!
# Writing numbers

A style fixes everything about the text of a number that its digits do not: where the positional
form ends, what a whole number looks like, and how the zeros and infinities are written.
-/

namespace Chance.Decimal

structure Style where
  /-- Powers of ten of the leading digit that are written positionally, as a half-open range; all of
  them when absent. -/
  positional : Option (Int × Int)
  /-- Whole numbers end in `.0`. -/
  pointZero : Bool
  /-- Negative zero keeps its sign. -/
  signedZero : Bool
  infinity : String
  nan : String
deriving DecidableEq, Repr

/-- Digits before the point, digits after it. The point stands after `before` digits, where
`before` may lie outside the digits. -/
def splitDigits (digits : List Char) (before : Int) : List Char × List Char :=
  if before ≤ 0 then (['0'], List.replicate (-before).toNat '0' ++ digits)
  else (digits.take before.toNat ++ List.replicate (before.toNat - digits.length) '0',
    digits.drop before.toNat)

/-- `12`, `12.5`, `0.05`, or `12.0` where whole numbers keep their point. -/
def Style.positionalText (s : Style) (digits : List Char) (before : Int) : List Char :=
  match splitDigits digits before with
  | (whole, []) => if s.pointZero then whole ++ ['.', '0'] else whole
  | (whole, fraction) => whole ++ '.' :: fraction

/-- `1e16`, `1.5e-7`. -/
def scientificText (digits : List Char) (before : Int) : List Char :=
  let mantissa :=
    match digits with
    | d :: e :: rest => d :: '.' :: e :: rest
    | ds => ds
  mantissa ++ 'e' :: (toString (before - 1)).toList

/-- The text of a selected decimal. -/
def Style.layout (s : Style) (d : Digits) : List Char :=
  let digits := Nat.toDigits 10 d.digits
  let before := digits.length + d.exponent
  match s.positional with
  | none => s.positionalText digits before
  | some (low, high) =>
    if low ≤ before - 1 ∧ before - 1 < high then s.positionalText digits before
    else scientificText digits before

/-- The text of a number. -/
def Style.write (s : Style) (x : Float) : String :=
  if x.isNaN then s.nan
  else
    let negative := x.toBits >>> 63 = 1
    let sign (keep : Bool) (body : String) : String :=
      if negative && keep then "-" ++ body else body
    if x.isInf then sign true s.infinity
    else if x == 0 then sign s.signedZero (if s.pointZero then "0.0" else "0")
    else sign true (String.ofList (s.layout (Binary.ofBits x.toBits).shortest))

/-- Numbers as values show them: always positional, one zero. -/
def Style.value : Style where
  positional := none
  pointZero := false
  signedZero := false
  infinity := "Infinity"
  nan := "NaN"

/-- Numbers as literals of a printed program. -/
def Style.source : Style := { Style.value with signedZero := true }

/-- Numbers as messages about parameters show them. -/
def Style.plain : Style := { Style.value with signedZero := true, infinity := "inf" }

/-- Numbers in outlines of programs and distributions: positional from 10⁻⁴ up to below 10¹⁶, with
a point in every positional number. -/
def Style.outline : Style where
  positional := some (-4, 16)
  pointZero := true
  signedZero := true
  infinity := "inf"
  nan := "NaN"

end Chance.Decimal
