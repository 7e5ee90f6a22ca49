/-!
# Reading numbers

A numeral is a run of digits with an optional point and an optional power of ten. It denotes the
double nearest to its value.
-/

namespace Chance.Decimal

/-- The value of a run of digits. -/
def natOfDigits (ds : List Char) : Nat :=
  ds.foldl (fun n d => 10 * n + (d.toNat - 48)) 0

/-- The double nearest to `m * 10 ^ e`. Magnitudes far outside the range of doubles are settled by
the place of the leading digit alone. -/
def nearest (m : Nat) (e : Int) : Float :=
  if m = 0 then 0
  else
    let place := (Nat.toDigits 10 m).length + e
    if 400 < place then 1.0 / 0.0
    else if place < -400 then 0
    else Float.ofScientific m (e < 0) e.natAbs

/-- A numeral in its parts. -/
structure Numeral where
  whole : List Char
  fraction : List Char
  exponent : Int
deriving DecidableEq, Repr

def Numeral.value (n : Numeral) : Float :=
  nearest (natOfDigits (n.whole ++ n.fraction)) (n.exponent - n.fraction.length)

/-- The power of ten at the head of a text, with the rest: `e` or `E`, an optional sign and at
least one digit. Where these are not all there, nothing is taken. -/
def readExponent : List Char → Int × List Char
  | [] => (0, [])
  | c :: cs =>
    let (negative, ds) :=
      match cs with
      | '-' :: ds => (true, ds)
      | '+' :: ds => (false, ds)
      | ds => (false, ds)
    let digits := ds.takeWhile Char.isDigit
    if (c = 'e' ∨ c = 'E') ∧ digits ≠ [] then
      let n : Int := natOfDigits digits
      (if negative then -n else n, ds.dropWhile Char.isDigit)
    else (0, c :: cs)

/-- A text that is a numeral from end to end. A point needs a digit on one of its sides. -/
def numeral? (cs : List Char) : Option Numeral :=
  let whole := cs.takeWhile Char.isDigit
  let (fraction, rest) :=
    match cs.dropWhile Char.isDigit with
    | '.' :: rest => (rest.takeWhile Char.isDigit, rest.dropWhile Char.isDigit)
    | rest => ([], rest)
  if whole = [] ∧ fraction = [] then none
  else
    match readExponent rest with
    | (e, []) => some ⟨whole, fraction, e⟩
    | _ => none

/-- The names of the values that have no numeral, in any mix of cases. -/
def named? (cs : List Char) : Option Float :=
  let name := cs.map Char.toLower
  if name = ['i', 'n', 'f'] ∨ name = ['i', 'n', 'f', 'i', 'n', 'i', 't', 'y'] then some (1.0 / 0.0)
  else if name = ['n', 'a', 'n'] then some (0.0 / 0.0)
  else none

/-- The number that a whole text denotes: an optional sign before a numeral or a name. -/
def float? (cs : List Char) : Option Float :=
  let magnitude (ds : List Char) : Option Float := ((numeral? ds).map Numeral.value).or (named? ds)
  match cs with
  | '-' :: ds => (magnitude ds).map fun x => -x
  | '+' :: ds => magnitude ds
  | ds => magnitude ds

end Chance.Decimal
