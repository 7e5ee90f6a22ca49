/-!
# Random words

Randomness comes as 64-bit words, either from a list, zeros following its end, or from a generator.
-/

namespace Chance

inductive Source where
  /-- The given words, then zeros. -/
  | listed (words : List UInt64)
  /-- A generator by its state. -/
  | generated (state : UInt64)
deriving DecidableEq, Repr, Inhabited

/-- A source and the number of words taken from it. -/
structure Supply where
  source : Source
  used : Nat
deriving DecidableEq, Repr, Inhabited

namespace Supply

/-- Words from a list. -/
def ofWords (words : List UInt64) : Supply :=
  ⟨.listed words, 0⟩

/-- Words from the generator with the given seed. -/
def ofSeed (seed : UInt64) : Supply :=
  ⟨.generated seed, 0⟩

/-- Scrambles the state of the generator into a word. -/
def scramble (state : UInt64) : UInt64 :=
  let z := (state ^^^ (state >>> 30)) * 0xBF58476D1CE4E5B9
  let z := (z ^^^ (z >>> 27)) * 0x94D049BB133111EB
  z ^^^ (z >>> 31)

/-- Takes a word. -/
def next (s : Supply) : UInt64 × Supply :=
  match s.source with
  | .listed [] => (0, ⟨.listed [], s.used + 1⟩)
  | .listed (w :: ws) => (w, ⟨.listed ws, s.used + 1⟩)
  | .generated state =>
    let state := state + 0x9E3779B97F4A7C15
    (scramble state, ⟨.generated state, s.used + 1⟩)

/-- A number in `[0, 1)`, from the upper 53 bits of a word. -/
def unit (s : Supply) : Float × Supply :=
  let (w, s) := s.next
  ((w >>> 11).toFloat * (1.0 / 9007199254740992.0), s)

/-- How many words may be rejected in a row: a listed source ends in zeros, which are accepted. -/
def patience (s : Supply) : Nat :=
  match s.source with
  | .listed words => words.length
  | .generated _ => 128

/-- A number below `n`: the upper half of a product with a word whose lower half is in the zone
that every number is reached from equally often. -/
def belowWithin (n : Nat) : Nat → Supply → Nat × Supply
  | 0, s =>
    let (w, s) := s.next
    (w.toNat * n / 2 ^ 64, s)
  | tries + 1, s =>
    let (w, s) := s.next
    let product := w.toNat * n
    let zone := n * 2 ^ (63 - n.log2) - 1
    if product % 2 ^ 64 ≤ zone then (product / 2 ^ 64, s) else belowWithin n tries s

/-- A number below `n`, all of them equally likely. -/
def below (n : Nat) (s : Supply) : Nat × Supply :=
  belowWithin n s.patience s

end Supply

end Chance
