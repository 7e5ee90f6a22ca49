import Chance.Distribution.Basic

/-!
# Tallies

A tally adds up the probability of each result of an enumeration, as a logarithm. Results with the
same text are one result. They are kept in the order of their first appearance.
-/

namespace Chance

structure TallyEntry where
  key : String
  value : Value
  score : Float
deriving Inhabited

structure Tally where
  entries : List TallyEntry
deriving Inhabited

namespace Tally

def empty : Tally := ⟨[]⟩

/-- Adds to the entry with the given key, or appends a new one. -/
def addEntry (key : String) (v : Value) (score : Float) : List TallyEntry → List TallyEntry
  | [] => [⟨key, v, score⟩]
  | e :: es =>
    if e.key = key then ⟨e.key, e.value, Number.logAddExp e.score score⟩ :: es
    else e :: addEntry key v score es

/-- Adds a result. Without probability it leaves no trace. -/
def add (t : Tally) (v : Value) (score : Float) : Tally :=
  if score == Number.negInfinity || score.isNaN then t
  else ⟨addEntry v.text v score t.entries⟩

/-- The logarithm of the total probability. -/
def total (t : Tally) : Float :=
  t.entries.foldl (fun acc e => Number.logAddExp acc e.score) Number.negInfinity

/-- The results with their shares of the total. -/
def shares (t : Tally) : List (String × Value × Float) :=
  let norm := t.total
  t.entries.map fun e => (e.key, e.value, (e.score - norm).exp)

/-- The distribution of the results, if there are any. -/
def marginal (t : Tally) : Except Error Dist :=
  if t.entries.isEmpty then .error .zeroProbability else .ok (.marginal t.shares)

end Tally

end Chance
