import Chance.Error

/-!
# Strategies

The order in which an enumeration explores the choices it has put off.
-/

namespace Chance

inductive Strategy where
  /-- The highest score first. -/
  | likelyFirst
  /-- The latest first. -/
  | depthFirst
  /-- The earliest first. -/
  | breadthFirst
deriving DecidableEq, Repr

namespace Strategy

/-- The strategy for an enumeration that sets none: the likely paths matter only where not all paths
are explored. -/
def default (limit : Option Nat) : Strategy :=
  match limit with
  | some _ => likelyFirst
  | none => depthFirst

/-- The strategy of the given name. -/
def named? (s : String) : Option Strategy :=
  if s = "likelyFirst" ∨ s = "likely-first" then some likelyFirst
  else if s = "depthFirst" ∨ s = "depth-first" then some depthFirst
  else if s = "breadthFirst" ∨ s = "breadth-first" then some breadthFirst
  else none

/-- The strategy of the given name, which is quoted where there is none. -/
def parse (s : String) : Except Error Strategy :=
  match named? s with
  | some strategy => .ok strategy
  | none => .error (.options "Enumerate" (.unknownStrategy (Text.quoted s)))

end Strategy

end Chance
