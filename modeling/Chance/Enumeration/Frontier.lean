import Chance.Enumeration.Strategy
import Chance.Value.Basic
import Chance.Number.Basic

/-!
# Frontiers

The choices that an enumeration has put off, in an arrangement that suits its strategy. `toList`
gives the entries in the order in which they will be taken up.
-/

namespace Chance

/-- A choice that was put off: go on at `k` with `value`, with the score and the store that the path
had. -/
structure Entry where
  k : Value
  value : Value
  score : Float
  store : List (String × Value)
deriving Inhabited

inductive Frontier where
  /-- By descending score, earlier entries first where scores are equal. -/
  | ranked (entries : List Entry)
  /-- The latest entry first. -/
  | stack (entries : List Entry)
  /-- The earliest entry first; the later ones are kept aside in reverse order. -/
  | queue (front back : List Entry)
deriving Inhabited

namespace Frontier

def empty : Strategy → Frontier
  | .likelyFirst => ranked []
  | .depthFirst => stack []
  | .breadthFirst => queue [] []

/-- The entries in the order in which they will be taken up. -/
def toList : Frontier → List Entry
  | ranked es => es
  | stack es => es
  | queue front back => front ++ back.reverse

def size : Frontier → Nat
  | ranked es => es.length
  | stack es => es.length
  | queue front back => front.length + back.length

def isEmpty : Frontier → Bool
  | ranked es => es.isEmpty
  | stack es => es.isEmpty
  | queue front back => front.isEmpty && back.isEmpty

/-- Puts an entry behind all entries whose score is not less. -/
def insert (e : Entry) : List Entry → List Entry
  | [] => [e]
  | f :: fs =>
    if Number.orderKey e.score ≤ Number.orderKey f.score then f :: insert e fs else e :: f :: fs

def push (e : Entry) : Frontier → Frontier
  | ranked es => ranked (insert e es)
  | stack es => stack (e :: es)
  | queue front back => queue front (e :: back)

/-- The entry to be taken up next, and the others. -/
def pop? : Frontier → Option (Entry × Frontier)
  | ranked [] => none
  | ranked (e :: es) => some (e, ranked es)
  | stack [] => none
  | stack (e :: es) => some (e, stack es)
  | queue (e :: front) back => some (e, queue front back)
  | queue [] back =>
    match back.reverse with
    | [] => none
    | e :: front => some (e, queue front [])

def clear : Frontier → Frontier
  | ranked _ => ranked []
  | stack _ => stack []
  | queue _ _ => queue [] []

end Frontier

end Chance
