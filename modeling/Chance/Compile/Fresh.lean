import Chance.Program.Basic

/-!
# Generated names

Each compilation pass counts the names it makes up. A generated name is an underscore, a hint and
the count.
-/

namespace Chance.Compile

/-- Computations that make up names. -/
abbrev Gen := StateM Nat

/-- The next number. -/
def next : Gen Nat := do
  let n ← get
  set (n + 1)
  return n

/-- The name with the given hint and number. -/
def generated (hint : String) (n : Nat) : String :=
  "_" ++ hint ++ toString n

/-- A new name. -/
def fresh (hint : String) : Gen String := do
  let n ← next
  return generated hint n

/-- A new text, a fragment of an address. -/
def fragment : Gen Expr := do
  let n ← next
  return .str (generated "" n)

end Chance.Compile
