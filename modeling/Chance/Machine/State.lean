import Chance.Enumeration.Frontier
import Chance.Enumeration.Tally
import Chance.Enumeration.Options

/-!
# The state of a run

Besides its own bindings a running program reaches the store, the texts it has printed, the tables
of cached functions, the random words, and the stack of coroutines. The innermost coroutine answers
every `sample` and `factor`; below all of them is forward sampling. -/

namespace Chance

/-- The fields that programs reach under the name of the store. -/
abbrev Store := List (String × Value)

/-- An enumeration in progress. -/
structure Engine where
  id : Nat
  /-- The score of the path that is being explored. -/
  score : Float
  frontier : Frontier
  tally : Tally
  /-- The number of paths explored to their end. -/
  completed : Nat
  done : Bool
  limit : Option Nat
  /-- Where the run goes on with the result. -/
  k : Value
  address : String
  /-- The store at the call. -/
  store : Store
deriving Inhabited

/-- What a script saw. -/
inductive Event where
  | sample (address : String) (dist : Dist) (options value : Value)
  | factor (address : String) (score : Float)
deriving Inhabited

/-- A coroutine that answers by a list of choices and keeps a record. -/
structure Script where
  /-- Which value of the support the samples take, in turn; beyond the list, the first. -/
  choices : List Nat
  /-- What happened, the latest first. -/
  events : List Event
  /-- The number of samples answered. -/
  answered : Nat
deriving Inhabited

/-- Who answers `sample` and `factor`. -/
inductive Coroutine where
  | engine (e : Engine)
  /-- A script by its number. -/
  | script (index : Nat)
deriving Inhabited

def Coroutine.name : Coroutine → String
  | engine _ => "Enumerate"
  | script _ => "scripted"

structure Machine where
  store : Store
  /-- The printed lines, each with its line end. -/
  output : String
  /-- The next identity. -/
  nextId : Nat
  /-- The tables of cached functions by identity. -/
  tables : List (Nat × List (String × Value))
  /-- The installed coroutines, the innermost first. -/
  stack : List Coroutine
  /-- All scripts that were ever installed. -/
  scripts : List Script
  supply : Supply
deriving Inhabited

/-- Computations of a running program. An error leaves the state as it was when it arose. -/
abbrev Exec := EStateM Error Machine

instance : MonadLift (Except Error) Exec where
  monadLift
    | .ok a => pure a
    | .error e => throw e

namespace Machine

/-- The state before the first program, with the given random words. -/
def initial (supply : Supply) : Machine where
  store := []
  output := ""
  nextId := 0
  tables := []
  stack := []
  scripts := []
  supply := supply

/-- The number of installed coroutines. -/
def depth (m : Machine) : Nat :=
  m.stack.length

/-- The name of whoever answers `sample` and `factor`. -/
def coroutineName (m : Machine) : String :=
  match m.stack with
  | [] => "top-level"
  | c :: _ => c.name

def install (m : Machine) (c : Coroutine) : Machine :=
  { m with stack := c :: m.stack }

/-- Installs a new script. -/
def installScript (m : Machine) (choices : List Nat) : Machine :=
  { m with
    stack := .script m.scripts.length :: m.stack
    scripts := m.scripts ++ [⟨choices, [], 0⟩] }

/-- Removes the innermost coroutine. -/
def uninstall (m : Machine) : Option Coroutine × Machine :=
  (m.stack.head?, { m with stack := m.stack.tail })

/-- Removes coroutines until no more than `depth` are left. -/
def truncate (m : Machine) (depth : Nat) : Machine :=
  { m with stack := m.stack.drop (m.stack.length - depth) }

/-- The enumeration with the given identity, if it is installed. -/
def engine? (m : Machine) (id : Nat) : Option Engine :=
  m.stack.findSome? fun
    | .engine e => if e.id = id then some e else none
    | .script _ => none

/-- Replaces the state of an installed enumeration. -/
def putEngine (m : Machine) (e : Engine) : Machine :=
  { m with
    stack := m.stack.map fun
      | .engine f => if f.id = e.id then .engine e else .engine f
      | .script i => .script i }

/-- The result kept for a key in the table of a cached function. -/
def cached? (m : Machine) (table : Nat) (key : String) : Option Value :=
  (m.tables.lookup table).bind fun t => t.lookup key

/-- Keeps a result in the table of a cached function; the latest counts. -/
def remember (m : Machine) (table : Nat) (key : String) (v : Value) : Machine :=
  let t := (m.tables.lookup table).getD []
  { m with tables := (table, (key, v) :: t) :: m.tables.filter fun u => u.1 ≠ table }

/-- The answer of a script to a sample, which it records. -/
def answer (m : Machine) (index : Nat) (address : String) (d : Dist) (options : Value) :
    Value × Machine :=
  match m.scripts[index]? with
  | none => (.undefined, m)
  | some s =>
    let support := d.support.getD []
    let choice := (s.choices[s.answered]?).getD 0
    let value := (support[choice % support.length]?).getD .undefined
    let s := ⟨s.choices, .sample address d options value :: s.events, s.answered + 1⟩
    (value, { m with scripts := m.scripts.set index s })

/-- Records a factor. -/
def note (m : Machine) (index : Nat) (address : String) (score : Float) : Machine :=
  match m.scripts[index]? with
  | none => m
  | some s =>
    let s := { s with events := .factor address score :: s.events }
    { m with scripts := m.scripts.set index s }

end Machine

namespace Exec

/-- A new identity. -/
def freshId : Exec Nat := do
  let m ← get
  set { m with nextId := m.nextId + 1 }
  return m.nextId

/-- A new continuation. -/
def newCont (c : Cont) : Exec Value := do
  let id ← freshId
  return .cont id c

/-- A new distribution. -/
def newDist (d : Dist) : Exec Value := do
  let id ← freshId
  return .dist id d

def setStore (s : Store) : Exec Unit :=
  modify fun m => { m with store := s }

end Exec

end Chance
