import Chance.Program.Basic

/-!
# Values

The values that programs compute with. Data compare by what they are. Functions, continuations and
distributions also have an identity: the number they were given when they came to be.

Continuations of the machine are data too. Each says what is to be done with the value it will
receive, so that it can be kept, copied and resumed any number of times.
-/

namespace Chance

/-- Functions that only compute a result from their arguments. -/
inductive Primitive where
  | log
  | exp
  | sqrt
  | pow
  | abs
  | floor
  | ceil
  | round
  | min
  | max
  | display
  | expectation
  | bernoulli
  | randomInteger
  | categorical
  | discrete
  | binomial
  | delta
  | uniform
  | gaussian
deriving DecidableEq, Repr

/-- Functions that decide how the run goes on. -/
inductive Builtin where
  | map
  | filter
  | forEach
  | times
  | cache
  | sample
  | factor
  | sampleWithFactor
  | incrementalize
  | enumerate
  | infer
deriving DecidableEq, Repr

/-- What a loop over calls makes of their results. -/
inductive Gather where
  /-- All results. -/
  | map
  /-- The items whose result is true. -/
  | filter
  /-- Nothing. -/
  | forEach
  /-- All results, of calls without an item. -/
  | times
deriving DecidableEq, Repr

mutual

inductive Value where
  | undefined
  | null
  | bool (b : Bool)
  | num (x : Float)
  | str (s : String)
  | array (items : List Value)
  /-- Fields in ascending order of their keys. -/
  | object (fields : List (String × Value))
  /-- A function of the program with the scopes it was made in, the innermost first. -/
  | closure (id : Nat) (name : Option String) (params : List String) (body : List Stmt)
      (env : List (List (String × Value)))
  | primitive (p : Primitive)
  | builtin (b : Builtin)
  /-- A function whose results are kept in a table; the table has the identity of the function. -/
  | cached (id : Nat) (f : Value)
  | cont (id : Nat) (c : Cont)
  | dist (id : Nat) (d : Dist)

inductive Dist where
  | bernoulli (p : Float)
  | randomInteger (n : Nat)
  | categorical (ps : List Float) (vs : List Value)
  | discrete (ps : List Float)
  | binomial (p : Float) (n : Nat)
  | delta (v : Value)
  | uniform (a b : Float)
  | gaussian (mu sigma : Float)
  /-- What an enumeration observed: the text of each value, the value and its probability. -/
  | marginal (entries : List (String × Value × Float))

inductive Cont where
  /-- Ends the run. -/
  | exit
  /-- Takes the result for an item of a loop and goes on with the rest. -/
  | collect (loop : Loop) (index : Nat) (rest : List Value) (acc item : Value)
  /-- Puts a result into the table of a cached function. -/
  | remember (table : Nat) (key : String) (k : Value)
  /-- Takes a drawn value and calls a function for its extra score. -/
  | drawn (k : Value) (address : String) (score : Value)
  /-- Takes the extra score of a drawn value. -/
  | scored (k : Value) (address : String) (value : Value)
  /-- Goes on with a drawn value once its score counts. -/
  | weighted (k value : Value)
  /-- Ends a path of an enumeration. -/
  | leave (engine : Nat)

inductive Loop where
  /-- Calls of a function, at addresses numbered from zero. -/
  | gather (how : Gather) (k : Value) (address : String) (f : Value)
  /-- Scores all values of a distribution before an enumeration queues them. -/
  | weigh (engine : Nat) (k : Value) (address : String) (dist : Dist) (score : Value)
      (store : List (String × Value)) (base : Float)

end

deriving instance Inhabited for Value, Dist, Cont, Loop

/-- Bindings of names, the latest last. -/
abbrev Frame := List (String × Value)

/-- Nested scopes, the innermost first. -/
abbrev Env := List Frame

namespace Env

/-- The value of a name in the innermost scope that binds it, there in its latest binding. -/
def lookup? (env : Env) (x : String) : Option Value :=
  env.findSome? fun frame => (frame.reverse.find? fun b => b.1 == x).map Prod.snd

end Env

def Primitive.name : Primitive → String
  | log => "log"
  | exp => "exp"
  | sqrt => "sqrt"
  | pow => "pow"
  | abs => "abs"
  | floor => "floor"
  | ceil => "ceil"
  | round => "round"
  | min => "min"
  | max => "max"
  | display => "display"
  | expectation => "expectation"
  | bernoulli => "Bernoulli"
  | randomInteger => "RandomInteger"
  | categorical => "Categorical"
  | discrete => "Discrete"
  | binomial => "Binomial"
  | delta => "Delta"
  | uniform => "Uniform"
  | gaussian => "Gaussian"

def Builtin.name : Builtin → String
  | map => "map"
  | filter => "filter"
  | forEach => "forEach"
  | times => "repeat"
  | cache => "cache"
  | sample => "sample"
  | factor => "factor"
  | sampleWithFactor => "sampleWithFactor"
  | incrementalize => "incrementalize"
  | enumerate => "Enumerate"
  | infer => "Infer"

def Dist.name : Dist → String
  | bernoulli .. => "Bernoulli"
  | randomInteger .. => "RandomInteger"
  | categorical .. => "Categorical"
  | discrete .. => "Discrete"
  | binomial .. => "Binomial"
  | delta .. => "Delta"
  | uniform .. => "Uniform"
  | gaussian .. => "Gaussian"
  | marginal .. => "Marginal"

def Cont.name : Cont → String
  | exit => "exit"
  | collect (.gather .times ..) .. => "repeat"
  | collect (.gather ..) .. => "fold"
  | collect (.weigh ..) .. => "sampleWithFactor"
  | remember .. => "cache"
  | drawn .. => "sampleWithFactor"
  | scored .. => "sampleWithFactor"
  | weighted .. => "sampleWithFactor"
  | leave .. => "Enumerate"

namespace Value

def typeName : Value → String
  | undefined => "undefined"
  | null => "null"
  | bool _ => "boolean"
  | num _ => "number"
  | str _ => "string"
  | array _ => "array"
  | object _ => "object"
  | closure .. | primitive _ | builtin _ | cached .. | cont .. => "function"
  | dist .. => "distribution"

/-- Whether the value counts as true in a condition. -/
def truthy : Value → Bool
  | undefined | null => false
  | bool b => b
  | num x => x != 0 && !x.isNaN
  | str s => !s.isEmpty
  | _ => true

def isCallable : Value → Bool
  | closure .. | primitive _ | builtin _ | cached .. | cont .. => true
  | _ => false

/-- The field of an object; `undefined` for a missing one and for anything else. -/
def get (v : Value) (key : String) : Value :=
  match v with
  | object fields => ((fields.find? fun f => f.1 == key).map Prod.snd).getD undefined
  | _ => undefined

end Value

/-- Fields with one of them set, in order. -/
def setField (fields : List (String × Value)) (key : String) (v : Value) : List (String × Value) :=
  match fields with
  | [] => [(key, v)]
  | (k, w) :: rest =>
    if key = k then (key, v) :: rest
    else if key < k then (key, v) :: (k, w) :: rest
    else (k, w) :: setField rest key v

mutual

/-- Equality of values: of data by structure, of everything else by identity. -/
def Value.same : Value → Value → Bool
  | .undefined, .undefined => true
  | .null, .null => true
  | .bool a, .bool b => a == b
  | .num x, .num y => x == y
  | .str s, .str t => s == t
  | .array vs, .array ws => sameValues vs ws
  | .object fs, .object gs => sameEntries fs gs
  | .closure i .., .closure j .. => i == j
  | .primitive p, .primitive q => p = q
  | .builtin b, .builtin c => b = c
  | .cached i _, .cached j _ => i == j
  | .cont i _, .cont j _ => i == j
  | .dist i _, .dist j _ => i == j
  | _, _ => false
termination_by structural v => v

def sameValues : List Value → List Value → Bool
  | [], [] => true
  | v :: vs, w :: ws => v.same w && sameValues vs ws
  | _, _ => false
termination_by structural vs => vs

def sameEntries : List (String × Value) → List (String × Value) → Bool
  | [], [] => true
  | (k, v) :: fs, (l, w) :: gs => k == l && v.same w && sameEntries fs gs
  | _, _ => false
termination_by structural fs => fs

end

end Chance
