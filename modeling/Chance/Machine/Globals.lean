import Chance.Value.Basic
import Chance.Number.Basic

/-!
# The global scope

The names that every program finds bound.
-/

namespace Chance

/-- The mathematical functions and constants. -/
def mathObject : Value :=
  .object
    [ ("E", .num 2.718281828459045),
      ("PI", .num 3.141592653589793),
      ("abs", .primitive .abs),
      ("ceil", .primitive .ceil),
      ("exp", .primitive .exp),
      ("floor", .primitive .floor),
      ("log", .primitive .log),
      ("max", .primitive .max),
      ("min", .primitive .min),
      ("pow", .primitive .pow),
      ("round", .primitive .round),
      ("sqrt", .primitive .sqrt) ]

/-- The names and their values, in the order of their introduction. -/
def globalFrame : Frame :=
  [("Math", mathObject), ("Infinity", .num Number.infinity), ("NaN", .num Number.nan)]
    ++ ([.display, .expectation, .bernoulli, .randomInteger, .categorical, .discrete, .binomial,
        .delta, .uniform, .gaussian] : List Primitive).map (fun p => (p.name, .primitive p))
    ++ ([.map, .filter, .forEach, .times, .cache, .sample, .factor, .sampleWithFactor,
        .incrementalize, .enumerate, .infer] : List Builtin).map fun b => (b.name, .builtin b)

/-- The scope that programs start in. -/
def globalEnv : Env :=
  [globalFrame]

end Chance
