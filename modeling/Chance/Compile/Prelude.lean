import Chance.Grammar.Parse

/-!
# The prelude

Functions written in the language itself that are compiled in front of a program.
-/

namespace Chance.Compile

/-- The functions of the prelude: draws from the common distributions, the number of failures
before a first success, and the two ways of conditioning. -/
def preludeFunctions : List String :=
  [ "var flip = function(p) \x7b return sample(Bernoulli(\x7bp: p === undefined ? 0.5 : " ++
      "p\x7d)); \x7d;",
    "var randomInteger = function(n) \x7b return sample(RandomInteger(\x7bn: n\x7d)); " ++
      "\x7d;",
    "var uniformDraw = function(vs) \x7b return vs[sample(RandomInteger(\x7bn: " ++
      "vs.length\x7d))]; \x7d;",
    "var categorical = function(ps, vs) \x7b return sample(Categorical(\x7bps: ps, vs: " ++
      "vs\x7d)); \x7d;",
    "var discrete = function(ps) \x7b return sample(Discrete(\x7bps: ps\x7d)); \x7d;",
    "var binomial = function(p, n) \x7b return sample(Binomial(\x7bp: p, n: n\x7d)); " ++
      "\x7d;",
    "var gaussian = function(mu, sigma) \x7b return sample(Gaussian(\x7bmu: mu, sigma: " ++
      "sigma\x7d)); \x7d;",
    "var uniform = function(a, b) \x7b return sample(Uniform(\x7ba: a, b: b\x7d)); \x7d;",
    "var geometric = function(p) \x7b var q = p === undefined ? 0.5 : p; return flip(q) ? " ++
      "0 : 1 + geometric(q); \x7d;",
    "var condition = function(b) \x7b factor(b ? 0 : -Infinity); \x7d;",
    "var observe = function(dist, value) \x7b factor(dist.score(value)); \x7d;" ]

/-- The statements of the prelude. -/
def preludeBody : Except Error (List Stmt) :=
  (Program.parse ("\n".intercalate preludeFunctions)).map Program.body

end Chance.Compile
