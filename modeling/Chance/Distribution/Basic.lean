import Chance.Value.Coerce
import Chance.Distribution.Source

/-!
# Distributions

How distributions are made from their parameters, which values they can take, the logarithm of the
probability (or of the density) of a value, and drawing.
-/

namespace Chance.Dist

/-! ## Parameters -/

/-- A number among the parameters. -/
def parameter (params : Value) (who key : String) : Except Error Float :=
  match params.get key with
  | .num x => .ok x
  | v => .error (.type (.parameterType who key v.text))

/-- A number between zero and one among the parameters. -/
def probability (params : Value) (who key : String) : Except Error Float := do
  let p ← parameter params who key
  if 0 ≤ p ∧ p ≤ 1 then return p
  else throw (.type (.parameterProbability who key (Decimal.Style.plain.write p)))

/-- A count among the parameters. -/
def count (params : Value) (who key : String) : Except Error Nat := do
  let n ← parameter params who key
  if n ≥ 0 ∧ Number.isIntegral n then return Number.toCount n
  else throw (.type (.parameterCount who key (Decimal.Style.plain.write n)))

/-- The weights among the parameters, divided by their sum. -/
def weights (params : Value) (who : String) : Except Error (List Float) := do
  let ps ← (← (params.get "ps").toItems).mapM Value.toNumber
  let total := Number.sum ps
  if (ps.any fun p => p < 0 || !p.isFinite) || total ≤ 0 then throw (.type (.weights who))
  else return ps.map (· / total)

/-- The kinds of distribution that programs can make. -/
inductive Kind where
  | bernoulli
  | randomInteger
  | categorical
  | discrete
  | binomial
  | delta
  | uniform
  | gaussian
deriving DecidableEq, Repr

/-- The distribution of the given kind with the given parameters. -/
def make (kind : Kind) (params : Value) : Except Error Dist :=
  match kind with
  | .bernoulli => return .bernoulli (← probability params "Bernoulli" "p")
  | .randomInteger => return .randomInteger (← count params "RandomInteger" "n")
  | .categorical => do
    let ps ← weights params "Categorical"
    let vs ← (params.get "vs").toItems
    if ps.length = vs.length then return .categorical ps vs else throw (.type .lengths)
  | .discrete => return .discrete (← weights params "Discrete")
  | .binomial => do
    let p ← probability params "Binomial" "p"
    let n ← count params "Binomial" "n"
    return .binomial p n
  | .delta => .ok (.delta (params.get "v"))
  | .uniform => do
    let a ← parameter params "Uniform" "a"
    let b ← parameter params "Uniform" "b"
    if a < b then return .uniform a b
    else throw (.type (.emptyInterval (Decimal.Style.plain.write a) (Decimal.Style.plain.write b)))
  | .gaussian => do
    let mu ← parameter params "Gaussian" "mu"
    let sigma ← parameter params "Gaussian" "sigma"
    if sigma > 0 then return .gaussian mu sigma
    else throw (.type (.spread (Decimal.Style.plain.write sigma)))

/-! ## Support -/

/-- The numbers below `n` as values. -/
def indices (n : Nat) : List Value :=
  (List.range n).map fun i => .num (Float.ofNat i)

/-- The values with positive weight, each once, in the order of their first appearance. -/
def pooled : List (Float × Value) → List Value → List Value
  | [], seen => seen
  | (p, v) :: rest, seen =>
    if p > 0 && !(seen.any fun w => w.same v) then pooled rest (seen ++ [v]) else pooled rest seen

/-- The values that the distribution can take, if these can be listed. -/
def support : Dist → Option (List Value)
  | bernoulli _ => some [.bool true, .bool false]
  | randomInteger n => some (indices n)
  | categorical ps vs => some (pooled (ps.zip vs) [])
  | discrete ps =>
    some (((ps.zip (indices ps.length)).filter fun q => q.1 > 0).map Prod.snd)
  | binomial _ n => some (indices (n + 1))
  | delta v => some [v]
  | uniform .. => none
  | gaussian .. => none
  | marginal entries => some (entries.map fun e => e.2.1)

def isContinuous : Dist → Bool
  | uniform .. | gaussian .. => true
  | _ => false

/-! ## Scores -/

/-- The value as an index below `n`. -/
def index? (v : Value) (n : Nat) : Option Nat :=
  match v with
  | .num x =>
    if x ≥ 0 ∧ Number.isIntegral x ∧ Number.toCount x < n then some (Number.toCount x) else none
  | _ => none

/-- The logarithm of a factorial. -/
def logFactorial (n : Nat) : Float :=
  Number.sum ((List.range (n - 1)).map fun i => (Float.ofNat (i + 2)).log)

/-- `n * log p`, where nothing times anything is nothing. -/
def logPower (n : Nat) (p : Float) : Float :=
  if n = 0 then 0 else Float.ofNat n * p.log

def pi : Float := 3.141592653589793

/-- The logarithm of a normal density at `z` standard deviations from the mean. -/
def logDensity (z sigma : Float) : Float :=
  -0.5 * z * z - sigma.log - 0.5 * (2 * pi).log

/-- The probability that a marginal gives to a value, found by the text of the value. -/
def marginalProb (entries : List (String × Value × Float)) (v : Value) : Float :=
  let key := v.text
  match entries.find? fun e => e.1 == key with
  | some e => e.2.2
  | none => 0

/-- The logarithm of the probability or density of a value; negative infinity outside the
support. -/
def score (d : Dist) (v : Value) : Float :=
  match d with
  | bernoulli p =>
    match v with
    | .bool true => p.log
    | .bool false => (1 - p).log
    | _ => Number.negInfinity
  | randomInteger n =>
    match index? v n with
    | some _ => -(Float.ofNat n).log
    | none => Number.negInfinity
  | categorical ps vs =>
    (Number.sum (((vs.zip ps).filter fun q => q.1.same v).map Prod.snd)).log
  | discrete ps =>
    match (index? v ps.length).bind fun i => ps[i]? with
    | some p => p.log
    | none => Number.negInfinity
  | binomial p n =>
    match index? v (n + 1) with
    | some k =>
      let choose := logFactorial n - logFactorial k - logFactorial (n - k)
      choose + logPower k p + logPower (n - k) (1 - p)
    | none => Number.negInfinity
  | delta w => if v.same w then 0 else Number.negInfinity
  | uniform a b =>
    match v with
    | .num x => if x ≥ a ∧ x ≤ b then -(b - a).log else Number.negInfinity
    | _ => Number.negInfinity
  | gaussian mu sigma =>
    match v with
    | .num x => logDensity ((x - mu) / sigma) sigma
    | _ => Number.negInfinity
  | marginal entries => (marginalProb entries v).log

/-! ## Drawing -/

/-- The first item whose share, added to those before it, exceeds `u`; else the last. -/
def pick {α : Type} (u : Float) : List (Float × α) → Float → Option α → Option α
  | [], _, last => last
  | (p, a) :: rest, acc, _ =>
    let acc := acc + p
    if u < acc then some a else pick u rest acc (some a)

/-- A draw from weighted items. -/
def draw (items : List (Float × Value)) (s : Supply) : Value × Supply :=
  let (u, s) := s.unit
  ((pick u items 0 none).getD .undefined, s)

/-- The number of successes among `n` trials. -/
def successes (p : Float) : Nat → Supply → Nat × Supply
  | 0, s => (0, s)
  | n + 1, s =>
    let (u, s) := s.unit
    let (k, s) := successes p n s
    (if u < p then k + 1 else k, s)

/-- A draw from the standard normal distribution, from two uniform ones. -/
def standardNormal (s : Supply) : Float × Supply :=
  let (u, s) := s.unit
  let (v, s) := s.unit
  ((-2 * (1 - u).log).sqrt * (2 * pi * v).cos, s)

/-- A draw. -/
def sample (d : Dist) (s : Supply) : Value × Supply :=
  match d with
  | bernoulli p =>
    let (u, s) := s.unit
    (.bool (u < p), s)
  | randomInteger n =>
    let (k, s) := s.below (max n 1)
    (.num (Float.ofNat k), s)
  | categorical ps vs => draw (ps.zip vs) s
  | discrete ps => draw (ps.zip (indices ps.length)) s
  | binomial p n =>
    let (k, s) := successes p n s
    (.num (Float.ofNat k), s)
  | delta v => (v, s)
  | uniform a b =>
    let (u, s) := s.unit
    (.num (a + (b - a) * u), s)
  | gaussian mu sigma =>
    if sigma.isFinite then
      let (z, s) := standardNormal s
      (.num (mu + sigma * z), s)
    else (.num Number.nan, s)
  | marginal entries => draw (entries.map fun e => (e.2.2, e.2.1)) s

end Chance.Dist
