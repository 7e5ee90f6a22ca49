import Chance.Value.Basic
import Chance.Text.Quoted
import Chance.Decimal.Style

/-!
# Texts of values

Every value has a text. Values with the same text are the same result to an enumeration and the
same argument to a cached function. Distributions also have an outline with their parameters.
-/

namespace Chance

mutual

def Value.text : Value → String
  | .undefined => "undefined"
  | .null => "null"
  | .bool b => if b then "true" else "false"
  | .num x => Decimal.Style.value.write x
  | .str s => Text.quoted s
  | .array vs => "[" ++ ",".intercalate (valueTexts vs) ++ "]"
  | .object fs => "\x7b" ++ ",".intercalate (entryTexts fs) ++ "\x7d"
  | .closure _ (some f) .. => "[function " ++ f ++ "]"
  | .closure _ none .. => "[function]"
  | .primitive p => "[native " ++ p.name ++ "]"
  | .builtin b => "[native " ++ b.name ++ "]"
  | .cached .. => "[native cached]"
  | .cont _ c => "[native " ++ c.name ++ "]"
  | .dist _ d => "[distribution " ++ d.name ++ "]"
termination_by structural v => v

def valueTexts : List Value → List String
  | [] => []
  | v :: vs => v.text :: valueTexts vs
termination_by structural vs => vs

def entryTexts : List (String × Value) → List String
  | [] => []
  | (k, v) :: fs => (Text.quoted k ++ ":" ++ v.text) :: entryTexts fs
termination_by structural fs => fs

end

/-- The text that a value stands for as a property name: a string for itself. -/
def Value.key : Value → String
  | .str s => s
  | v => v.text

/-- Numbers in brackets, as outlines show them. -/
def outlineNumbers (xs : List Float) : String :=
  "[" ++ ", ".intercalate (xs.map Decimal.Style.outline.write) ++ "]"

/-- A name with labelled parts. -/
def outlineParts (name : String) (parts : List (String × String)) : String :=
  name ++ " \x7b " ++ ", ".intercalate (parts.map fun p => p.1 ++ ": " ++ p.2) ++ " \x7d"

mutual

/-- The text of a value, with distributions outlined. -/
def Value.outline : Value → String
  | .dist _ d => d.outline
  | v => v.text
termination_by structural v => v

def Dist.outline : Dist → String
  | .bernoulli p => outlineParts "Bernoulli" [("p", Decimal.Style.outline.write p)]
  | .randomInteger n => outlineParts "RandomInteger" [("n", toString n)]
  | .categorical ps vs =>
    outlineParts "Categorical"
      [("ps", outlineNumbers ps), ("vs", "[" ++ ", ".intercalate (valueOutlines vs) ++ "]")]
  | .discrete ps => outlineParts "Discrete" [("ps", outlineNumbers ps)]
  | .binomial p n =>
    outlineParts "Binomial" [("p", Decimal.Style.outline.write p), ("n", toString n)]
  | .delta v => outlineParts "Delta" [("v", v.outline)]
  | .uniform a b =>
    outlineParts "Uniform"
      [("a", Decimal.Style.outline.write a), ("b", Decimal.Style.outline.write b)]
  | .gaussian mu sigma =>
    outlineParts "Gaussian"
      [("mu", Decimal.Style.outline.write mu), ("sigma", Decimal.Style.outline.write sigma)]
  | .marginal entries =>
    outlineParts "Marginal"
      [("entries", "\x7b" ++ ", ".intercalate (marginalOutlines entries) ++ "\x7d")]
termination_by structural d => d

def valueOutlines : List Value → List String
  | [] => []
  | v :: vs => v.outline :: valueOutlines vs
termination_by structural vs => vs

def marginalOutlines : List (String × Value × Float) → List String
  | [] => []
  | (k, v, p) :: es =>
    (Text.quoted k ++ ": (" ++ v.outline ++ ", " ++ Decimal.Style.outline.write p ++ ")")
      :: marginalOutlines es
termination_by structural es => es

end

end Chance
