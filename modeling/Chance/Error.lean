import Chance.Grammar.Expectation
import Chance.Text.Quoted
import Chance.Text.Position

/-!
# Errors

Everything that can go wrong, by cause. Values appear in causes by their text. The wording is in
the `message` functions alone.
-/

namespace Chance

/-- Where a program was found not to have the form it should have. -/
inductive Stage where
  | naming
  | cps
  | check
  | start
  | apply
  | eval
deriving DecidableEq, Repr

/-- How the form of a program was wrong. -/
inductive FormFault where
  | notOneFunction
  | notCompiled
  | bodyNotCps
  | bodyNotSingle
  | noTailCall
  | callOutsideTail
deriving DecidableEq, Repr

/-- What a value was expected to be. -/
inductive Wanted where
  | number
  | string
  | array
  | distribution
deriving DecidableEq, Repr

/-- An operation was given a value it cannot work on. -/
inductive TypeFault where
  | unexpected (wanted : Wanted) (type text : String)
  | notAddress (text : String)
  | notFunction (text : String)
  | functionExpected (who text : String)
  | noContinuation (name : String)
  | notAssignable
  | noProperty (property object : String)
  | noMethod (object name : String)
  | noMethodOf (type text name : String)
  | notPrimitiveMethod (name : String)
  | notRepeatable (count : String)
  | infiniteSupport (dist : String)
  | parameterType (who key text : String)
  | parameterProbability (who key number : String)
  | parameterCount (who key number : String)
  | weights (who : String)
  | lengths
  | emptyInterval (a b : String)
  | spread (sigma : String)
deriving DecidableEq, Repr

/-- How the options of an inference call were wrong. -/
inductive OptionFault where
  | notObject (text : String)
  | unknown (key : String)
  | maxExecutions (text : String)
  | unknownStrategy (name : String)
  | strategyType (text : String)
  | noMethod
  | unavailableMethod (text : String)
deriving DecidableEq, Repr

inductive Error where
  | lex (place : Text.Position) (text : String)
  | parse (place : Text.Position) (expected : List Expectation)
  | compile (stage : Stage) (fault : FormFault) (node : String)
  | noSupport (dist : String)
  | emptySupport (dist : String)
  | zeroProbability
  | factorOutsideInference
  | options (who : String) (fault : OptionFault)
  | type (fault : TypeFault)
  | unbound (name : String)
  | stale (who : String)
  | cancelled
deriving DecidableEq, Repr

def Stage.label : Stage → String
  | naming => "naming"
  | cps => "cps"
  | check => "cps-check"
  | start => "start"
  | apply => "apply"
  | eval => "eval"

def FormFault.message : FormFault → String
  | notOneFunction => "expected a program holding one function expression"
  | notCompiled => "not a compiled program"
  | bodyNotCps => "function body is not in CPS form"
  | bodyNotSingle => "function body is not a single tail expression"
  | noTailCall => "expected a call in tail position"
  | callOutsideTail => "non-primitive call outside tail position"

def Wanted.phrase : Wanted → String
  | number => "a number"
  | string => "a string"
  | array => "an array"
  | distribution => "a distribution"

def TypeFault.message : TypeFault → String
  | unexpected wanted type text => "expected " ++ wanted.phrase ++ ", got " ++ type ++ " " ++ text
  | notAddress text => "expected an address, got " ++ text
  | notFunction text => text ++ " is not a function"
  | functionExpected who text => who ++ " expects a function, got " ++ text
  | noContinuation name => name ++ " called without a continuation"
  | notAssignable => "only globalStore properties can be assigned"
  | noProperty property object => "cannot read property " ++ property ++ " of " ++ object
  | noMethod object name => object ++ " has no method " ++ name
  | noMethodOf type text name => type ++ " " ++ text ++ " has no method " ++ name
  | notPrimitiveMethod name =>
    name ++ " is not a primitive function and cannot be called as a method"
  | notRepeatable count => "repeat expects a non-negative integer, got " ++ count
  | infiniteSupport dist => "expectation needs a finite support, got " ++ dist
  | parameterType who key text =>
    who ++ ": parameter " ++ key ++ " must be a number, got " ++ text
  | parameterProbability who key number =>
    who ++ ": " ++ key ++ " must lie in [0, 1], got " ++ number
  | parameterCount who key number =>
    who ++ ": " ++ key ++ " must be a non-negative integer, got " ++ number
  | weights who => who ++ ": ps must be non-negative with a positive sum"
  | lengths => "Categorical: ps and vs must have the same length"
  | emptyInterval a b => "Uniform: expected a < b, got a = " ++ a ++ ", b = " ++ b
  | spread sigma => "Gaussian: sigma must be positive, got " ++ sigma

def OptionFault.message : OptionFault → String
  | notObject text => "expected an options object, got " ++ text
  | unknown key => "unknown option " ++ key
  | maxExecutions text => "maxExecutions must be a positive integer, got " ++ text
  | unknownStrategy name => "unknown strategy " ++ name
  | strategyType text => "strategy must be a string, got " ++ text
  | noMethod => "no method given"
  | unavailableMethod text => "inference method " ++ text ++ " is not available"

/-- A line and a column, as messages give them. -/
def Text.Position.label (p : Text.Position) : String :=
  toString p.line ++ ":" ++ toString p.column

def Error.message : Error → String
  | lex p text => "lex error at " ++ p.label ++ ": unexpected input " ++ Text.quoted text
  | parse p expected =>
    "parse error at " ++ p.label ++ ": expected " ++ Expectation.phrase expected
  | compile stage fault node => stage.label ++ ": " ++ fault.message ++ ": " ++ node
  | noSupport dist =>
    "Enumerate can only be used with distributions that have finite support, got " ++ dist
  | emptySupport dist => "Enumerate encountered a distribution with empty support: " ++ dist
  | zeroProbability => "all paths explored by Enumerate have probability zero"
  | factorOutsideInference => "factor allowed only inside inference"
  | options who fault => "invalid options for " ++ who ++ ": " ++ fault.message
  | type fault => "type error: " ++ fault.message
  | unbound name => name ++ " is not defined"
  | stale who => "continuation of a finished " ++ who ++ " was invoked"
  | cancelled => "execution cancelled"

end Chance
