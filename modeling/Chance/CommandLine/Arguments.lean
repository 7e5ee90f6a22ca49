/-!
# Command-line arguments

Flags and options are taken out of the arguments one after another, wherever they stand: of each its
first occurrence, an option together with the argument that follows it. The first of the arguments
that are left is the file, and the others are ignored.
-/

namespace Chance
namespace CommandLine

/-- What is to be run, and how. -/
structure Settings where
  /-- Whether the compiled program is printed before the run. -/
  printCompiled : Bool
  withPrelude : Bool
  seed : Option Nat
  /-- The length of a time slice in milliseconds, for a run in slices. -/
  slice : Option Nat
  /-- The time in milliseconds after which a run in slices is cancelled. -/
  timeout : Option Nat
  file : String
deriving DecidableEq, Repr

inductive Request where
  | help
  | run (s : Settings)
deriving DecidableEq, Repr

/-- Why a text is not a number of 64 bits. -/
inductive NumeralFault where
  | empty
  | invalidDigit
  | tooLarge
deriving DecidableEq, Repr

inductive ArgumentFault where
  | noValue (option : String)
  | notNumber (text : String) (fault : NumeralFault)
  | noFile
deriving DecidableEq, Repr

def NumeralFault.message : NumeralFault → String
  | empty => "cannot parse integer from empty string"
  | invalidDigit => "invalid digit found in string"
  | tooLarge => "number too large to fit in target type"

def ArgumentFault.message : ArgumentFault → String
  | noValue option => "the '" ++ option ++ "' option doesn't have an associated value"
  | notNumber text fault => "failed to parse '" ++ text ++ "': " ++ fault.message
  | noFile => "free-standing argument is missing"

/-- Reads digits after the number `n`; the first fault counts. -/
def readDigits : Nat → List Char → Except NumeralFault Nat
  | n, [] => .ok n
  | n, c :: cs =>
    if c.isDigit then
      let next := n * 10 + (c.toNat - '0'.toNat)
      if next < 2 ^ 64 then readDigits next cs else .error .tooLarge
    else .error .invalidDigit

/-- Reads a number of 64 bits, which may have a plus sign. -/
def readNumber (s : String) : Except NumeralFault Nat :=
  match s.toList with
  | [] => .error .empty
  | ['+'] => .error .invalidDigit
  | '+' :: cs => readDigits 0 cs
  | cs => readDigits 0 cs

/-- Takes out a flag. -/
def takeFlag (names args : List String) : Bool × List String :=
  (args.any names.contains, args.eraseP names.contains)

/-- Takes out an option with its value. -/
def takeOption (name : String) (args : List String) :
    Except ArgumentFault (Option String × List String) :=
  match args.span (· ≠ name) with
  | (_, []) => .ok (none, args)
  | (_, [_]) => .error (.noValue name)
  | (before, _ :: value :: after) => .ok (some value, before ++ after)

/-- Takes out an option whose value is a number. -/
def takeNumber (name : String) (args : List String) :
    Except ArgumentFault (Option Nat × List String) := do
  match ← takeOption name args with
  | (none, args) => return (none, args)
  | (some value, args) =>
    match readNumber value with
    | .ok n => return (some n, args)
    | .error fault => throw (.notNumber value fault)

/-- The length of a slice, in milliseconds, for a run that has a timeout and sets no length. -/
def defaultSlice : Nat := 10

def Request.parse (args : List String) : Except ArgumentFault Request := do
  let (wantsHelp, args) := takeFlag ["-h", "--help"] args
  if wantsHelp then return .help
  let (printCompiled, args) := takeFlag ["--print-cps"] args
  let (noPrelude, args) := takeFlag ["--no-prelude"] args
  let (seed, args) ← takeNumber "--seed" args
  let (slice, args) ← takeNumber "--slice-ms" args
  let (timeout, args) ← takeNumber "--timeout-ms" args
  match args with
  | [] => throw .noFile
  | file :: _ =>
    return .run
      { printCompiled := printCompiled
        withPrelude := !noPrelude
        seed := seed
        slice := slice <|> timeout.map fun _ => defaultSlice
        timeout := timeout
        file := file }

end CommandLine
end Chance
