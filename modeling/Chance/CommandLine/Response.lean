import Chance.CommandLine.Arguments
import Chance.Machine.Slice
import Chance.Program.Printer

/-!
# What a command prints

A command ends with a status and what it has written. What the program printed stays when an error
ends the run.
-/

namespace Chance
namespace CommandLine

structure Response where
  status : Nat
  stdout : String
  stderr : String
deriving DecidableEq, Repr

def helpText : String :=
  String.intercalate "\n"
    [ "Usage: cpsppl [options] <input file>",
      "Options:",
      "  -h, --help: Print this help message",
      "  --print-cps: Print the compiled program before running it",
      "  --no-prelude: Do not compile the standard library in front of the program",
      "  --seed <n>: Seed the random number generator",
      "  --slice-ms <n>: Run in time slices of n milliseconds",
      "  --timeout-ms <n>: Cancel a sliced run after n milliseconds",
      "" ]

/-- The result of a run as it is printed: a distribution by its values and their probabilities. -/
def report (v : Value) : String :=
  match v with
  | .dist _ d =>
    match d.support with
    | some vs =>
      String.intercalate "\n"
        (vs.map fun w => w.text ++ ": " ++ Decimal.Style.plain.write (d.score w).exp)
    | none => d.outline
  | v => v.text

def errorText (message : String) : String :=
  "Error: " ++ message ++ "\n"

/-- The message for a file that cannot be read. -/
def unreadable (file cause : String) : String :=
  "cannot read " ++ file ++ "\n\nCaused by:\n    " ++ cause

def Response.failure (stdout message : String) : Response :=
  ⟨1, stdout, errorText message⟩

/-- A span of time in the largest unit of which it holds one, without trailing zeros. -/
def spanText (nanoseconds : Nat) : String :=
  let decimal (unit places : Nat) (name : String) : String :=
    let digits := (toString (Nat.pow 10 places + nanoseconds % unit)).toList.tail
    let fraction := (digits.reverse.dropWhile (· = '0')).reverse
    let point := if fraction.isEmpty then "" else "."
    toString (nanoseconds / unit) ++ point ++ String.ofList fraction ++ name
  if 1000000000 ≤ nanoseconds then decimal 1000000000 9 "s"
  else if 1000000 ≤ nanoseconds then decimal 1000000 6 "ms"
  else if 1000 ≤ nanoseconds then decimal 1000 3 "µs"
  else toString nanoseconds ++ "ns"

namespace Settings

/-- The message for an error of the run; in slices it tells the time that has passed. -/
def runMessage (s : Settings) (e : Error) (nanoseconds : Nat) : String :=
  match s.slice with
  | none => e.message
  | some _ => e.message ++ " after " ++ spanText nanoseconds

/-- The printed form of the compiled program, where it is wanted. -/
def heading (s : Settings) (p : Program) : String :=
  if s.printCompiled then p.pretty 100 ++ "\n" else ""

/-- Compiles a text and makes the first step; the heading is what is printed before all else. -/
def begin (s : Settings) (source : String) (supply : Supply) :
    Except Response (String × Step × Machine) :=
  match compileSource source s.withPrelude with
  | .error e => .error (.failure "" e.message)
  | .ok p =>
    let first : Exec Step := do p.start (← Exec.newCont .exit)
    match first (.initial supply) with
    | .ok step m => .ok (s.heading p, step, m)
    | .error e m => .error (.failure (s.heading p ++ m.output) e.message)

/-- Runs a text from beginning to end within the given fuel, which takes so many nanoseconds. -/
def respond (s : Settings) (source : String) (supply : Supply) (fuel nanoseconds : Nat) :
    Response :=
  match s.begin source supply with
  | .error r => r
  | .ok (heading, step, m) =>
    match step.run fuel m with
    | .ok v m => ⟨0, heading ++ m.output ++ report (v.getD .undefined) ++ "\n", ""⟩
    | .error e m => .failure (heading ++ m.output) (s.runMessage e nanoseconds)

end Settings

/-- The whole command. `read` gives the text of a file, or why there is none. -/
def respond (args : List String) (read : String → Except String String) (supply : Supply)
    (fuel nanoseconds : Nat) : Response :=
  match Request.parse args with
  | .error fault => .failure "" fault.message
  | .ok .help => ⟨0, helpText, ""⟩
  | .ok (.run s) =>
    match read s.file with
    | .error cause => .failure "" (unreadable s.file cause)
    | .ok source => s.respond source supply fuel nanoseconds

end CommandLine
end Chance
