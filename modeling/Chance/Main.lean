import Chance.CommandLine.Response

/-!
# The command

Reads a file and runs it. The run is cut into slices even where none are asked for, so that what the
program prints appears at once.
-/

namespace Chance
namespace CommandLine

/-- Why a file cannot be read. -/
def readCause : IO.Error → String
  | .noFileOrDirectory .. => "No such file or directory (os error 2)"
  | .permissionDenied .. => "Permission denied (os error 13)"
  | .inappropriateType _ code _ =>
    if code = 21 then "Is a directory (os error 21)" else "Not a directory (os error 20)"
  | e => toString e

def readSource (file : String) : IO (Except String String) := do
  try
    match String.fromUTF8? (← IO.FS.readBinFile file) with
    | some text => return .ok text
    | none => return .error "stream did not contain valid UTF-8"
  catch e => return .error (readCause e)

def putResponse (r : Response) : IO UInt32 := do
  IO.print r.stdout
  IO.eprint r.stderr
  return r.status.toUInt32

/-- Prints what the program has printed since the last slice. -/
def flushOutput (m : Machine) : IO Machine := do
  IO.print m.output
  (← IO.getStdout).flush
  return { m with output := "" }

/-- Runs slice after slice. A time slice that was asked for is over at `due`; then the timeout is
looked at. -/
partial def runSlices (s : Settings) (began due : Nat) (t : Trampoline) (m : Machine) :
    IO UInt32 := do
  let (slice, t, m) := t.runSlice (fun _ => true) (10 ^ 18) m
  let m ← flushOutput m
  let now ← IO.monoNanosNow
  match slice with
  | .yielded =>
    match s.slice with
    | some length =>
      if due ≤ now then
        let late := s.timeout.any fun limit => limit * 1000000 ≤ now - began
        runSlices s began (now + length * 1000000) (if late then t.cancel else t) m
      else runSlices s began due t m
    | none => runSlices s began due t m
  | .finished v => putResponse ⟨0, report v ++ "\n", ""⟩
  | .failed e => putResponse (.failure "" (s.runMessage e (now - began)))
  | .cancelled | .outOfFuel => putResponse (.failure "" (s.runMessage .cancelled (now - began)))

def runFile (s : Settings) : IO UInt32 := do
  match ← readSource s.file with
  | .error cause => putResponse (.failure "" (unreadable s.file cause))
  | .ok source =>
    let seed ← match s.seed with
      | some n => pure n
      | none => IO.rand 0 0xFFFFFFFFFFFFFFFF
    match s.begin source (.ofSeed seed.toUInt64) with
    | .error r => putResponse r
    | .ok (heading, step, m) =>
      IO.print heading
      let began ← IO.monoNanosNow
      runSlices s began (began + s.slice.getD 0 * 1000000) (.ofStep step) m

end CommandLine
end Chance

def main (args : List String) : IO UInt32 := do
  match Chance.CommandLine.Request.parse args with
  | .ok (.run s) => Chance.CommandLine.runFile s
  | .ok .help => Chance.CommandLine.putResponse ⟨0, Chance.CommandLine.helpText, ""⟩
  | .error fault => Chance.CommandLine.putResponse (.failure "" fault.message)
