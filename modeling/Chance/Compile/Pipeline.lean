import Chance.Compile.Address
import Chance.Compile.Continuation
import Chance.Compile.Form
import Chance.Compile.Prelude

/-!
# Compilation

A compiled program is one function of a continuation and an address, in continuation-passing form.
-/

namespace Chance

/-- All passes over a parsed program. -/
def Program.compile (p : Program) : Except Error Program := do
  let addressed ← p.thunk.addressed
  let converted ← addressed.converted
  converted.checked

/-- Parses and compiles a text, with the prelude in front if wanted. Errors of the text come before
anything about the prelude. -/
def compileSource (source : String) (withPrelude : Bool) : Except Error Program := do
  let user ← Program.parse source
  let before ← if withPrelude then Compile.preludeBody else pure []
  Program.compile ⟨before ++ user.body⟩

end Chance
