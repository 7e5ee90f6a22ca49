import Chance.Error
import Chance.Token.Lexer
import Chance.Grammar.Rules

/-!
# From texts to programs

Lexing and parsing together, with the positions of failures in the text.
-/

namespace Chance

/-- The byte offset of a token, or of the end of the text beyond the last one. -/
def offsetOf (source : List Char) (lexemes : List Lexeme) (index : Nat) : Nat :=
  match lexemes[index]? with
  | some l => l.start
  | none => Text.byteLength source

/-- Lexes a text and reads all its tokens by `rule`. -/
def readWith {α : Type} (rule : List Token → Except Trouble α) (source : String) :
    Except Error α :=
  let cs := source.toList
  match Lexer.lexemes cs with
  | .error f => .error (.lex (Text.positionAt cs f.offset) (String.ofList f.text))
  | .ok ls =>
    match rule (ls.map Lexeme.token) with
    | .ok a => .ok a
    | .error t => .error (.parse (Text.positionAt cs (offsetOf cs ls t.index)) t.expected)

def Program.parse (source : String) : Except Error Program :=
  (readWith Grammar.program source).map Program.mk

def Expr.parse (source : String) : Except Error Expr :=
  readWith Grammar.expression source

end Chance
