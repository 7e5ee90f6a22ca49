import Chance.Token.Basic
import Chance.Text.Quoted
import Chance.Text.Position
import Chance.Decimal.Reading

/-!
# Lexing

Tokens are read off the front of the text, the longest one that matches. White space and comments
stand between them. A lexeme keeps the characters of its token and the byte offset of the first.
-/

namespace Chance

structure Lexeme where
  token : Token
  start : Nat
  text : List Char
deriving DecidableEq, Repr

namespace Lexer

/-- White space of the source text. -/
def isSpace (c : Char) : Bool :=
  c = ' ' || c = '\t' || c = '\r' || c = '\n' || c = '\x0c'

/-- What stands at the front of a text, with what follows it. -/
inductive Front where
  /-- White space or a comment. -/
  | skip (text rest : List Char)
  | token (t : Token) (text rest : List Char)
  /-- No token begins here; `text` is the offending part. -/
  | bad (text : List Char)

/-- The front part of a text that ends with the first `*/`, and what follows it. -/
def closeComment? : List Char → Option (List Char × List Char)
  | '*' :: '/' :: rest => some (['*', '/'], rest)
  | [] => none
  | c :: cs => (closeComment? cs).map fun p => (c :: p.1, p.2)

/-- The body of a string literal. -/
structure StringBody where
  /-- The characters up to the closing quote, or up to where no further one can be taken. -/
  text : List Char
  /-- What they denote. -/
  value : List Char
  /-- What follows the closing quote, if there is one. -/
  rest : Option (List Char)

/-- Reads a string body up to the quote `q`. A backslash takes the next character with it; neither
may be a line end. -/
def stringBody (q : Char) : List Char → StringBody
  | [] => ⟨[], [], none⟩
  | '\\' :: c :: cs =>
    if c = '\n' then ⟨[], [], none⟩
    else
      let b := stringBody q cs
      ⟨'\\' :: c :: b.text, Text.unescape c :: b.value, b.rest⟩
  | c :: cs =>
    if c = q then ⟨[], [], some cs⟩
    else if c = '\n' ∨ c = '\\' then ⟨[], [], none⟩
    else
      let b := stringBody q cs
      ⟨c :: b.text, c :: b.value, b.rest⟩

/-- The digits after a point, if the text goes on with a point and a digit. -/
def fractionText (cs : List Char) : List Char :=
  match cs with
  | '.' :: ds =>
    if (ds.takeWhile Char.isDigit).isEmpty then [] else '.' :: ds.takeWhile Char.isDigit
  | _ => []

/-- The power of ten that the text goes on with, if it is complete. -/
def exponentText (cs : List Char) : List Char :=
  cs.take (cs.length - (Decimal.readExponent cs).2.length)

/-- The longest numeral at the front of a text; empty if there is none. -/
def numeralText (cs : List Char) : List Char :=
  let whole := cs.takeWhile Char.isDigit
  let fraction := fractionText (cs.drop whole.length)
  let mantissa := whole ++ fraction
  if mantissa.isEmpty then [] else mantissa ++ exponentText (cs.drop mantissa.length)

/-- The mark at the front of a text. -/
def mark? (cs : List Char) : Option Mark :=
  Mark.all.find? fun m => m.spelling.isPrefixOf cs

/-- What stands at the front of the text `c :: cs`. -/
def front (c : Char) (cs : List Char) : Front :=
  if isSpace c then .skip [c] cs
  else if isNameStart c then
    let text := c :: cs.takeWhile isNamePart
    .token (.ofName (String.ofList text)) text (cs.dropWhile isNamePart)
  else if c = '"' ∨ c = '\'' then
    let b := stringBody c cs
    match b.rest with
    | some rest => .token (.str (String.ofList b.value)) (c :: b.text ++ [c]) rest
    | none => .bad (c :: b.text)
  else
    match c, cs with
    | '/', '/' :: ds =>
      .skip ('/' :: '/' :: ds.takeWhile (· ≠ '\n')) (ds.dropWhile (· ≠ '\n'))
    | '/', '*' :: ds =>
      match closeComment? ds with
      | some (text, rest) => .skip ('/' :: '*' :: text) rest
      | none => .bad (c :: cs)
    | _, _ =>
      let text := numeralText (c :: cs)
      match Decimal.numeral? text with
      | some n => .token (.num n.value) text ((c :: cs).drop text.length)
      | none =>
        match mark? (c :: cs) with
        | some m => .token (.mark m) m.spelling ((c :: cs).drop m.spelling.length)
        | none => .bad [c]

/-- Where and on which characters lexing stops. -/
structure Failure where
  offset : Nat
  text : List Char
deriving DecidableEq, Repr

/-- Lexes the text from the given offset on. Every front part has at least one character, so the
length of the text is fuel enough. -/
def lexemesFrom : Nat → Nat → List Char → Except Failure (List Lexeme)
  | _, _, [] => .ok []
  | 0, offset, cs => .error ⟨offset, cs⟩
  | fuel + 1, offset, c :: cs =>
    match front c cs with
    | .skip text rest => lexemesFrom fuel (offset + Text.byteLength text) rest
    | .token t text rest =>
      (lexemesFrom fuel (offset + Text.byteLength text) rest).map (⟨t, offset, text⟩ :: ·)
    | .bad text => .error ⟨offset, text⟩

/-- The lexemes of a whole text. -/
def lexemes (cs : List Char) : Except Failure (List Lexeme) :=
  lexemesFrom cs.length 0 cs

end Lexer

end Chance
