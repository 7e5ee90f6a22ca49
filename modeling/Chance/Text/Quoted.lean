import Chance.Text.Visible

/-!
# Quoted texts

Two ways of writing a text between double quotes. `quoted` is for reading by people: whatever is
not visible is shown as an escape. `literal` is for reading by the lexer: only the characters that
could not stand in a string literal are escaped.
-/

namespace Chance.Text

/-- The letter that stands for a character after a backslash, for the characters that have one. -/
def escapeLetter (c : Char) : Option Char :=
  if c = '\x00' then some '0'
  else if c = '\t' then some 't'
  else if c = '\r' then some 'r'
  else if c = '\n' then some 'n'
  else if c = '"' then some '"'
  else if c = '\\' then some '\\'
  else none

/-- A character of a `quoted` text: its letter escape, itself, or its code point in hexadecimal. -/
def showChar (c : Char) : List Char :=
  match escapeLetter c with
  | some l => ['\\', l]
  | none =>
    if isVisible c then [c]
    else ['\\', 'u', '\x7b'] ++ Nat.toDigits 16 c.toNat ++ ['\x7d']

/-- The text between double quotes, with everything invisible spelled out. -/
def quoted (s : String) : String :=
  String.ofList ('"' :: s.toList.flatMap showChar ++ ['"'])

/-- A character of a string literal. -/
def literalChar (c : Char) : List Char :=
  match escapeLetter c with
  | some l => ['\\', l]
  | none => [c]

/-- The text as a string literal of the language. -/
def literal (s : String) : String :=
  String.ofList ('"' :: s.toList.flatMap literalChar ++ ['"'])

/-- The character that a backslash followed by `c` stands for. -/
def unescape (c : Char) : Char :=
  if c = 'n' then '\n'
  else if c = 't' then '\t'
  else if c = 'r' then '\r'
  else if c = '0' then '\x00'
  else c

/-- Reading an escape gives back the character that was escaped. -/
theorem unescape_escapeLetter {c l : Char} (h : escapeLetter c = some l) : unescape l = c := by
  unfold escapeLetter at h
  repeat' split at h
  all_goals first | (cases h; simp_all [unescape]) | cases h

end Chance.Text
