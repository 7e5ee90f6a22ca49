/-!
# Positions in a text

Offsets count bytes of the UTF-8 encoding. A position has a line and a column, both from one; the
column counts bytes from the start of the line.
-/

namespace Chance.Text

/-- The number of bytes that the characters take. -/
def byteLength (cs : List Char) : Nat :=
  cs.foldr (fun c n => c.utf8Size + n) 0

structure Position where
  line : Nat
  column : Nat
deriving DecidableEq, Repr

/-- The position after `c`, which itself stands at `p`. -/
def Position.after (p : Position) (c : Char) : Position :=
  if c = '\n' then ⟨p.line + 1, 1⟩ else ⟨p.line, p.column + c.utf8Size⟩

/-- The position reached after walking over the given number of bytes, or over the whole text. -/
def Position.advance (p : Position) : List Char → Nat → Position
  | [], _ => p
  | c :: cs, n => if n = 0 then p else (p.after c).advance cs (n - c.utf8Size)

/-- The position of a byte offset; offsets beyond the end stand for the end. -/
def positionAt (cs : List Char) (offset : Nat) : Position :=
  Position.advance ⟨1, 1⟩ cs offset

end Chance.Text
