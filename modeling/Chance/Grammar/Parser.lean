import Chance.Grammar.Expectation

/-!
# Parsers

A parser reads tokens from a cursor. Besides its result it reports its trouble: the furthest place
where a token, or a condition on what was read, was not as expected, and everything expected there.
Choice is ordered and repetition greedy, so a parser has one result; trouble is reported by
successful parsers too, for the sake of what may fail after them.
-/

namespace Chance

/-- A place among the tokens of a text. -/
structure Cursor where
  index : Nat
  rest : List Token

/-- The furthest failure, and what was expected there. -/
structure Trouble where
  index : Nat
  expected : List Expectation
deriving DecidableEq, Repr

namespace Trouble

def none : Trouble := ⟨0, []⟩

/-- The further one of two; at the same place, both. -/
def join (a b : Trouble) : Trouble :=
  if a.index < b.index then b
  else if b.index < a.index then a
  else ⟨a.index, a.expected ++ b.expected⟩

end Trouble

structure Reply (α : Type) where
  result : Option (α × Cursor)
  trouble : Trouble

def Parser (α : Type) : Type :=
  Cursor → Reply α

namespace Parser

variable {α β : Type}

def succeed (a : α) : Parser α :=
  fun c => ⟨some (a, c), .none⟩

def bind (p : Parser α) (f : α → Parser β) : Parser β :=
  fun c =>
    let first := p c
    match first.result with
    | none => ⟨none, first.trouble⟩
    | some (a, c') =>
      let second := f a c'
      ⟨second.result, first.trouble.join second.trouble⟩

instance : Monad Parser where
  pure := succeed
  bind := bind

/-- Fails where it stands. -/
def reject (e : Expectation) : Parser α :=
  fun c => ⟨none, ⟨c.index, [e]⟩⟩

/-- Takes one token that `accept` has a meaning for. -/
def token (e : Expectation) (accept : Token → Option α) : Parser α :=
  fun c =>
    match c.rest with
    | [] => ⟨none, ⟨c.index, [e]⟩⟩
    | t :: rest =>
      match accept t with
      | some a => ⟨some (a, ⟨c.index + 1, rest⟩), .none⟩
      | none => ⟨none, ⟨c.index, [e]⟩⟩

/-- The first of two that succeeds, from the same place. -/
def orElse (p q : Parser α) : Parser α :=
  fun c =>
    let first := p c
    match first.result with
    | some r => ⟨some r, first.trouble⟩
    | none =>
      let second := q c
      ⟨second.result, first.trouble.join second.trouble⟩

/-- The first of a list of parsers that succeeds. -/
def choice : List (Parser α) → Parser α
  | [] => fun _ => ⟨none, .none⟩
  | [p] => p
  | p :: ps => p.orElse (choice ps)

def optional (p : Parser α) : Parser (Option α) :=
  orElse (bind p fun a => succeed (some a)) (succeed none)

/-- As many times as it succeeds, at most `fuel` times. -/
def many (p : Parser α) : Nat → Parser (List α)
  | 0 => succeed []
  | fuel + 1 => orElse (bind p fun a => bind (many p fuel) fun as => succeed (a :: as)) (succeed [])

/-- One or more, with separators between them. A separator with nothing after it is given back. -/
def sepBy1 (p : Parser α) (sep : Parser Unit) (fuel : Nat) : Parser (List α) :=
  bind p fun a => bind (many (bind sep fun _ => p) fuel) fun as => succeed (a :: as)

/-- None or more, with separators between them. -/
def sepBy (p : Parser α) (sep : Parser Unit) (fuel : Nat) : Parser (List α) :=
  orElse (sepBy1 p sep fuel) (succeed [])

def word (w : Keyword) : Parser Unit :=
  token (.word w) fun t => if t = .word w then some () else none

def mark (m : Mark) : Parser Unit :=
  token (.mark m) fun t => if t = .mark m then some () else none

def name (role : NameRole) : Parser String :=
  token (.name role) fun
    | .ident x => some x
    | _ => none

def number : Parser Float :=
  token .number fun
    | .num x => some x
    | _ => none

def text : Parser String :=
  token .text fun
    | .str s => some s
    | _ => none

/-- Reads all tokens: what `p` leaves over is unexpected. -/
def whole (p : Parser α) (tokens : List Token) : Except Trouble α :=
  let reply := p ⟨0, tokens⟩
  match reply.result with
  | some (a, ⟨_, []⟩) => .ok a
  | some (_, c) => .error (reply.trouble.join ⟨c.index, [.endOfInput]⟩)
  | none => .error reply.trouble

end Parser

end Chance
