/-!
# Tokens

The words and marks of the language. Every word and mark has one spelling.
-/

namespace Chance

inductive Keyword where
  | varWord
  | letWord
  | constWord
  | functionWord
  | returnWord
  | ifWord
  | elseWord
  | trueWord
  | falseWord
  | nullWord
  | undefinedWord
deriving DecidableEq, Repr

inductive Mark where
  | eqEqEq
  | notEqEq
  | eqEq
  | notEq
  | leq
  | geq
  | lt
  | gt
  | andAnd
  | orOr
  | bang
  | assign
  | plus
  | minus
  | star
  | slash
  | percent
  | question
  | colon
  | dot
  | comma
  | semi
  | lparen
  | rparen
  | lbracket
  | rbracket
  | lbrace
  | rbrace
deriving DecidableEq, Repr

inductive Token where
  | word (w : Keyword)
  | mark (m : Mark)
  | ident (name : String)
  | num (x : Float)
  | str (s : String)
deriving DecidableEq, Repr

namespace Keyword

def all : List Keyword :=
  [varWord, letWord, constWord, functionWord, returnWord, ifWord, elseWord, trueWord, falseWord,
    nullWord, undefinedWord]

def spelling : Keyword → String
  | varWord => "var"
  | letWord => "let"
  | constWord => "const"
  | functionWord => "function"
  | returnWord => "return"
  | ifWord => "if"
  | elseWord => "else"
  | trueWord => "true"
  | falseWord => "false"
  | nullWord => "null"
  | undefinedWord => "undefined"

/-- The keyword with the given spelling. -/
def ofSpelling? (s : String) : Option Keyword :=
  all.find? fun w => w.spelling = s

end Keyword

namespace Mark

/-- All marks, none after a mark that its spelling begins with. -/
def all : List Mark :=
  [eqEqEq, notEqEq, eqEq, notEq, leq, geq, lt, gt, andAnd, orOr, bang, assign, plus, minus, star,
    slash, percent, question, colon, dot, comma, semi, lparen, rparen, lbracket, rbracket, lbrace,
    rbrace]

def spelling : Mark → List Char
  | eqEqEq => ['=', '=', '=']
  | notEqEq => ['!', '=', '=']
  | eqEq => ['=', '=']
  | notEq => ['!', '=']
  | leq => ['<', '=']
  | geq => ['>', '=']
  | lt => ['<']
  | gt => ['>']
  | andAnd => ['&', '&']
  | orOr => ['|', '|']
  | bang => ['!']
  | assign => ['=']
  | plus => ['+']
  | minus => ['-']
  | star => ['*']
  | slash => ['/']
  | percent => ['%']
  | question => ['?']
  | colon => [':']
  | dot => ['.']
  | comma => [',']
  | semi => [';']
  | lparen => ['(']
  | rparen => [')']
  | lbracket => ['[']
  | rbracket => [']']
  | lbrace => ['\x7b']
  | rbrace => ['\x7d']

end Mark

/-- The characters that may begin an identifier. -/
def isNameStart (c : Char) : Bool :=
  c.isAlpha || c = '_' || c = '$'

/-- The characters that may continue an identifier. -/
def isNamePart (c : Char) : Bool :=
  isNameStart c || c.isDigit

/-- The token that a run of name characters is: a keyword or an identifier. -/
def Token.ofName (s : String) : Token :=
  match Keyword.ofSpelling? s with
  | some w => .word w
  | none => .ident s

/-- Whether the text is an identifier: of the right shape and not a keyword. -/
def isName (s : String) : Bool :=
  match s.toList with
  | [] => false
  | c :: cs => isNameStart c && cs.all isNamePart && (Keyword.ofSpelling? s).isNone

end Chance
