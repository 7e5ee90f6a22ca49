import Chance.Token.Basic

/-!
# Expectations

What the grammar could have accepted where a parse fails. Each expectation has a label; a message
lists the labels in byte order.
-/

namespace Chance

/-- What an identifier would have stood for. -/
inductive NameRole where
  | declared
  | function
  | functionLiteral
  | parameter
  | variable
  | property
  | key
deriving DecidableEq, Repr

inductive Expectation where
  | word (w : Keyword)
  | mark (m : Mark)
  /-- One of the three words that begin a declaration. -/
  | declarator
  | name (role : NameRole)
  | number
  | text
  | endOfInput
  /-- An assignment whose target is a property of the store. -/
  | storeProperty
deriving DecidableEq, Repr

namespace Expectation

def wordLabel : Keyword → String
  | .varWord => "Var"
  | .letWord => "Let"
  | .constWord => "Const"
  | .functionWord => "Function"
  | .returnWord => "Return"
  | .ifWord => "If"
  | .elseWord => "Else"
  | .trueWord => "True"
  | .falseWord => "False"
  | .nullWord => "Null"
  | .undefinedWord => "Undefined"

def markLabel : Mark → String
  | .eqEqEq => "EqEqEq"
  | .notEqEq => "NotEqEq"
  | .eqEq => "EqEq"
  | .notEq => "NotEq"
  | .leq => "Leq"
  | .geq => "Geq"
  | .lt => "Lt"
  | .gt => "Gt"
  | .andAnd => "AndAnd"
  | .orOr => "OrOr"
  | .bang => "Bang"
  | .assign => "Assign"
  | .plus => "Plus"
  | .minus => "Minus"
  | .star => "Star"
  | .slash => "Slash"
  | .percent => "Percent"
  | .question => "Question"
  | .colon => "Colon"
  | .dot => "Dot"
  | .comma => "Comma"
  | .semi => "Semi"
  | .lparen => "LParen"
  | .rparen => "RParen"
  | .lbracket => "LBracket"
  | .rbracket => "RBracket"
  | .lbrace => "LBrace"
  | .rbrace => "RBrace"

/-- The letter or word that tells the roles of a name apart in labels. -/
def roleLabel : NameRole → String
  | .declared => "x"
  | .function => "name"
  | .functionLiteral => "n"
  | .parameter => "p"
  | .variable => "x"
  | .property => "name"
  | .key => "n"

def label : Expectation → String
  | .word w => "[Token::" ++ wordLabel w ++ "]"
  | .mark m => "[Token::" ++ markLabel m ++ "]"
  | .declarator => "[Token::Var | Token::Let | Token::Const]"
  | .name role => "[Token::Ident(" ++ roleLabel role ++ ")]"
  | .number => "[Token::Num(n)]"
  | .text => "[Token::Str(s)]"
  | .endOfInput => "EOF"
  | .storeProperty => "assignment target to be a globalStore property"

/-- The distinct labels of a list of expectations, in order. -/
def labels (es : List Expectation) : List String :=
  (es.map label).eraseDups.mergeSort fun a b => a ≤ b

/-- The labels as one phrase. -/
def phrase (es : List Expectation) : String :=
  match labels es with
  | [one] => one
  | many => "one of " ++ ", ".intercalate many

end Expectation

end Chance
