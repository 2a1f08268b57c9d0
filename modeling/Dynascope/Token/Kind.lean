import Dynascope.Text.Basic

/-!
# Kinds of tokens

* `Kind`: the end of the input, delimiters and operators, identifiers and literals, keywords, and
  kinds that the language does not use, given by a number.
* `Kind.code`, `Kind.ofCode`: the number of a kind and the kind of a number.
* `Kind.name`: the printable name; for delimiters, operators and keywords it is the lexeme.
-/

namespace Dynascope

/-- The kind of a token. -/
inductive Kind where
  | endOfInput
  | leftParen
  | rightParen
  | leftBrace
  | rightBrace
  | comma
  | dot
  | minus
  | plus
  | semicolon
  | slash
  | star
  | bang
  | bangEqual
  | equal
  | equalEqual
  | greater
  | greaterEqual
  | less
  | lessEqual
  | identifier
  | string
  | number
  | kwAnd
  | kwClass
  | kwElse
  | kwFalse
  | kwFun
  | kwFor
  | kwIf
  | kwNil
  | kwOr
  | kwReturn
  | kwSuper
  | kwThis
  | kwTrue
  | kwVar
  | kwWhile
  /-- A kind outside the language. -/
  | other (code : Int)
  deriving Repr, DecidableEq

namespace Kind

/-- The kinds of delimiters and operators. -/
def operators : List Kind :=
  [leftParen, rightParen, leftBrace, rightBrace, comma, dot, minus, plus, semicolon, slash, star,
   bang, bangEqual, equal, equalEqual, greater, greaterEqual, less, lessEqual]

/-- The kinds of keywords. -/
def keywords : List Kind :=
  [kwAnd, kwClass, kwElse, kwFalse, kwFun, kwFor, kwIf, kwNil, kwOr, kwReturn, kwSuper, kwThis,
   kwTrue, kwVar, kwWhile]

/-- The kinds of the language, in the order of their numbers. -/
def all : List Kind :=
  endOfInput :: (operators ++ [identifier, string, number] ++ keywords)

/-- The number of a kind. -/
def code : Kind → Int
  | endOfInput => -1
  | leftParen => 1
  | rightParen => 2
  | leftBrace => 3
  | rightBrace => 4
  | comma => 5
  | dot => 6
  | minus => 7
  | plus => 8
  | semicolon => 9
  | slash => 10
  | star => 11
  | bang => 12
  | bangEqual => 13
  | equal => 14
  | equalEqual => 15
  | greater => 16
  | greaterEqual => 17
  | less => 18
  | lessEqual => 19
  | identifier => 20
  | string => 21
  | number => 22
  | kwAnd => 23
  | kwClass => 24
  | kwElse => 25
  | kwFalse => 26
  | kwFun => 27
  | kwFor => 28
  | kwIf => 29
  | kwNil => 30
  | kwOr => 31
  | kwReturn => 32
  | kwSuper => 33
  | kwThis => 34
  | kwTrue => 35
  | kwVar => 36
  | kwWhile => 37
  | other n => n

/-- The kind with a number. -/
def ofCode (n : Int) : Kind :=
  (all.find? fun k => k.code = n).getD (other n)

/-- The printable name of a kind. -/
def name : Kind → Text
  | endOfInput => "end of input"
  | leftParen => "("
  | rightParen => ")"
  | leftBrace => "\x7b"
  | rightBrace => "\x7d"
  | comma => ","
  | dot => "."
  | minus => "-"
  | plus => "+"
  | semicolon => ";"
  | slash => "/"
  | star => "*"
  | bang => "!"
  | bangEqual => "!="
  | equal => "="
  | equalEqual => "=="
  | greater => ">"
  | greaterEqual => ">="
  | less => "<"
  | lessEqual => "<="
  | identifier => "identifier"
  | string => "string"
  | number => "number"
  | kwAnd => "and"
  | kwClass => "class"
  | kwElse => "else"
  | kwFalse => "false"
  | kwFun => "fun"
  | kwFor => "for"
  | kwIf => "if"
  | kwNil => "nil"
  | kwOr => "or"
  | kwReturn => "return"
  | kwSuper => "super"
  | kwThis => "this"
  | kwTrue => "true"
  | kwVar => "var"
  | kwWhile => "while"
  | other n => ("<token " : Text) ++ Text.ofInt n ++ (">" : Text)

/-- The kind of the language with a printable name. -/
def ofName? (t : Text) : Option Kind :=
  all.find? fun k => k.name = t

/-- The keyword with a lexeme. -/
def keyword? (lexeme : Text) : Option Kind :=
  keywords.find? fun k => k.name = lexeme

end Kind

end Dynascope
