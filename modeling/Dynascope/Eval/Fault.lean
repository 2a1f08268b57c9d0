import Dynascope.Store.Basic

/-!
# Runtime errors

* `Fault`: what went wrong.
* `RuntimeError`: a fault with the token it is attributed to, if there is one.
* `RuntimeError.message`: the text of an error.
* `Stop`: the ways in which evaluation ends before its time.
-/

namespace Dynascope

/-- What went wrong during evaluation. -/
inductive Fault where
  /-- The tree or the state is malformed. -/
  | unreachable
  /-- A value of another type is needed. -/
  | unexpectedValue (value : Held) (expected : Text)
  /-- The divisor is zero. -/
  | divisionByZero
  /-- No frame defines the name. -/
  | undefinedVariable
  /-- The callee is neither a function nor a class. -/
  | notCallable
  /-- The number of arguments is not the number of parameters. -/
  | argumentCount (has want : Int)
  /-- The body of the function is not a block. -/
  | missingBlock
  /-- Calls are nested too deeply. -/
  | callDepth (limit : Int)
  /-- A fault of no known kind. -/
  | unknown
  deriving DecidableEq

/-- A fault and the token it is attributed to. -/
structure RuntimeError where
  fault : Fault
  token : Option Token
  deriving DecidableEq

namespace RuntimeError

/-- The lexeme of the token of an error; empty without a token. -/
def lexeme (e : RuntimeError) : Text :=
  (e.token.map Token.lexeme).getD []

/-- What an error says, without its place. -/
def description (s : Store) (e : RuntimeError) : Text :=
  match e.fault with
  | .unreachable => "Internal error: unreachable code reached"
  | .unexpectedValue none expected => ("Unexpected value, expected " : Text) ++ expected
  | .unexpectedValue (some v) expected =>
    ("Unexpected value '" : Text) ++ s.render v ++ ("' of type " : Text) ++ v.kind.name ++
      (", expected " : Text) ++ expected
  | .divisionByZero => "Division by zero"
  | .undefinedVariable => ("Undefined variable '" : Text) ++ e.lexeme ++ ("'" : Text)
  | .notCallable => "Can only call functions and classes"
  | .argumentCount has want =>
    ("Expected " : Text) ++ Text.ofInt want ++ (" arguments but got " : Text) ++ Text.ofInt has
  | .missingBlock => "Function body is not a block"
  | .callDepth limit => ("Call depth exceeds " : Text) ++ Text.ofInt limit
  | .unknown => "Unknown runtime error"

/-- The text of an error. -/
def message (s : Store) (e : RuntimeError) : Text :=
  match e.token with
  | none => unlocated (e.description s)
  | some t => located t.position (e.description s) t.lexeme

/-- Attributes an error to a token, unless it has one. -/
def attributedTo (e : RuntimeError) (token : Option Token) : RuntimeError :=
  { e with token := e.token.or token }

end RuntimeError

/-- Why evaluation ended before its time. -/
inductive Stop where
  /-- An error of the program. -/
  | fault (error : RuntimeError)
  /-- The output could not be written. -/
  | writeFailed
  /-- A variable, function, parameter or field without a name was to be defined. -/
  | emptyName
  /-- A parameter, or `print`, has no argument. -/
  | missingArgument
  /-- A method, or the name of a property, is missing in a tree. -/
  | missingPart
  /-- The fuel is used up. -/
  | outOfFuel

/-- Attributes a stop to a token if it is an error without one. -/
def Stop.attributedTo (s : Stop) (token : Option Token) : Stop :=
  match s with
  | .fault e => .fault (e.attributedTo token)
  | s => s

end Dynascope
