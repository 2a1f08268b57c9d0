import Dynascope.Token.Basic

/-!
# Parse errors

* `ParseFault`: why no tree could be built.
* `ParseError`: the fault with the offending token, if there is one.
* `ParseError.message`: the text of an error; `parseErrorsMessage` joins several.
-/

namespace Dynascope

/-- Why no tree could be built. -/
inductive ParseFault where
  /-- The tokens ended without a token for the end of the input. -/
  | noToken
  /-- A number or string token carries no value. -/
  | literalWithoutValue
  /-- No expression starts with the token. -/
  | unexpectedToken
  /-- A token of another kind had to stand here. -/
  | expected (kind : Kind)
  /-- The left-hand side of an assignment is neither a variable nor a property. -/
  | invalidTarget
  /-- A fault of no known kind. -/
  | unknown
  deriving Repr, DecidableEq

/-- The text of a fault. -/
def ParseFault.message : ParseFault → Text
  | .noToken => "Failed to get token"
  | .literalWithoutValue => "Literal type token without value"
  | .unexpectedToken => "Unexpected token type"
  | .expected kind => ("'" : Text) ++ kind.name ++ ("' expected" : Text)
  | .invalidTarget => "Invalid assignment target"
  | .unknown => "Unknown parser error"

/-- A fault and the offending token. -/
structure ParseError where
  fault : ParseFault
  token : Option Token
  deriving Repr, DecidableEq

/-- The text of a parse error. -/
def ParseError.message (e : ParseError) : Text :=
  match e.token with
  | none => unlocated e.fault.message
  | some t => located t.position e.fault.message t.lexeme

/-- The texts of parse errors, one per line. -/
def parseErrorsMessage (errors : List ParseError) : Text :=
  Text.join [Text.newline] (errors.map ParseError.message)

end Dynascope
