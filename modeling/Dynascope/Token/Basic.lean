import Dynascope.Position
import Dynascope.Number.Shortest
import Dynascope.Text.Quoted
import Dynascope.Token.Kind

/-!
# Tokens and literals

* `Literal`: the constants of the language and, for hand-made trees, a constant of a type that the
  language does not know.
* `Token`: kind, lexeme, literal value and position.
* `Literal.text`: the text of a constant in a tree.
* `Token.text`: the text of a token for diagnostics.
-/

namespace Dynascope

/-- A constant. -/
inductive Literal where
  | nil
  | bool (value : Bool)
  | number (value : Float)
  | string (value : Text)
  /-- A constant of a type that the language does not know. -/
  | foreign (value : Int)
  deriving Repr, DecidableEq

/-- The text of a truth value. -/
def boolText (b : Bool) : Text :=
  if b then "true" else "false"

/-- The text of a constant in a tree; strings are quoted. -/
def Literal.text : Literal → Text
  | .nil => "nil"
  | .bool b => boolText b
  | .number x => Number.text x
  | .string s => s.quoted
  | .foreign n => Text.ofInt n

/-- A token. Number and string tokens of a scanned source carry a value, other tokens do not. -/
structure Token where
  kind : Kind
  lexeme : Text
  value : Option Literal
  position : Position
  deriving Repr, DecidableEq

/-- Kind, quoted lexeme and position of a token between angle brackets. -/
def Token.text (t : Token) : Text :=
  ("<" : Text) ++ t.kind.name ++ (" " : Text) ++ t.lexeme.quoted ++ (" @" : Text) ++
    t.position.text ++ (">" : Text)

/-- The token at the end of a source. -/
def Token.endOfInput (p : Position) : Token :=
  { kind := .endOfInput, lexeme := [], value := none, position := p }

end Dynascope
