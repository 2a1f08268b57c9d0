import Dynascope.Text.Basic

/-!
# Positions

* `Position`: row and column of a byte; both count from 1, columns count bytes.
* `Position.advance`: the position after some bytes.
* `located`: the text of an error at a position.
-/

namespace Dynascope

/-- Row and column of a byte of a source text. -/
structure Position where
  row : Int
  column : Int
  deriving Repr, DecidableEq

namespace Position

/-- The position of the first byte. -/
def start : Position :=
  ⟨1, 1⟩

/-- The position after one byte: a newline starts a row. -/
def step (p : Position) (b : UInt8) : Position :=
  if b = Text.newline then ⟨p.row + 1, 1⟩ else ⟨p.row, p.column + 1⟩

/-- The position after some bytes. -/
def advance (p : Position) (bytes : Text) : Position :=
  bytes.foldl step p

/-- The position of the byte at an offset of a source text. -/
def ofOffset (source : Text) (offset : Nat) : Position :=
  start.advance (source.take offset)

/-- Row and column with a colon between them. -/
def text (p : Position) : Text :=
  Text.ofInt p.row ++ (":" : Text) ++ Text.ofInt p.column

end Position

/-- The text of an error at a position, with the offending lexeme on a line of its own. -/
def located (p : Position) (message lexeme : Text) : Text :=
  ("[" : Text) ++ p.text ++ ("] Error: " : Text) ++ message ++ (Text.newline :: lexeme)

/-- The text of an error without a position. -/
def unlocated (message : Text) : Text :=
  ("Error: " : Text) ++ message

end Dynascope
