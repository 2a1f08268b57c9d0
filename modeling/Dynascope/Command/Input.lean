import Dynascope.Text.Utf8

/-!
# Input of sessions

A session reads characters as keys. A newline or a carriage return ends a line. Keys that move about
in a line or draw it again have no effect, since a line is only written at its end.

* `Key`: what a character does.
* `Key.ofPieces`: the keys of an input. A sequence that starts with an escape and a bracket is one key
  without effect.
* `Typed`: lines, and whether the input was ended before its last character.
* `Typed.ofText`: the lines of an input.
-/

namespace Dynascope

/-- What a character of the input does. -/
inductive Key where
  /-- It is added to the line. -/
  | character (bytes : Text)
  /-- It ends the line. -/
  | enter
  /-- It ends the input. -/
  | interrupt
  /-- It ends the input if the line is empty, and else does nothing. -/
  | finish
  /-- It ends the input if the line is empty, and else the line. -/
  | close
  /-- It takes back the last character of the line. -/
  | erase
  /-- It takes back the line. -/
  | clear
  /-- It does nothing. -/
  | idle
  deriving Repr, DecidableEq

namespace Key

/-- The key of a character that is not part of an escape sequence. A stray byte counts as U+FFFD. -/
def ofPiece (p : Text.Piece) : Key :=
  match p.bytes with
  | [0x00] => close
  | [0x03] => interrupt
  | [0x04] => finish
  | [0x05] => idle
  | [0x06] => idle
  | [0x07] => idle
  | [0x08] => erase
  | [0x09] => idle
  | [0x0a] => enter
  | [0x0b] => idle
  | [0x0c] => idle
  | [0x0d] => enter
  | [0x0e] => idle
  | [0x15] => clear
  | [0x7f] => erase
  | _ => character p.character

/-- Whether a character stands in an escape sequence before its last one: a digit or a semicolon. -/
def isSequencePiece (p : Text.Piece) : Bool :=
  match p.bytes with
  | [b] => Text.isDigit b || b = 0x3b
  | _ => false

/-- Where in an escape sequence a character stands. -/
inductive Stage where
  /-- Outside. -/
  | outside
  /-- After the escape. -/
  | escape
  /-- After the bracket. -/
  | bracket
  deriving Repr, DecidableEq

/-- The keys of characters. An escape that no bracket follows does not count. -/
def ofPieces : Stage → List Text.Piece → List Key
  | _, [] => []
  | .outside, p :: rest =>
    if p.bytes = [0x1b] then ofPieces .escape rest else ofPiece p :: ofPieces .outside rest
  | .escape, p :: rest =>
    if p.bytes = [0x5b] then ofPieces .bracket rest
    else if p.bytes = [0x1b] then ofPieces .escape rest
    else ofPiece p :: ofPieces .outside rest
  | .bracket, p :: rest => ofPieces (if isSequencePiece p then .bracket else .outside) rest

end Key

/-- What was typed. -/
structure Typed where
  lines : List Text
  /-- Whether a key ended the input. -/
  ended : Bool
  deriving Repr, DecidableEq

namespace Typed

/-- What was typed, with one more line before it whose characters are given in reverse. -/
def cons (line : List Text) (t : Typed) : Typed :=
  { t with lines := line.reverse.flatten :: t.lines }

/-- What keys type after the characters of `line`, which are given in reverse. A last line need not
be ended. -/
def ofKeys : (line : List Text) → List Key → Typed
  | line, [] => if line.isEmpty then ⟨[], false⟩ else cons line ⟨[], false⟩
  | line, .character bytes :: rest => ofKeys (bytes :: line) rest
  | line, .enter :: rest => (ofKeys [] rest).cons line
  | _, .interrupt :: _ => ⟨[], true⟩
  | line, .finish :: rest => if line.isEmpty then ⟨[], true⟩ else ofKeys line rest
  | line, .close :: rest => if line.isEmpty then ⟨[], true⟩ else (ofKeys [] rest).cons line
  | line, .erase :: rest => ofKeys line.tail rest
  | _, .clear :: rest => ofKeys [] rest
  | line, .idle :: rest => ofKeys line rest

/-- The lines of an input. -/
def ofText (input : Text) : Typed :=
  ofKeys [] (Key.ofPieces .outside (Text.pieces input))

end Typed

end Dynascope
