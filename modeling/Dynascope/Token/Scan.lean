import Dynascope.Number.Reader
import Dynascope.Token.Basic
import Dynascope.Token.Segment

/-!
# Scanning

Every segment of a source yields at most one event: nothing for blanks and comments, an error for a
stray byte, an unclosed string or a numeral out of range, and a token otherwise.

* `ScanError`: the two causes of failure and their text.
* `Event`: a token or an error.
* `scan`: the events of a source, in order.
* `Scanner`: a scanner is asked for one token after the other; on its way to a token it reports
  errors. After the last token it gives the token for the end, as often as it is asked.
* `tokenize`: the tokens of a source with the token for its end, and the first error.
-/

namespace Dynascope

/-- Why a part of a source is not a token. -/
inductive ScanError where
  /-- The byte at a position is unexpected. -/
  | unexpected (lexeme : Text) (position : Position)
  /-- The value of a numeral is above the largest number. -/
  | outOfRange (numeral : Text)
  deriving Repr, DecidableEq

/-- The text of a scan error. -/
def ScanError.message : ScanError → Text
  | .unexpected lexeme position => located position "unexpected character" lexeme
  | .outOfRange numeral =>
    ("strconv.ParseFloat: parsing " : Text) ++ numeral.quoted ++ (": value out of range" : Text)

/-- What the scanner reports. -/
inductive Event where
  | token (token : Token)
  | error (error : ScanError)
  deriving Repr, DecidableEq

/-- The content of a string lexeme: what stands between its quotes. -/
def unquote (lexeme : Text) : Text :=
  (lexeme.drop 1).dropLast

namespace Segment

/-- The event of a segment that starts at a position. -/
def event? (s : Segment) (p : Position) : Option Event :=
  match s.cls with
  | .blank => none
  | .comment => none
  | .string => some (.token ⟨.string, s.bytes, some (.string (unquote s.bytes)), p⟩)
  | .word => some (.token ⟨(Kind.keyword? s.bytes).getD .identifier, s.bytes, none, p⟩)
  | .numeral =>
    match Number.read s.bytes with
    | .number x => some (.token ⟨.number, s.bytes, some (.number x), p⟩)
    | _ => some (.error (.outOfRange s.bytes))
  | .operator kind => some (.token ⟨kind, s.bytes, none, p⟩)
  | .stray => some (.error (.unexpected s.bytes p))
  | .openString =>
    some (.error (.unexpected (s.bytes.drop (s.bytes.length - 1)) (p.advance s.bytes.dropLast)))

/-- The events of consecutive segments, the first of which starts at a position. -/
def events (p : Position) : List Segment → List Event
  | [] => []
  | s :: rest => (s.event? p).toList ++ events (p.advance s.bytes) rest

end Segment

/-- The events of a source, in the order of the source. -/
def scan (source : Text) : List Event :=
  Segment.events .start (Segment.cut source)

/-- The token for the end of a source. -/
def endToken (source : Text) : Token :=
  .endOfInput (Position.start.advance source)

/-- A scanner: where it stands, and the segments from there on. -/
structure Scanner where
  position : Position
  segments : List Segment

namespace Scanner

/-- A scanner at the front of a source. -/
def ofSource (source : Text) : Scanner :=
  ⟨.start, Segment.cut source⟩

/-- The errors before the next token, that token, and the scanner after it. -/
def nextFrom (p : Position) : List Segment → List ScanError × Token × Scanner
  | [] => ([], .endOfInput p, ⟨p, []⟩)
  | s :: rest =>
    match s.event? p with
    | none => nextFrom (p.advance s.bytes) rest
    | some (.token t) => ([], t, ⟨p.advance s.bytes, rest⟩)
    | some (.error e) =>
      let (errors, found) := nextFrom (p.advance s.bytes) rest
      (e :: errors, found)

/-- Asks for the next token. -/
def next (s : Scanner) : List ScanError × Token × Scanner :=
  nextFrom s.position s.segments

/-- What a scanner reports if it is asked so many times. -/
def reports : (count : Nat) → Scanner → List Event
  | 0, _ => []
  | n + 1, s =>
    let (errors, token, s) := s.next
    errors.map .error ++ .token token :: reports n s

end Scanner

/-- The tokens among events. -/
def Event.tokens (events : List Event) : List Token :=
  events.filterMap fun
    | .token t => some t
    | .error _ => none

/-- The errors among events. -/
def Event.errors (events : List Event) : List ScanError :=
  events.filterMap fun
    | .token _ => none
    | .error e => some e

/-- The tokens of a source, ended by the token for its end, and the first error. -/
def tokenize (source : Text) : List Token × Option ScanError :=
  let events := scan source
  (Event.tokens events ++ [endToken source], (Event.errors events).head?)

end Dynascope
