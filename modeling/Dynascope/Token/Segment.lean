import Dynascope.Token.Kind

/-!
# Segments of a source

A source is cut into segments from left to right. Each segment is the longest lexeme at its place:
a run of blanks, a comment, a string, a word, a numeral or an operator. Where no lexeme starts, a
single stray byte is a segment; a double quote that is never closed takes all the rest.

* `Segment`: a class and the bytes.
* `Segment.front`: the class of the first segment and its length.
* `Segment.cut`: the segments of a source; their bytes are the source.
-/

namespace Dynascope

/-- The class of a segment. -/
inductive SegmentClass where
  | blank
  | comment
  | string
  | word
  | numeral
  | operator (kind : Kind)
  /-- A byte at which no lexeme starts. -/
  | stray
  /-- A double quote without a closing one, with all that follows. -/
  | openString
  deriving Repr, DecidableEq

/-- A piece of a source. -/
structure Segment where
  cls : SegmentClass
  bytes : Text
  deriving Repr, DecidableEq

namespace Segment

/-- Whether a byte is white space of the language: blank, tab, newline or carriage return. -/
def isBlank (b : UInt8) : Bool :=
  b = 0x20 || b = 0x09 || b = 0x0a || b = 0x0d

/-- Whether a byte may start a word: a letter of ASCII or an underscore. -/
def isWordStart (b : UInt8) : Bool :=
  0x61 ≤ b && b ≤ 0x7a || 0x41 ≤ b && b ≤ 0x5a || b = 0x5f

/-- Whether a byte may continue a word. -/
def isWordByte (b : UInt8) : Bool :=
  isWordStart b || Text.isDigit b

/-- The number of leading bytes with a property. -/
def run (p : UInt8 → Bool) (t : Text) : Nat :=
  (t.takeWhile p).length

/-- The number of bytes up to and with the first star that is followed by a slash, and that slash. -/
def commentEnd? : Text → Option Nat
  | [] => none
  | [_] => none
  | a :: b :: rest =>
    if a = 0x2a && b = 0x2f then some 2 else (commentEnd? (b :: rest)).map (· + 1)

/-- The number of bytes up to and with the first double quote. -/
def stringEnd? : Text → Option Nat
  | [] => none
  | b :: rest => if b = Text.quote then some 1 else (stringEnd? rest).map (· + 1)

/-- The number of bytes of a numeral after its first digit: more digits and, if a digit follows the
point, a fraction. -/
def numeralRun (t : Text) : Nat :=
  let whole := run Text.isDigit t
  match t.drop whole with
  | 0x2e :: rest =>
    let fraction := run Text.isDigit rest
    if fraction = 0 then whole else whole + 1 + fraction
  | _ => whole

/-- The kind of the operator of one byte. -/
def operator? (a : UInt8) : Option Kind :=
  Kind.operators.find? fun k => k.name = [a]

/-- The kind of the operator of two bytes. -/
def operator2? (a b : UInt8) : Option Kind :=
  Kind.operators.find? fun k => k.name = [a, b]

/-- The operator at the front of `a :: rest`, with the number of bytes it takes from `rest`. -/
def operatorFront (a : UInt8) (rest : Text) : SegmentClass × Nat :=
  match rest.head?.bind (operator2? a) with
  | some kind => (.operator kind, 1)
  | none =>
    match operator? a with
    | some kind => (.operator kind, 0)
    | none => (.stray, 0)

/-- The class of the segment at the front of `a :: rest`, with the number of bytes it takes from
`rest`. -/
def front (a : UInt8) (rest : Text) : SegmentClass × Nat :=
  if isBlank a then (.blank, run isBlank rest)
  else if isWordStart a then (.word, run isWordByte rest)
  else if Text.isDigit a then (.numeral, numeralRun rest)
  else if a = Text.quote then
    match stringEnd? rest with
    | some n => (.string, n)
    | none => (.openString, rest.length)
  else if a = 0x2f then
    match rest with
    | 0x2f :: line => (.comment, 1 + run (· ≠ Text.newline) line)
    | 0x2a :: body =>
      match commentEnd? body with
      | some n => (.comment, 1 + n)
      | none => (.operator .slash, 0)
    | _ => (.operator .slash, 0)
  else operatorFront a rest

/-- The segments of a source without its first `skip` bytes. -/
def cutAfter : (skip : Nat) → Text → List Segment
  | _, [] => []
  | k + 1, _ :: rest => cutAfter k rest
  | 0, a :: rest =>
    let found := front a rest
    ⟨found.1, a :: rest.take found.2⟩ :: cutAfter found.2 rest

/-- The segments of a source. -/
def cut (source : Text) : List Segment :=
  cutAfter 0 source

end Segment

end Dynascope
