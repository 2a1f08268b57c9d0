import Dynascope.Number.Binary
import Dynascope.Text.Basic

/-!
# Reading numbers

The numerals that convert to numbers: an optional sign and then `inf`, `infinity` (in any case),
decimal digits with an optional point and exponent, or hexadecimal digits after `0x` with a binary
exponent after `p`. An unsigned `nan` is a numeral too. An underscore may stand between two digits
and after `0x`. A value above the largest float is out of range; one that is too small is zero.
Exponents of more than five digits are cut to their first five.

* `Reading`: what a text denotes.
* `read`: the reading of a text.
-/

namespace Dynascope.Number

/-- What a text denotes as a numeral. -/
inductive Reading where
  /-- A number. -/
  | number (value : Float)
  /-- A numeral for a value above the largest float. -/
  | outOfRange
  /-- Not a numeral. -/
  | malformed
  deriving Repr, DecidableEq

/-- A byte with ASCII letters in lower case. -/
def lower (b : UInt8) : UInt8 :=
  if 0x41 ≤ b && b ≤ 0x5a then b + 0x20 else b

/-- The sign at the front of a text (whether it is negative) and what follows. -/
def takeSign : Text → Bool × Text
  | 0x2b :: rest => (false, rest)
  | 0x2d :: rest => (true, rest)
  | t => (false, t)

/-- Whether a byte is a digit in base ten or sixteen. -/
def isDigitIn (hexadecimal : Bool) (b : UInt8) : Bool :=
  Text.isDigit b || hexadecimal && 0x61 ≤ lower b && lower b ≤ 0x66

/-- The value of a digit in base ten or sixteen. -/
def digitValueIn (b : UInt8) : Nat :=
  if Text.isDigit b then Text.digitValue b else (lower b).toNat - 0x57

/-- Whether every underscore of a text stands between two digits. `afterDigit` tells whether a digit
(or the mark of the base) stands before the text. -/
def underscoresOk (hexadecimal : Bool) : (afterDigit : Bool) → Text → Bool
  | _, [] => true
  | afterDigit, b :: rest =>
    if b = 0x5f then
      afterDigit && (rest.head?.any (isDigitIn hexadecimal)) && underscoresOk hexadecimal false rest
    else underscoresOk hexadecimal (isDigitIn hexadecimal b) rest

/-- The digits before and after the point, and what follows. -/
def takeMantissa (hexadecimal : Bool) (t : Text) : Text × Text × Text :=
  let whole := t.takeWhile (isDigitIn hexadecimal)
  match t.dropWhile (isDigitIn hexadecimal) with
  | 0x2e :: rest =>
    (whole, rest.takeWhile (isDigitIn hexadecimal), rest.dropWhile (isDigitIn hexadecimal))
  | rest => (whole, [], rest)

/-- The size from which on further digits of an exponent are passed over. -/
def exponentLimit : Nat := 10000

/-- The size of an exponent. A digit counts only while the size is less than `exponentLimit`, so
that it stays below ten times that limit. -/
def exponentSize (ds : Text) : Nat :=
  ds.foldl (fun n d => if n < exponentLimit then n * 10 + Text.digitValue d else n) 0

/-- The exponent at the front of a text after the letter `mark`: none if it is malformed, and 0
if there is none. The digits must be the rest of the text. -/
def readExponent? (mark : UInt8) : Text → Option Int
  | [] => some 0
  | b :: rest =>
    if lower b = mark then
      let signed := takeSign rest
      if signed.2 ≠ [] && signed.2.all Text.isDigit then
        let size : Int := exponentSize signed.2
        some (if signed.1 then -size else size)
      else none
    else none

/-- The reading of `mantissa * base ^ exponent`. -/
def readScaled (negative : Bool) (mantissa base : Nat) (exponent : Int) : Reading :=
  if mantissa = 0 then .number (withSign negative 0)
  else
    match nearest? (mantissa * base.pow exponent.toNat) (base.pow (-exponent).toNat) with
    | some x => .number (withSign negative x)
    | none => .outOfRange

/-- The reading of an unsigned numeral without underscores and base mark. -/
def readUnsigned (negative hexadecimal : Bool) (t : Text) : Reading :=
  let (whole, fraction, rest) := takeMantissa hexadecimal t
  let ds := whole ++ fraction
  let radix := if hexadecimal then 16 else 10
  let mantissa := ds.foldl (fun n d => n * radix + digitValueIn d) 0
  if ds = [] || hexadecimal && rest = [] then .malformed
  else
    match readExponent? (if hexadecimal then 0x70 else 0x65) rest with
    | none => .malformed
    | some e =>
      if hexadecimal then readScaled negative mantissa 2 (e - 4 * fraction.length)
      else readScaled negative mantissa 10 (e - fraction.length)

/-- The reading of a text as a number. -/
def read (t : Text) : Reading :=
  let (negative, body) := takeSign t
  let word := body.map lower
  if word = Text.ofString "inf" || word = Text.ofString "infinity" then
    .number (withSign negative infinity)
  else if t.map lower = Text.ofString "nan" then .number notANumber
  else
    let strip (ds : Text) : Text := ds.filter (· ≠ 0x5f)
    match body with
    | 0x30 :: x :: digits =>
      if lower x = 0x78 && digits ≠ [] then
        if underscoresOk true true digits then readUnsigned negative true (strip digits)
        else .malformed
      else if underscoresOk false false body then readUnsigned negative false (strip body)
      else .malformed
    | _ =>
      if underscoresOk false false body then readUnsigned negative false (strip body)
      else .malformed

end Dynascope.Number
