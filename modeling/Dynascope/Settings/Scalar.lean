import Dynascope.Number.Reader

/-!
# Scalars of settings files

A settings file has lines `key: value`. Keys and values are scalars. A quoted scalar is always a
text. What a plain one stands for depends on what is asked for.

* `Scalar.text`, `Scalar.bool?`, `Scalar.whole?`: the text, truth value or whole number that a
  scalar stands for.
* `Scalar.isNull`: whether it stands for no value.
-/

namespace Dynascope

/-- A scalar without its quotes and escapes. -/
inductive Scalar where
  | plain (text : Text)
  | quoted (text : Text)
  deriving Repr, DecidableEq

namespace Scalar

/-- The text of a scalar, whatever its style. -/
def text : Scalar → Text
  | plain t => t
  | quoted t => t

/-- Whether a text is one of some words. -/
def isOneOf (t : Text) (words : List String) : Bool :=
  words.any fun w => Text.ofString w = t

/-- Whether a scalar stands for no value. -/
def isNull : Scalar → Bool
  | plain t => isOneOf t ["", "~", "null", "Null", "NULL"]
  | quoted _ => false

/-- The truth value that a scalar stands for. The words `yes`, `no`, `on` and `off` and
their letters count in every style. -/
def bool? (s : Scalar) : Option Bool :=
  let isPlain : Bool := s = plain s.text
  if isPlain && isOneOf s.text ["true", "True", "TRUE"] then some true
  else if isPlain && isOneOf s.text ["false", "False", "FALSE"] then some false
  else if isOneOf s.text ["y", "Y", "yes", "Yes", "YES", "on", "On", "ON"] then some true
  else if isOneOf s.text ["n", "N", "no", "No", "NO", "off", "Off", "OFF"] then some false
  else none

/-- The digits of a numeral without a sign, and their base. A leading zero means base eight. -/
def splitBase (t : Text) : Nat × Text :=
  match t with
  | 0x30 :: mark :: d :: rest =>
    let mark' := Number.lower mark
    if mark' = 0x78 then (16, d :: rest)
    else if mark' = 0x6f then (8, d :: rest)
    else if mark' = 0x62 then (2, d :: rest)
    else (8, mark :: d :: rest)
  | 0x30 :: rest => (8, rest)
  | t => (10, t)

/-- The integer that a numeral denotes, of any size. -/
def integer? (t : Text) : Option Int :=
  let (negative, unsigned) := Number.takeSign t
  let (base, ds) := splitBase unsigned
  let isDigit (b : UInt8) : Bool := Number.isDigitIn true b && Number.digitValueIn b < base
  if unsigned ≠ [] && ds.all isDigit then
    let size : Int := ds.foldl (fun n d => n * base + Number.digitValueIn d) 0
    some (if negative then -size else size)
  else none

/-- The integer of a numeral whose sign stands between the mark of its base, `0b` or `0o`, and its
digits. -/
def markedInteger? : Text → Option Int
  | 0x30 :: mark :: rest =>
    let (negative, ds) := Number.takeSign rest
    let base := if mark = 0x62 then 2 else 8
    let isDigit (b : UInt8) : Bool := Text.isDigit b && Text.digitValue b < base
    if (mark = 0x62 || mark = 0x6f) && ds ≠ [] && ds.all isDigit then
      let size : Int := ds.foldl (fun n d => n * base + Text.digitValue d) 0
      some (if negative then -size else size)
    else none
  | _ => none

/-- Whether a text is a decimal numeral, with an optional sign, point and exponent. -/
def isDecimal (t : Text) : Bool :=
  let (whole, fraction, rest) := Number.takeMantissa false (Number.takeSign t).2
  !(whole ++ fraction).isEmpty && (Number.readExponent? 0x65 rest).isSome

/-- The largest 64-bit integer and one. -/
def wordLimit : Nat := 1 <<< 63

/-- A finite number without its fraction. -/
def truncated (x : Float) : Int :=
  let m := Number.magnitude x
  let size : Nat := m.mantissa <<< m.exponent.toNat >>> (-m.exponent).toNat
  if Number.signBit x then -(size : Int) else size

/-- The 64-bit integer for a number without its fraction; numbers above `wordLimit` have none, and
all others out of range give the least integer. -/
def wordOfFloat? (x : Float) : Option Int :=
  if x ≤ Float.ofNat wordLimit then
    if -Float.ofNat wordLimit ≤ x && x < Float.ofNat wordLimit then some (truncated x)
    else some (-wordLimit)
  else none

/-- The whole number that the number read from a text gives. -/
def wholeOfDecimal? (t : Text) : Option Int :=
  match Number.read t with
  | .number x => wordOfFloat? x
  | _ => none

/-- Whether an integer has 64 bits. -/
def isWord (n : Int) : Bool :=
  -wordLimit ≤ n && n < wordLimit

/-- The whole number of a numeral without underscores. An integer that needs all 64 bits for its size
is too large; larger ones are rounded as other numbers are. -/
def wholeOfNumeral? (digits : Text) : Option Int :=
  let n? := integer? digits
  if n?.any isWord then n?
  else if digits.head?.any Text.isDigit && n?.any (fun n : Int => n < 2 * wordLimit) then none
  else if isDecimal digits then wholeOfDecimal? digits
  else (markedInteger? digits).filter isWord

/-- The whole number that a scalar stands for, as a 64-bit integer. Underscores do not count;
fractions are cut off. -/
def whole? : Scalar → Option Int
  | quoted _ => none
  | plain [] => none
  | plain (first :: rest) =>
    let t := first :: rest
    if isOneOf t ["-.inf", "-.Inf", "-.INF"] then some (-wordLimit)
    else if first = 0x2e then wholeOfDecimal? t
    else if Text.isDigit first || first = 0x2b || first = 0x2d then
      wholeOfNumeral? (t.filter (· ≠ 0x5f))
    else none

end Scalar

end Dynascope
