import Dynascope.Number.Binary
import Dynascope.Text.Basic

/-!
# The text of a number

A number is written with the fewest decimal digits that read back as the same number; of two such
decimals the nearer one is taken, and of two equally near the one with the even last digit. The
notation is positional, whatever the size: there is never an exponent.

* `Decimal`: `digits * 10 ^ exponent`.
* `shortest`: the decimal for a positive magnitude.
* `text`: the text of a number, with `NaN`, `+Inf`, `-Inf` and `-0`.
-/

namespace Dynascope.Number

/-- The value `digits * 10 ^ exponent`. -/
structure Decimal where
  digits : Nat
  exponent : Int
  deriving Repr, DecidableEq

/-- A fraction with the interval of the values that round to the same number: the value is
`mid / den`, the ends are `low / den` and `high / den`, and they belong to the interval if `closed`
holds. -/
structure Interval where
  low : Nat
  mid : Nat
  high : Nat
  den : Nat
  closed : Bool
  deriving Repr

/-- The interval of the values that round to a magnitude. Below a power of two the neighbour is
half as far away as above it, except at the least exponent. -/
def Magnitude.interval (v : Magnitude) : Interval :=
  let narrow := v.mantissa == 1 <<< mantissaBits && leastExponent < v.exponent
  let up := 4 <<< v.exponent.toNat
  { low := if narrow then v.mantissa * up - up / 4 else v.mantissa * up - up / 2
    mid := v.mantissa * up
    high := v.mantissa * up + up / 2
    den := 4 <<< (-v.exponent).toNat
    closed := v.mantissa % 2 == 0 }

/-- Whether `num / den` lies in the interval. -/
def Interval.contains (i : Interval) (num den : Nat) : Bool :=
  if i.closed then i.low * den ≤ num * i.den && num * i.den ≤ i.high * den
  else i.low * den < num * i.den && num * i.den < i.high * den

/-- The numerator and denominator of a decimal. -/
def Decimal.ratio (d : Decimal) : Nat × Nat :=
  (d.digits * Nat.pow 10 d.exponent.toNat, Nat.pow 10 (-d.exponent).toNat)

/-- Whether a decimal lies in the interval. -/
def Interval.admits (i : Interval) (d : Decimal) : Bool :=
  i.contains d.ratio.1 d.ratio.2

/-- The decimal of the interval on the grid `10 ^ exponent` that is nearest to the middle, if the
interval has one next to it. -/
def Interval.onGrid? (i : Interval) (exponent : Int) : Option Decimal :=
  let num := i.mid * Nat.pow 10 (-exponent).toNat
  let den := i.den * Nat.pow 10 exponent.toNat
  let below : Decimal := ⟨num / den, exponent⟩
  let above : Decimal := ⟨num / den + 1, exponent⟩
  let rounded : Decimal := ⟨roundDiv num den, exponent⟩
  if i.admits rounded then some rounded
  else if i.admits below then some below
  else if i.admits above then some above
  else none

/-- The first decimal of the interval on one of the grids `10 ^ top`, `10 ^ (top - 1)` and so on. -/
def Interval.search (i : Interval) (top : Int) : (grids : Nat) → Decimal
  | 0 => ⟨i.mid / i.den, 0⟩
  | n + 1 =>
    match i.onGrid? top with
    | some d => d
    | none => i.search (top - 1) n

/-- The number of decimal digits before the point of a value below `2 ^ bits`, or more. -/
def decimalWidth (bits : Int) : Int :=
  bits * 30103 / 100000 + 2

/-- The decimal with the fewest digits that reads back as the positive magnitude `v`. The grids
start above the value and end at the smallest one that can be needed. -/
def shortest (v : Magnitude) : Decimal :=
  v.interval.search (decimalWidth (v.mantissa.log2 + v.exponent)) 24

/-- Drops trailing zeros of the digits as long as the exponent is negative. -/
def Decimal.trimmed (d : Decimal) : (fuel : Nat) → Decimal
  | 0 => d
  | n + 1 =>
    if d.exponent < 0 && d.digits % 10 == 0 then
      Decimal.trimmed ⟨d.digits / 10, d.exponent + 1⟩ n
    else d

/-- The positional notation of a decimal. -/
def Decimal.positional (d : Decimal) : Text :=
  let t := d.trimmed (-d.exponent).toNat
  let ds := Text.ofNat t.digits
  if 0 ≤ t.exponent then ds ++ List.replicate t.exponent.toNat (Text.digit 0)
  else
    let places := (-t.exponent).toNat
    let padded := List.replicate (places + 1 - ds.length) (Text.digit 0) ++ ds
    padded.take (padded.length - places) ++ (0x2e :: padded.drop (padded.length - places))

/-- The text of a number. -/
def text (x : Float) : Text :=
  let unsigned : Text :=
    if (magnitude x).mantissa = 0 then Text.ofString "0"
    else (shortest (magnitude x)).positional
  if exponentField x = 2047 then
    if mantissaField x = 0 then Text.ofString (if signBit x then "-Inf" else "+Inf")
    else Text.ofString "NaN"
  else if signBit x then 0x2d :: unsigned
  else unsigned

end Dynascope.Number
