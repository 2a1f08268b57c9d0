/-!
# Exact values of numbers

Numbers are double-precision floats. A finite one is a whole multiple of a power of two.

* `Magnitude`: `mantissa * 2 ^ exponent`, the absolute value of a finite number.
* `magnitude`: the magnitude of a float, read off its bits.
* `nearestBits`: the bits of the float nearest to a ratio of naturals, a tie going to the even
  mantissa.
-/

namespace Dynascope.Number

/-- The absolute value `mantissa * 2 ^ exponent` of a finite number. -/
structure Magnitude where
  mantissa : Nat
  exponent : Int
  deriving Repr, DecidableEq

/-- The exponent of the smallest positive number. -/
def leastExponent : Int := -1074

/-- The number of bits below the exponent in the bits of a float. -/
def mantissaBits : Nat := 52

/-- The exponent field of a float: 0 for subnormal numbers, 2047 for infinities and NaN. -/
def exponentField (x : Float) : Nat :=
  x.toBits.toNat >>> mantissaBits % 2048

/-- The field below the exponent. -/
def mantissaField (x : Float) : Nat :=
  x.toBits.toNat % (1 <<< mantissaBits)

/-- Whether the sign bit of a float is set. -/
def signBit (x : Float) : Bool :=
  x.toBits.toNat >>> 63 == 1

/-- The magnitude of a finite float. -/
def magnitude (x : Float) : Magnitude :=
  match exponentField x with
  | 0 => ⟨mantissaField x, leastExponent⟩
  | e + 1 => ⟨1 <<< mantissaBits + mantissaField x, leastExponent + e⟩

/-- The quotient of two naturals rounded to the nearest natural, a tie going to the even one. -/
def roundDiv (num den : Nat) : Nat :=
  let q := num / den
  let r := num % den
  if den < 2 * r || (2 * r == den && q % 2 == 1) then q + 1 else q

/-- The floor of the binary logarithm of the positive ratio `num / den`. -/
def log2Ratio (num den : Nat) : Int :=
  let e : Int := (num.log2 : Int) - den.log2
  if den <<< e.toNat ≤ num <<< (-e).toNat then e else e - 1

/-- The bits of the float nearest to `num / den`, or none if that is above the largest float. The
carry of a mantissa that rounds up to a power of two goes into the exponent. -/
def nearestBits? (num den : Nat) : Option UInt64 :=
  if num = 0 then some 0
  else
    let q := max (log2Ratio num den - mantissaBits) leastExponent
    let m := roundDiv (num <<< (-q).toNat) (den <<< q.toNat)
    let bits := (q - leastExponent).toNat <<< mantissaBits + m
    if bits < 2047 <<< mantissaBits then some bits.toUInt64 else none

/-- The float nearest to `num / den`, or none if that is above the largest float. -/
def nearest? (num den : Nat) : Option Float :=
  (nearestBits? num den).map Float.ofBits

/-- A float with the sign bit set if asked for. -/
def withSign (negative : Bool) (x : Float) : Float :=
  if negative then -x else x

/-- The positive infinity. -/
def infinity : Float :=
  Float.ofBits 0x7ff0000000000000

/-- The number that is no number. -/
def notANumber : Float :=
  Float.ofBits 0x7ff8000000000001

end Dynascope.Number
