import Dynascope.Proofs.Number.Numeral
import Dynascope.Proofs.Number.Unsigned
import Mathlib

/-!
# Values of numerals

The numbers that a source can write down are finite and not negative.

* `toBits_ofBits`: a float keeps the bits that it is made of, unless they are those of infinities or
  of no number.
* `unsigned_of_read`: the value of a numeral is finite and not negative.
-/

namespace Dynascope.Number

open Float.Model UnpackedFloat in
theorem toBits_ofBits {b : UInt64} (h : b.toNat < 2047 <<< mantissaBits) :
    (Float.ofBits b).toBits = b := by
  have hexponent : @unpackExponent Format.binary64 b.toBitVec ≠ -1#11 := by
    intro heq
    have hfield : b.toNat >>> 52 % 2 ^ 11 = 2047 := by
      simpa [unpackExponent_def] using congrArg BitVec.toNat heq
    rw [Nat.shiftRight_eq_div_pow] at hfield
    unfold mantissaBits at h
    omega
  have hnumber : @isNaNBits Format.binary64 b.toBitVec = false :=
    decide_eq_false fun hnan => hexponent hnan.1
  have hpack := @pack_unpack Format.binary64 b.toBitVec (by decide)
  rw [hnumber] at hpack
  exact UInt64.toBitVec_inj.mp hpack

theorem unsigned_ofBits {b : UInt64} (h : b.toNat < 2047 <<< mantissaBits) :
    Unsigned (Float.ofBits b) := by
  rw [Unsigned, toBits_ofBits h]
  exact h

theorem unsigned_of_nearest {num den : Nat} {x : Float} (h : nearest? num den = some x) :
    Unsigned x := by
  obtain ⟨b, hb, rfl⟩ := Option.map_eq_some_iff.mp h
  apply unsigned_ofBits
  unfold nearestBits? at hb
  dsimp only at hb
  split at hb
  next => cases hb; decide
  next =>
    split at hb
    next hlt =>
      cases hb
      rw [Nat.toUInt64, UInt64.toNat_ofNat']
      exact lt_of_le_of_lt (Nat.mod_le _ _) hlt
    next => cases hb

theorem unsigned_of_readScaled {mantissa base : Nat} {exponent : Int} {x : Float}
    (h : readScaled false mantissa base exponent = .number x) : Unsigned x := by
  unfold readScaled at h
  split at h
  next =>
    cases h
    show (0 : Float).toBits.toNat < _
    decide +kernel
  next =>
    split at h
    next y hy =>
      cases h
      exact unsigned_of_nearest hy
    next => cases h

/-- The value of a numeral is finite and not negative. -/
theorem unsigned_of_read {w : Text} (hw : w ∈ Pattern.numeral.language) {x : Float}
    (h : read w = .number x) : Unsigned x := by
  obtain ⟨-, -, -, -, hread⟩ := numeral_digits hw
  rw [hread] at h
  unfold readUnsigned at h
  dsimp only at h
  split at h
  next => cases h
  next =>
    split at h
    next => cases h
    next => exact unsigned_of_readScaled h

end Dynascope.Number
