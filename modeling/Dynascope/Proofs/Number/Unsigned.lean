import Dynascope.Proofs.Number.Rounding

/-!
# Texts of numbers

The text of a number that is finite and not negative is in positional notation, and it is the text
of no other one.

* `Unsigned`: finite and not negative.
* `text_spec`: the text of a number denotes a decimal that rounds to it.
* `text_inj`: different numbers have different texts.
-/

namespace Dynascope.Number

/-- Finite and not negative: the sign bit is clear, and the exponent is not that of infinities. -/
def Unsigned (x : Float) : Prop :=
  x.toBits.toNat < 2047 <<< mantissaBits

theorem magnitude_eq {x : Float} (h : Unsigned x) : magnitude x = magnitudeOf x.toBits.toNat := by
  unfold magnitude exponentField mantissaField magnitudeOf
  unfold Unsigned at h
  generalize x.toBits.toNat = n at h ⊢
  simp only [mantissaBits, Nat.shiftLeft_eq, Nat.shiftRight_eq_div_pow] at h ⊢
  split <;> simp only [Magnitude.mk.injEq] <;> omega

theorem exponentField_ne {x : Float} (h : Unsigned x) : exponentField x ≠ 2047 := by
  unfold exponentField
  unfold Unsigned at h
  simp only [mantissaBits, Nat.shiftLeft_eq, Nat.shiftRight_eq_div_pow] at h ⊢
  omega

theorem signBit_eq {x : Float} (h : Unsigned x) : signBit x = false := by
  unfold signBit
  unfold Unsigned at h
  simp only [mantissaBits, Nat.shiftLeft_eq, Nat.shiftRight_eq_div_pow, beq_eq_false_iff_ne] at h ⊢
  omega

/-- The decimal of a positive number rounds to it. -/
theorem shortest_magnitudeOf {n : Nat} (hpos : 0 < n) (h : n < 2047 <<< mantissaBits) :
    (magnitudeOf n).interval.Holds (shortest (magnitudeOf n)).value := by
  have hbounds : (magnitudeOf n).mantissa < 2 ^ 53 ∧ leastExponent ≤ (magnitudeOf n).exponent ∧
      (magnitudeOf n).exponent ≤ 971 := by
    simp only [mantissaBits, Nat.shiftLeft_eq] at h
    simp only [magnitudeOf, leastExponent]
    omega
  exact shortest_holds (magnitudeOf_mantissa_pos hpos) hbounds.1 hbounds.2.1 hbounds.2.2

/-- The text of a number is the positional notation of a decimal that rounds to it. -/
theorem text_spec {x : Float} (h : Unsigned x) :
    Positional (text x) ∧
      (magnitudeOf x.toBits.toNat).interval.Holds (positionalValue (text x)) := by
  unfold text
  dsimp only
  rw [if_neg (exponentField_ne h), signBit_eq h, magnitude_eq h]
  simp only [Bool.false_eq_true, if_false]
  unfold Unsigned at h
  generalize x.toBits.toNat = n at h ⊢
  split
  next hzero =>
    obtain rfl : n = 0 := by
      have := mt (magnitudeOf_mantissa_pos (n := n)) (by omega)
      omega
    have hbytes : Text.ofString "0" = (Decimal.mk 0 0).positional := by decide +kernel
    obtain ⟨hform, hvalue⟩ := (Decimal.mk 0 0).positional_spec
    rw [hbytes, hvalue, ← Interval.admits_iff]
    exact ⟨hform, by decide +kernel⟩
  next hpos =>
    obtain ⟨hform, hvalue⟩ := (shortest (magnitudeOf n)).positional_spec
    rw [hvalue]
    refine ⟨hform, shortest_magnitudeOf ?_ h⟩
    exact Nat.pos_of_ne_zero fun hn => hpos (by rw [hn]; rfl)

/-- **Different numbers have different texts.** -/
theorem text_inj {x y : Float} (hx : Unsigned x) (hy : Unsigned y) (h : text x = text y) :
    x = y := by
  have hholds := (text_spec hy).2
  rw [← h] at hholds
  have hbits : x.toBits = y.toBits := UInt64.toNat_inj.mp ((text_spec hx).2.unique hholds)
  obtain ⟨⟨bits, _⟩⟩ := x
  obtain ⟨⟨bits', _⟩⟩ := y
  obtain rfl : bits = bits' := hbits
  rfl

end Dynascope.Number
