import Dynascope.Proofs.Number.Decimal
import Mathlib.Order.Monotone.Basic
import Mathlib.Tactic.Positivity

/-!
# Intervals of rounding

The values that round to a number form an interval, and the intervals of neighbouring numbers meet
in one point, which belongs to the one with the even mantissa. So a value rounds to one number only.
The decimal that stands for a number rounds to it.

* `Interval.Holds`: a value lies in an interval.
* `magnitudeOf`: the magnitude with given bits; `boundary`: the upper end of its interval.
* `low_magnitudeOf`: the lower end is the upper end of the number before.
* `Interval.Holds.unique`: a value lies in the interval of one number.
* `shortest_holds`: the decimal for a number lies in its interval.
-/

namespace Dynascope.Number

/-- A power with an integer exponent as a fraction of powers with natural ones. -/
theorem zpow_mul_toNat {b : ℚ} (hb : b ≠ 0) (e : Int) : b ^ e * b ^ (-e).toNat = b ^ e.toNat := by
  rw [← zpow_natCast, ← zpow_natCast, ← zpow_add₀ hb]
  congr 1
  omega

/-! ## Values in an interval -/

/-- A value lies in the interval. -/
def Interval.Holds (i : Interval) (q : ℚ) : Prop :=
  if i.closed then i.low ≤ q * i.den ∧ q * i.den ≤ i.high
  else i.low < q * i.den ∧ q * i.den < i.high

/-- The numerator and the denominator of a decimal are those of its value. -/
theorem Decimal.value_mul_ratio (d : Decimal) : d.value * d.ratio.2 = d.ratio.1 := by
  simp only [value, ratio, Nat.pow_eq]
  push_cast
  rw [mul_assoc, zpow_mul_toNat (by norm_num)]

namespace Interval

variable {i : Interval} {q : ℚ}

theorem Holds.le (h : i.Holds q) : i.low ≤ q * i.den ∧ q * i.den ≤ i.high := by
  unfold Holds at h
  split at h
  · exact h
  · exact ⟨h.1.le, h.2.le⟩

/-- The ends belong to the interval only if it is closed. -/
theorem Holds.closed (h : i.Holds q) (hq : q * i.den = i.low ∨ q * i.den = i.high) :
    i.closed = true := by
  unfold Holds at h
  split at h
  · assumption
  · rcases hq with hq | hq
    · exact absurd h.1 (by rw [hq]; exact lt_irrefl _)
    · exact absurd h.2 (by rw [hq]; exact lt_irrefl _)

theorem Holds.of_lt (h : i.low < q * i.den) (h' : q * i.den < i.high) : i.Holds q := by
  unfold Holds
  split
  · exact ⟨h.le, h'.le⟩
  · exact ⟨h, h'⟩

/-- The test for a decimal, which avoids fractions, is about its value. -/
theorem admits_iff (i : Interval) (d : Decimal) : i.admits d = true ↔ i.Holds d.value := by
  have hden : (0 : ℚ) < d.ratio.2 := by
    have : 0 < d.ratio.2 := Nat.pow_pos (by decide)
    exact_mod_cast this
  have hratio : ((d.ratio.1 * i.den : ℕ) : ℚ) = d.value * i.den * d.ratio.2 := by
    push_cast
    rw [← d.value_mul_ratio]
    ring
  have hle : ∀ n : ℕ, n * d.ratio.2 ≤ d.ratio.1 * i.den ↔ (n : ℚ) ≤ d.value * i.den := by
    intro n
    rw [← Nat.cast_le (α := ℚ), hratio, Nat.cast_mul, mul_le_mul_iff_left₀ hden]
  have hge : ∀ n : ℕ, d.ratio.1 * i.den ≤ n * d.ratio.2 ↔ d.value * i.den ≤ (n : ℚ) := by
    intro n
    rw [← Nat.cast_le (α := ℚ), hratio, Nat.cast_mul, mul_le_mul_iff_left₀ hden]
  unfold admits contains Holds
  split
  · simp only [Bool.and_eq_true, decide_eq_true_eq, hle, hge]
  · simp only [Bool.and_eq_true, decide_eq_true_eq, ← Nat.not_le, hle, hge, not_le]

end Interval

/-! ## The interval of a magnitude -/

/-- The value of a magnitude. -/
def Magnitude.value (v : Magnitude) : ℚ :=
  v.mantissa * 2 ^ v.exponent

/-- The neighbour below is nearer than the one above. -/
def Magnitude.narrow (v : Magnitude) : Bool :=
  v.mantissa == 1 <<< mantissaBits && leastExponent < v.exponent

namespace Magnitude

variable (v : Magnitude)

theorem interval_den_pos : (0 : ℚ) < v.interval.den := by
  have : 0 < v.interval.den := by
    show 0 < 4 <<< (-v.exponent).toNat
    rw [Nat.shiftLeft_eq]
    positivity
  exact_mod_cast this

/-- The unit of the ends of the interval is a quarter of the last place. -/
theorem unit_eq : ((2 ^ v.exponent.toNat : ℕ) : ℚ) = 2 ^ v.exponent / 4 * v.interval.den := by
  have hden : (v.interval.den : ℚ) = 4 * 2 ^ (-v.exponent).toNat := by
    show ((4 <<< (-v.exponent).toNat : ℕ) : ℚ) = _
    rw [Nat.shiftLeft_eq]
    push_cast
    rfl
  rw [hden]
  push_cast
  rw [← zpow_mul_toNat (by norm_num) v.exponent]
  ring

theorem interval_mid : (v.interval.mid : ℚ) = v.value * v.interval.den := by
  have hmid : v.interval.mid = v.mantissa * (4 * 2 ^ v.exponent.toNat) := by
    show v.mantissa * 4 <<< v.exponent.toNat = _
    rw [Nat.shiftLeft_eq]
  rw [hmid, Nat.cast_mul, Nat.cast_mul, unit_eq, value]
  push_cast
  ring

theorem interval_high :
    (v.interval.high : ℚ) = (v.mantissa + 1 / 2) * 2 ^ v.exponent * v.interval.den := by
  have hhigh : v.interval.high = (4 * v.mantissa + 2) * 2 ^ v.exponent.toNat := by
    show v.mantissa * 4 <<< v.exponent.toNat + 4 <<< v.exponent.toNat / 2 = _
    rw [Nat.shiftLeft_eq, show 4 * 2 ^ v.exponent.toNat / 2 = 2 * 2 ^ v.exponent.toNat by omega]
    ring
  rw [hhigh, Nat.cast_mul, unit_eq]
  push_cast
  ring

theorem interval_low (h : 0 < v.mantissa) : (v.interval.low : ℚ) =
    (v.mantissa - if v.narrow then 1 / 4 else 1 / 2) * 2 ^ v.exponent * v.interval.den := by
  have hlow : v.interval.low = (4 * v.mantissa - if v.narrow then 1 else 2) *
      2 ^ v.exponent.toNat := by
    show (if v.narrow then v.mantissa * 4 <<< v.exponent.toNat - 4 <<< v.exponent.toNat / 4
      else v.mantissa * 4 <<< v.exponent.toNat - 4 <<< v.exponent.toNat / 2) = _
    rw [Nat.shiftLeft_eq]
    generalize 2 ^ v.exponent.toNat = u
    split
    · rw [Nat.sub_mul, show 4 * u / 4 = u by omega, Nat.one_mul]
      congr 1
      ring
    · rw [Nat.sub_mul, show 4 * u / 2 = 2 * u by omega]
      congr 1
      ring
  rw [hlow, Nat.cast_mul, unit_eq]
  split
  · rw [Nat.cast_sub (by omega)]
    push_cast
    ring
  · rw [Nat.cast_sub (by omega)]
    push_cast
    ring

end Magnitude


/-! ## Neighbours -/

/-- The magnitude with the given bits. -/
def magnitudeOf (n : Nat) : Magnitude :=
  ⟨n - (n / 2 ^ 52 - 1) * 2 ^ 52, leastExponent + (n / 2 ^ 52 - 1 : ℕ)⟩

/-- The upper end of the values that round to the number with the given bits. -/
def boundary (n : Nat) : ℚ :=
  ((magnitudeOf n).mantissa + 1 / 2) * 2 ^ (magnitudeOf n).exponent

theorem magnitudeOf_mantissa_pos {n : Nat} (h : 0 < n) : 0 < (magnitudeOf n).mantissa := by
  show 0 < n - (n / 2 ^ 52 - 1) * 2 ^ 52
  omega

theorem closed_magnitudeOf (n : Nat) : (magnitudeOf n).interval.closed = (n % 2 == 0) := by
  show ((n - (n / 2 ^ 52 - 1) * 2 ^ 52) % 2 == 0) = _
  congr 1
  omega

theorem high_magnitudeOf (n : Nat) :
    ((magnitudeOf n).interval.high : ℚ) = boundary n * (magnitudeOf n).interval.den :=
  (magnitudeOf n).interval_high

/-- The exponents of two neighbours are equal, unless the second is a power of two. -/
theorem magnitudeOf_succ (n : Nat) :
    (magnitudeOf (n + 1) = ⟨(magnitudeOf n).mantissa + 1, (magnitudeOf n).exponent⟩ ∧
      (magnitudeOf (n + 1)).narrow = false) ∨
    ((magnitudeOf n).mantissa + 1 = 2 ^ 53 ∧
      magnitudeOf (n + 1) = ⟨2 ^ 52, (magnitudeOf n).exponent + 1⟩) := by
  have hnarrow : ∀ v : Magnitude, v.narrow = false ↔
      (v.mantissa = 2 ^ 52 → v.exponent ≤ leastExponent) := by
    intro v
    simp [Magnitude.narrow, mantissaBits]
  by_cases hcarry : (n + 1) / 2 ^ 52 = n / 2 ^ 52 + 1 ∧ 0 < n / 2 ^ 52
  · right
    simp only [magnitudeOf, Magnitude.mk.injEq]
    omega
  · left
    rw [hnarrow]
    simp only [magnitudeOf, Magnitude.mk.injEq]
    omega

/-- The values that round to a number begin where those of the number before end. -/
theorem low_magnitudeOf (n : Nat) : ((magnitudeOf (n + 1)).interval.low : ℚ) =
    boundary n * (magnitudeOf (n + 1)).interval.den := by
  rw [Magnitude.interval_low _ (magnitudeOf_mantissa_pos n.succ_pos), boundary]
  congr 1
  rcases magnitudeOf_succ n with ⟨hnext, hnarrow⟩ | ⟨htop, hnext⟩
  · rw [hnarrow, hnext]
    push_cast
    ring
  · have hnarrow : (magnitudeOf (n + 1)).narrow = true := by
      have hexponent : leastExponent < (magnitudeOf n).exponent + 1 :=
        Int.lt_add_one_iff.mpr (Int.le_add_of_nonneg_right (Int.natCast_nonneg _))
      simp [hnext, Magnitude.narrow, mantissaBits, hexponent]
    have hmantissa : ((magnitudeOf n).mantissa : ℚ) = 2 ^ 53 - 1 := by
      rw [eq_sub_iff_add_eq]
      exact_mod_cast htop
    rw [hnarrow, if_pos rfl, hnext, hmantissa, zpow_add_one₀ (by norm_num)]
    push_cast
    ring

theorem boundary_strictMono : StrictMono boundary := by
  refine strictMono_nat_of_lt_succ fun n => ?_
  have hlow := low_magnitudeOf n
  rw [Magnitude.interval_low _ (magnitudeOf_mantissa_pos n.succ_pos)] at hlow
  rw [← mul_right_cancel₀ (Magnitude.interval_den_pos _).ne' hlow, boundary]
  refine mul_lt_mul_of_pos_right ?_ (zpow_pos (by norm_num) _)
  split <;> linarith

/-- The values that round to two different numbers are in order, and the intervals share no value:
a common end would belong to two neighbours with even mantissas. -/
theorem not_holds_of_lt {i j : Nat} (hlt : i < j) {q : ℚ}
    (hi : (magnitudeOf i).interval.Holds q) (hj : (magnitudeOf j).interval.Holds q) : False := by
  obtain ⟨j, rfl⟩ := Nat.exists_eq_add_of_lt hlt
  set k := i + j with hk
  have hupper : q ≤ boundary i := by
    have h := hi.le.2
    rw [high_magnitudeOf] at h
    exact le_of_mul_le_mul_right h (Magnitude.interval_den_pos _)
  have hlower : boundary k ≤ q := by
    have h := hj.le.1
    rw [low_magnitudeOf] at h
    exact le_of_mul_le_mul_right h (Magnitude.interval_den_pos _)
  have hsame : i = k :=
    le_antisymm (by omega) (boundary_strictMono.le_iff_le.mp (hlower.trans hupper))
  have hq : q = boundary i := le_antisymm hupper (hsame ▸ hlower)
  have hi' := hi.closed (.inr (by rw [hq, high_magnitudeOf]))
  have hj' := hj.closed (.inl (by rw [hq, low_magnitudeOf, hsame]))
  rw [closed_magnitudeOf, beq_iff_eq] at hi' hj'
  omega

/-- **A value rounds to one number.** -/
theorem Interval.Holds.unique {i j : Nat} {q : ℚ} (hi : (magnitudeOf i).interval.Holds q)
    (hj : (magnitudeOf j).interval.Holds q) : i = j := by
  rcases Nat.lt_trichotomy i j with h | h | h
  · exact (not_holds_of_lt h hi hj).elim
  · exact h
  · exact (not_holds_of_lt h hj hi).elim

/-! ## The decimal of a number -/

/-- Powers of ten and of two, by `10 ^ 3 ≤ 2 ^ 10` above one and `2 ^ 33 ≤ 10 ^ 10` below it. -/
theorem ten_zpow_le {e f : Int} (habove : 0 ≤ e → 10 * e + 4 ≤ 3 * f)
    (hbelow : e < 0 → 33 * e + 27 ≤ 10 * f) : (10 : ℚ) ^ e ≤ 2 ^ f := by
  rcases Int.lt_or_le e 0 with he | he
  · obtain ⟨p, rfl⟩ := Int.eq_negSucc_of_lt_zero he
    have hsplit : p + 1 = 10 * ((p + 1) / 10) + (p + 1) % 10 := by omega
    have hpow : (2 : ℚ) ^ (33 * ((p + 1) / 10) + 3 * ((p + 1) % 10)) ≤ 10 ^ (p + 1) := by
      conv_rhs => rw [hsplit]
      rw [pow_add, pow_mul, pow_mul, pow_add, pow_mul 10 10]
      gcongr <;> norm_num
    rw [zpow_negSucc]
    refine inv_le_of_inv_le₀ (zpow_pos (by norm_num) _) ?_
    rw [← zpow_neg]
    refine le_trans ?_ hpow
    rw [← zpow_natCast]
    exact zpow_le_zpow_right₀ (by norm_num) (by have := hbelow he; omega)
  · obtain ⟨n, rfl⟩ := Int.eq_ofNat_of_zero_le he
    have hsplit : n = 3 * (n / 3) + n % 3 := by omega
    have hpow : (10 : ℚ) ^ n ≤ 2 ^ (10 * (n / 3) + 4 * (n % 3)) := by
      conv_lhs => rw [hsplit]
      rw [pow_add, pow_mul, pow_add, pow_mul 2 10, pow_mul 2 4]
      gcongr <;> norm_num
    rw [zpow_natCast]
    refine hpow.trans ?_
    rw [← zpow_natCast]
    exact zpow_le_zpow_right₀ (by norm_num) (by have := habove he; omega)

/-- On a grid that is fine enough, the next decimal below a value rounds to it. -/
theorem Magnitude.admits_below {v : Magnitude} (hv : 0 < v.mantissa) {e : Int}
    (he : (10 : ℚ) ^ e ≤ 2 ^ (v.exponent - 2)) :
    v.interval.admits ⟨v.interval.mid * Nat.pow 10 (-e).toNat / (v.interval.den *
      Nat.pow 10 e.toNat), e⟩ = true := by
  have hpos := v.interval_den_pos
  have hten : (0 : ℚ) < 10 ^ e := zpow_pos (by norm_num) _
  have hunit : (2 : ℚ) ^ (v.exponent - 2) = 2 ^ v.exponent / 4 := by
    rw [zpow_sub₀ (by norm_num)]
    norm_num
  set num := v.interval.mid * Nat.pow 10 (-e).toNat with hnum
  set den := v.interval.den * Nat.pow 10 e.toNat with hden
  have hden_pos : (0 : ℚ) < den := by
    rw [hden, Nat.cast_mul, Nat.pow_eq]
    positivity
  have hratio : (num : ℚ) * 10 ^ e = v.value * den := by
    rw [hnum, hden, Nat.cast_mul, Nat.cast_mul, v.interval_mid, Nat.pow_eq, Nat.pow_eq]
    push_cast
    rw [← zpow_mul_toNat (by norm_num) e]
    ring
  -- the decimal is at most a step of the grid below the value
  have hlower : v.value < ((num / den : ℕ) + 1) * 10 ^ e := by
    refine lt_of_mul_lt_mul_right ?_ hden_pos.le
    have h : (num : ℚ) < den * ((num / den : ℕ) + 1) := by
      exact_mod_cast Nat.lt_mul_div_succ num (by exact_mod_cast hden_pos)
    calc v.value * den = num * 10 ^ e := hratio.symm
      _ < den * ((num / den : ℕ) + 1) * 10 ^ e := mul_lt_mul_of_pos_right h hten
      _ = ((num / den : ℕ) + 1) * 10 ^ e * den := by ring
  have hupper : (num / den : ℕ) * 10 ^ e ≤ v.value := by
    refine le_of_mul_le_mul_right ?_ hden_pos
    have h : ((num / den : ℕ) : ℚ) * den ≤ num := by exact_mod_cast Nat.div_mul_le_self num den
    calc ((num / den : ℕ) : ℚ) * 10 ^ e * den = (num / den : ℕ) * den * 10 ^ e := by ring
      _ ≤ num * 10 ^ e := mul_le_mul_of_nonneg_right h hten.le
      _ = v.value * den := hratio
  have htwo : (0 : ℚ) < 2 ^ v.exponent := zpow_pos (by norm_num) _
  rw [Interval.admits_iff]
  apply Interval.Holds.of_lt
  · rw [v.interval_low hv]
    refine mul_lt_mul_of_pos_right ?_ hpos
    unfold Magnitude.value at hlower hupper
    unfold Decimal.value
    split <;> linarith
  · rw [v.interval_high]
    refine mul_lt_mul_of_pos_right ?_ hpos
    unfold Magnitude.value at hlower hupper
    unfold Decimal.value
    linarith

theorem Interval.admits_of_onGrid {i : Interval} {e : Int} {d : Decimal}
    (h : i.onGrid? e = some d) : i.admits d = true := by
  unfold onGrid? at h
  dsimp only at h
  split at h
  next hd => exact Option.some.inj h ▸ hd
  next =>
    split at h
    next hd => exact Option.some.inj h ▸ hd
    next =>
      split at h
      next hd => exact Option.some.inj h ▸ hd
      next => cases h

/-- A search that reaches a grid with a decimal of the interval finds one. -/
theorem Interval.search_admits {i : Interval} {top : Int} {grids n : Nat} (hn : n < grids)
    (h : (i.onGrid? (top - n)).isSome) : i.admits (i.search top grids) = true := by
  induction grids generalizing top n with
  | zero => cases hn
  | succ grids ih =>
    rw [search]
    split
    next d hd => exact admits_of_onGrid hd
    next hnone =>
      cases n with
      | zero => simp [hnone] at h
      | succ n =>
        refine ih (Nat.lt_of_succ_lt_succ hn) ?_
        rwa [show top - 1 - (n : Int) = top - (n + 1 : ℕ) by omega]

theorem Magnitude.onGrid_isSome {v : Magnitude} (hv : 0 < v.mantissa) {e : Int}
    (he : (10 : ℚ) ^ e ≤ 2 ^ (v.exponent - 2)) : (v.interval.onGrid? e).isSome := by
  unfold Interval.onGrid?
  dsimp only
  split
  next => rfl
  next => rw [if_pos (admits_below hv he)]; rfl

/-- **The decimal of a number rounds to it.** The last grid is finer than a quarter of the last
place of the number. -/
theorem shortest_holds {v : Magnitude} (hv : 0 < v.mantissa) (hmax : v.mantissa < 2 ^ 53)
    (hleast : leastExponent ≤ v.exponent) (hgreatest : v.exponent ≤ 971) :
    v.interval.Holds (shortest v).value := by
  have hlog : v.mantissa.log2 < 53 := (Nat.log2_lt hv.ne').mpr hmax
  rw [← Interval.admits_iff]
  refine Interval.search_admits (n := 23) (by decide) (Magnitude.onGrid_isSome hv ?_)
  unfold leastExponent at hleast
  unfold decimalWidth
  apply ten_zpow_le <;> intro <;> omega

end Dynascope.Number
