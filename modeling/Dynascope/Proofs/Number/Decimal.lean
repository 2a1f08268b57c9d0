import Dynascope.Number.Shortest
import Mathlib.Algebra.Order.Field.Power
import Mathlib.Data.List.TakeWhile
import Mathlib.Data.Rat.Cast.Order
import Mathlib.Tactic.FieldSimp
import Mathlib.Tactic.Linarith
import Mathlib.Tactic.Ring

/-!
# Positional notation

The positional notation of a decimal says its value, whatever its digits and its exponent are.

* `Decimal.value`: `digits * 10 ^ exponent` as a fraction.
* `positionalValue`: the value that digits with an optional point denote.
* `Positional`: digits and points, with a digit at the front.
* `Decimal.positional_spec`: the notation of a decimal is of that form and denotes its value.
-/

namespace Dynascope

/-! ## Digits -/

namespace Text

theorem foldl_digits (n : Nat) (ds : Text) : ds.foldl (fun n d => n * 10 + digitValue d) n =
    n * 10 ^ ds.length + natOfDigits ds := by
  induction ds generalizing n with
  | nil => simp [natOfDigits]
  | cons d ds ih =>
    rw [natOfDigits, List.foldl_cons, List.foldl_cons, ih, ih (0 * 10 + digitValue d),
      List.length_cons, Nat.pow_succ]
    ring

theorem natOfDigits_append (ds es : Text) :
    natOfDigits (ds ++ es) = natOfDigits ds * 10 ^ es.length + natOfDigits es := by
  rw [natOfDigits, List.foldl_append, foldl_digits]
  rfl

theorem natOfDigits_zeros (n : Nat) : natOfDigits (List.replicate n (digit 0)) = 0 := by
  induction n with
  | zero => rfl
  | succ n ih =>
    rw [List.replicate_succ, ← List.singleton_append, natOfDigits_append, ih]
    simp [natOfDigits, digitValue, digit]

/-- A digit as a character and as a byte. -/
theorem digit_of_isDigit {c : Char} (h : c.isDigit = true) :
    isDigit c.toUInt8 = true ∧ digitValue c.toUInt8 = c.toNat - '0'.toNat := by
  have hvalue : c.toUInt8.toNat = c.toNat % 256 := rfl
  obtain ⟨hlow, hhigh⟩ := Char.isDigit_iff_toNat.mp h
  simp only [Char.reduceToNat] at hlow hhigh ⊢
  simp only [isDigit, digitValue, Bool.and_eq_true, decide_eq_true_eq, UInt8.le_iff_toNat_le,
    UInt8.reduceToNat, hvalue]
  omega

theorem isDigit_of_mem_ofNat {n : Nat} {d : UInt8} (h : d ∈ ofNat n) : isDigit d = true := by
  obtain ⟨c, hc, rfl⟩ := List.mem_map.mp h
  exact (digit_of_isDigit (Nat.isDigit_of_mem_toDigits (by decide) (by decide) hc)).1

theorem natOfDigits_ofNat (n : Nat) : natOfDigits (ofNat n) = n := by
  have h : ∀ (cs : List Char) (k : Nat), (∀ c ∈ cs, c.isDigit = true) →
      (cs.map Char.toUInt8).foldl (fun n d => n * 10 + digitValue d) k =
        Nat.ofDigitChars 10 cs k := by
    intro cs
    induction cs with
    | nil => exact fun _ _ => rfl
    | cons c cs ih =>
      intro k hcs
      obtain ⟨hc, hrest⟩ := List.forall_mem_cons.mp hcs
      rw [List.map_cons, List.foldl_cons, (digit_of_isDigit hc).2, ih _ hrest, Nat.mul_comm]
      rfl
  have hdigits := h (Nat.toDigits 10 n) 0 fun c hc =>
    Nat.isDigit_of_mem_toDigits (by decide) (by decide) hc
  exact hdigits.trans (Nat.ofDigitChars_toDigits (by decide) (by decide))

theorem ofNat_ne_nil (n : Nat) : ofNat n ≠ [] := by
  simp [ofNat, Nat.toDigits_ne_nil]

end Text

namespace Number

open Text

/-! ## Values -/

/-- The value of a decimal. -/
def Decimal.value (d : Decimal) : ℚ :=
  d.digits * 10 ^ d.exponent

/-- The value that digits with an optional point denote. -/
def positionalValue (t : Text) : ℚ :=
  let fraction := (t.dropWhile isDigit).drop 1
  natOfDigits (t.takeWhile isDigit ++ fraction) / 10 ^ fraction.length

theorem Decimal.value_trimmed (d : Decimal) (fuel : Nat) : (d.trimmed fuel).value = d.value := by
  induction fuel generalizing d with
  | zero => rfl
  | succ n ih =>
    rw [Decimal.trimmed]
    split
    next h =>
      simp only [Bool.and_eq_true, beq_iff_eq] at h
      have hdigits : (d.digits : ℚ) = 10 * (d.digits / 10 : ℕ) := by
        exact_mod_cast (Nat.mul_div_cancel' (Nat.dvd_of_mod_eq_zero h.2)).symm
      rw [ih, Decimal.value, Decimal.value, hdigits, zpow_add_one₀ (by norm_num)]
      ring
    next => rfl

/-- Digits alone denote a whole number. -/
theorem positionalValue_whole {ds : Text} (h : ∀ d ∈ ds, isDigit d = true) :
    positionalValue ds = natOfDigits ds := by
  unfold positionalValue
  rw [List.takeWhile_eq_self_iff.mpr h, List.dropWhile_eq_nil_iff.mpr h]
  simp

/-- Digits with a point. -/
theorem positionalValue_point {ds fs : Text} (hds : ∀ d ∈ ds, isDigit d = true) :
    positionalValue (ds ++ 0x2e :: fs) = natOfDigits (ds ++ fs) / 10 ^ fs.length := by
  have hpoint : isDigit 0x2e = false := by decide
  unfold positionalValue
  rw [List.takeWhile_append_of_pos hds, List.dropWhile_append_of_pos hds,
    List.takeWhile_cons_of_neg (by simp [hpoint]), List.dropWhile_cons_of_neg (by simp [hpoint])]
  simp

/-! ## The notation of a decimal -/

/-- Digits and points, with a digit at the front. -/
structure Positional (t : Text) : Prop where
  head : t.head?.any isDigit = true
  bytes : ∀ b ∈ t, isDigit b = true ∨ b = 0x2e

theorem isDigit_zeros {n : Nat} : ∀ b ∈ List.replicate n (digit 0), isDigit b = true := by
  intro b hb
  rw [List.eq_of_mem_replicate hb]
  decide

theorem positional_whole {ds : Text} (h : ∀ d ∈ ds, isDigit d = true) (hne : ds ≠ []) :
    Positional ds := by
  obtain ⟨d, ds, rfl⟩ := List.exists_cons_of_ne_nil hne
  exact ⟨h d List.mem_cons_self, fun b hb => .inl (h b hb)⟩

/-- Digits are split by a point at some place before the end. -/
theorem positional_split {ds : Text} (h : ∀ d ∈ ds, isDigit d = true) {places : Nat}
    (hlt : places < ds.length) :
    let t := ds.take (ds.length - places) ++ 0x2e :: ds.drop (ds.length - places)
    Positional t ∧ positionalValue t = natOfDigits ds / 10 ^ places := by
  have hwhole : ∀ d ∈ ds.take (ds.length - places), isDigit d = true :=
    fun d hd => h d (List.mem_of_mem_take hd)
  have hfraction : ∀ d ∈ ds.drop (ds.length - places), isDigit d = true :=
    fun d hd => h d (List.mem_of_mem_drop hd)
  constructor
  · constructor
    · cases ds with
      | nil => cases hlt
      | cons d ds =>
        rw [List.length_cons] at hlt ⊢
        rw [Nat.succ_sub (by omega), List.take_succ_cons]
        exact h d List.mem_cons_self
    · intro b hb
      rcases List.mem_append.mp hb with hb | hb
      · exact .inl (hwhole b hb)
      · exact (List.mem_cons.mp hb).symm.imp_left (hfraction b)
  · rw [positionalValue_point hwhole, List.take_append_drop, List.length_drop]
    congr 2
    omega

theorem Decimal.positional_spec (d : Decimal) :
    Positional d.positional ∧ positionalValue d.positional = d.value := by
  unfold Decimal.positional
  rw [← d.value_trimmed (-d.exponent).toNat]
  generalize d.trimmed (-d.exponent).toNat = t
  have hdigits : ∀ b ∈ ofNat t.digits, isDigit b = true := fun b => isDigit_of_mem_ofNat
  dsimp only
  split
  next hexp =>
    have hall : ∀ b ∈ ofNat t.digits ++ List.replicate t.exponent.toNat (digit 0),
        isDigit b = true := List.forall_mem_append.mpr ⟨hdigits, isDigit_zeros⟩
    refine ⟨positional_whole hall (by simp [ofNat_ne_nil]), ?_⟩
    have hpow : (10 : ℚ) ^ t.exponent = 10 ^ t.exponent.toNat := by
      rw [← zpow_natCast, Int.toNat_of_nonneg hexp]
    rw [positionalValue_whole hall, natOfDigits_append, natOfDigits_zeros, natOfDigits_ofNat,
      List.length_replicate, Decimal.value, hpow]
    push_cast
    ring
  next hexp =>
    generalize hplaces : (-t.exponent).toNat = places
    have hall : ∀ b ∈ List.replicate (places + 1 - (ofNat t.digits).length) (digit 0) ++
        ofNat t.digits, isDigit b = true := List.forall_mem_append.mpr ⟨isDigit_zeros, hdigits⟩
    have hlength : places < (List.replicate (places + 1 - (ofNat t.digits).length) (digit 0) ++
        ofNat t.digits).length := by
      rw [List.length_append, List.length_replicate]
      omega
    obtain ⟨hpositional, hvalue⟩ := positional_split hall hlength
    refine ⟨hpositional, hvalue.trans ?_⟩
    have hpow : (10 : ℚ) ^ t.exponent = (10 ^ places)⁻¹ := by
      rw [← zpow_natCast, ← zpow_neg]
      congr 1
      omega
    rw [natOfDigits_append, natOfDigits_zeros, natOfDigits_ofNat, Decimal.value, hpow]
    push_cast
    ring

end Number

end Dynascope
