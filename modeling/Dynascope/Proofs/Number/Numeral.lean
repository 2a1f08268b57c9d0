import Dynascope.Number.Reader
import Dynascope.Proofs.Token.Pattern

/-!
# Numerals of a source

* `Number.read_eq_readUnsigned`: digits and points are read as they stand.
* `Number.read_ne_malformed`: a numeral of the language has a value or is out of range.
-/

namespace Dynascope.Number

theorem isDigitIn_false : isDigitIn false = Text.isDigit := by
  funext b
  simp [isDigitIn]

theorem underscoresOk_of_forall_ne {hexadecimal afterDigit : Bool} {t : Text}
    (h : ∀ b ∈ t, b ≠ 0x5f) : underscoresOk hexadecimal afterDigit t = true := by
  induction t generalizing afterDigit with
  | nil => rfl
  | cons b t ih =>
    rw [List.forall_mem_cons] at h
    rw [underscoresOk, if_neg h.1]
    exact ih h.2

theorem readScaled_ne_malformed (negative : Bool) (mantissa base : Nat) (exponent : Int) :
    readScaled negative mantissa base exponent ≠ .malformed := by
  unfold readScaled
  split
  next => nofun
  next => split <;> nofun

/-- Digits, with a point and digits after them or without, are taken as a mantissa. -/
theorem takeMantissa_digits {ds fs : Text} (hds : ∀ d ∈ ds, Text.isDigit d = true)
    (hfs : ∀ d ∈ fs, Text.isDigit d = true) :
    takeMantissa false ds = (ds, [], []) ∧
      takeMantissa false (ds ++ 0x2e :: fs) = (ds, fs, []) := by
  have hpoint : Text.isDigit 0x2e = false := by decide
  have htake : (ds ++ 0x2e :: fs).takeWhile Text.isDigit = ds := by
    rw [List.takeWhile_append_of_pos hds, List.takeWhile_cons_of_neg (by simp [hpoint]),
      List.append_nil]
  have hdrop : (ds ++ 0x2e :: fs).dropWhile Text.isDigit = 0x2e :: fs := by
    rw [List.dropWhile_append_of_pos hds, List.dropWhile_cons_of_neg (by simp [hpoint])]
  unfold takeMantissa
  rw [isDigitIn_false, htake, hdrop, List.takeWhile_eq_self_iff.mpr hds,
    List.dropWhile_eq_nil_iff.mpr hds]
  refine ⟨rfl, ?_⟩
  show (ds, fs.takeWhile Text.isDigit, fs.dropWhile Text.isDigit) = (ds, fs, [])
  rw [List.takeWhile_eq_self_iff.mpr hfs, List.dropWhile_eq_nil_iff.mpr hfs]

theorem readUnsigned_ne_malformed {t whole fraction : Text} (hne : whole ≠ [])
    (h : takeMantissa false t = (whole, fraction, [])) :
    readUnsigned false false t ≠ .malformed := by
  unfold readUnsigned
  rw [h]
  simp only [List.append_eq_nil_iff, hne, false_and, decide_false, Bool.false_and, Bool.or_false,
    Bool.false_eq_true, if_false, readExponent?]
  exact readScaled_ne_malformed _ _ _ _

theorem lower_digit {b : UInt8} (h : Text.isDigit b = true ∨ b = 0x2e) : lower b = b := by
  unfold lower
  rw [if_neg]
  rcases h with h | rfl
  · simp only [Text.isDigit, Bool.and_eq_true, decide_eq_true_eq, UInt8.le_iff_toNat_le,
      UInt8.reduceToNat] at h ⊢
    omega
  · decide

/-- The reading of a text of digits and points that starts with a digit. -/
theorem read_eq_readUnsigned {a : UInt8} {w : Text} (ha : Text.isDigit a = true)
    (hw : ∀ b ∈ w, Text.isDigit b = true ∨ b = 0x2e) :
    read (a :: w) = readUnsigned false false (a :: w) := by
  have hall : ∀ b ∈ a :: w, Text.isDigit b = true ∨ b = 0x2e :=
    List.forall_mem_cons.mpr ⟨.inl ha, hw⟩
  have hlower : (a :: w).map lower = a :: w :=
    List.map_congr_left (fun b hb => lower_digit (hall b hb)) |>.trans (List.map_id _)
  have hsign : takeSign (a :: w) = (false, a :: w) := by
    unfold takeSign
    split
    next heq => cases heq; cases ha
    next heq => cases heq; cases ha
    next => rfl
  have hname : ∀ b u, Text.isDigit b = false → a :: w ≠ b :: u := by
    rintro b u hb heq
    obtain ⟨rfl, -⟩ := List.cons.inj heq
    rw [ha] at hb
    cases hb
  have hinf : a :: w ≠ Text.ofString "inf" := hname 0x69 [0x6e, 0x66] (by decide)
  have hinfinity : a :: w ≠ Text.ofString "infinity" :=
    hname 0x69 [0x6e, 0x66, 0x69, 0x6e, 0x69, 0x74, 0x79] (by decide)
  have hnan : a :: w ≠ Text.ofString "nan" := hname 0x6e [0x61, 0x6e] (by decide)
  have hunderscore : ∀ b ∈ a :: w, b ≠ 0x5f := by
    rintro b hb rfl
    rcases hall _ hb with h | h <;> revert h <;> decide
  have hok : underscoresOk false false (a :: w) = true := underscoresOk_of_forall_ne hunderscore
  have hstrip : (a :: w).filter (· ≠ 0x5f) = a :: w :=
    List.filter_eq_self.mpr (by simpa using hunderscore)
  unfold read
  simp only [hsign, hlower, hinf, hinfinity, hnan, decide_false, Bool.or_self, Bool.false_eq_true,
    if_false]
  split
  next x digits heq =>
    have hx : lower x ≠ 0x78 := by
      have hmem : x ∈ a :: w := by simp [heq]
      rw [lower_digit (hall x hmem)]
      rintro rfl
      rcases hall _ hmem with h | h <;> revert h <;> decide
    simp only [hx, decide_false, Bool.false_and, Bool.false_eq_true, if_false, hok, hstrip,
      if_true]
  next => rw [if_pos hok, hstrip]

/-- A numeral is digits, with a point and digits after them or without. -/
theorem numeral_digits {w : Text} (h : w ∈ Pattern.numeral.language) :
    ∃ whole fraction, whole ≠ [] ∧ takeMantissa false w = (whole, fraction, []) ∧
      read w = readUnsigned false false w := by
  cases w with
  | nil => exact absurd h (Pattern.nil_notMem _)
  | cons a w =>
    obtain ⟨ha, hrun⟩ := Pattern.mem_numeral.mp h
    rcases Segment.numeralRun_eq_length.mp hrun with hall | ⟨ds, fs, rfl, hds, -, hfs⟩
    · exact ⟨_, _, List.cons_ne_nil a w,
        (takeMantissa_digits (List.forall_mem_cons.mpr ⟨ha, hall⟩) (List.forall_mem_nil _)).1,
        read_eq_readUnsigned ha fun b hb => .inl (hall b hb)⟩
    · refine ⟨_, _, List.cons_ne_nil a ds,
        (takeMantissa_digits (List.forall_mem_cons.mpr ⟨ha, hds⟩) hfs).2,
        read_eq_readUnsigned ha ?_⟩
      intro b hb
      rcases List.mem_append.mp hb with hb | hb
      · exact .inl (hds b hb)
      · rcases List.mem_cons.mp hb with rfl | hb
        · exact .inr rfl
        · exact .inl (hfs b hb)

/-- A numeral of the language has a value or is out of range. -/
theorem read_ne_malformed {w : Text} (h : w ∈ Pattern.numeral.language) : read w ≠ .malformed := by
  obtain ⟨whole, fraction, hne, hmantissa, hread⟩ := numeral_digits h
  rw [hread]
  exact readUnsigned_ne_malformed hne hmantissa

end Dynascope.Number
