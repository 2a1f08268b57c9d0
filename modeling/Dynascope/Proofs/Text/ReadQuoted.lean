import Dynascope.Text.Quoted
import Mathlib.Algebra.Group.Nat.Defs
import Mathlib.Tactic.SplitIfs

/-!
# Reading quoted texts

A quoted text can be read back: it ends at the first double quote that does not follow a backslash,
and escapes say which bytes they stand for.

* `utf8`: the bytes of a code point.
* `Piece.Encoded`, `encoded_of_mem_pieces`: the pieces of a text are characters with their bytes,
  and bytes above U+007F that belong to none.
* `readQuoted`: reads a quoted text at the front of a text.
* `readQuoted_quoted`: it reads back every text from its quoted form, whatever follows.
* `quoted_append_inj`: so two quoted texts with what follows them are equal only in their parts.
-/

namespace Dynascope.Text

/-! ## Characters and their bytes -/

/-- A continuation byte with the lowest six bits of a number. -/
def tailByte (n : Nat) : UInt8 :=
  (0x80 + n % 0x40).toUInt8

/-- The UTF-8 bytes of a code point. -/
def utf8 (code : Nat) : Text :=
  if code < 0x80 then [code.toUInt8]
  else if code < 0x800 then [(0xc0 + code / 0x40).toUInt8, tailByte code]
  else if code < 0x10000 then
    [(0xe0 + code / 0x1000).toUInt8, tailByte (code / 0x40), tailByte code]
  else
    [(0xf0 + code / 0x40000).toUInt8, tailByte (code / 0x1000), tailByte (code / 0x40),
      tailByte code]

/-- A character with its bytes, or a byte that no ASCII character is. -/
def Piece.Encoded : Piece → Prop
  | .char code bytes => code < 0x110000 ∧ bytes = utf8 code
  | .stray byte => 0x80 ≤ byte

theorem toNat_toUInt8 (n : Nat) : n.toUInt8.toNat = n % 256 :=
  UInt8.toNat_ofNat'

/-- A byte is the one with its number. -/
theorem toUInt8_eq {n : Nat} {b : UInt8} (h : n = b.toNat) : n.toUInt8 = b := by
  apply UInt8.toNat_inj.mp
  have hb := b.toNat_lt
  rw [toNat_toUInt8]
  omega

theorem le_toUInt8 {n : Nat} (h : 0x80 ≤ n) (h' : n < 0x100) : 0x80 ≤ n.toUInt8 := by
  rw [UInt8.le_iff_toNat_le, toNat_toUInt8]
  simp only [UInt8.reduceToNat]
  omega

theorem le_tailByte (n : Nat) : 0x80 ≤ tailByte n :=
  le_toUInt8 (by omega) (by omega)

/-- No byte of a character above U+007F is that of an ASCII character. -/
theorem le_of_mem_utf8 {code : Nat} (h : 0x80 ≤ code) (hmax : code < 0x110000) {b : UInt8}
    (hb : b ∈ utf8 code) : 0x80 ≤ b := by
  unfold utf8 at hb
  rw [if_neg (by omega)] at hb
  split at hb
  · simp only [List.mem_cons, List.not_mem_nil, or_false] at hb
    rcases hb with rfl | rfl
    · exact le_toUInt8 (by omega) (by omega)
    · exact le_tailByte _
  · split at hb
    · simp only [List.mem_cons, List.not_mem_nil, or_false] at hb
      rcases hb with rfl | rfl | rfl
      · exact le_toUInt8 (by omega) (by omega)
      · exact le_tailByte _
      · exact le_tailByte _
    · simp only [List.mem_cons, List.not_mem_nil, or_false] at hb
      rcases hb with rfl | rfl | rfl | rfl
      · exact le_toUInt8 (by omega) (by omega)
      · exact le_tailByte _
      · exact le_tailByte _
      · exact le_tailByte _

/-- A continuation byte is determined by its payload. -/
theorem tailByte_eq {b : UInt8} {n : Nat} (h : isContinuation b = true)
    (hn : n % 0x40 = tailBits b) : tailByte n = b := by
  simp only [isContinuation, Bool.and_eq_true, decide_eq_true_eq, UInt8.le_iff_toNat_le,
    UInt8.reduceToNat, tailBits] at h hn
  exact toUInt8_eq (by omega)

/-- The range of the second byte keeps out the code points that have shorter forms or none. -/
theorem bounds_of_isSecond {a b : UInt8} (h : isSecond a b = true) :
    isContinuation b = true ∧ (a.toNat = 0xe0 → 0x20 ≤ tailBits b) ∧
      (a.toNat = 0xf0 → 0x10 ≤ tailBits b) ∧ (a.toNat = 0xf4 → tailBits b < 0x10) := by
  have heq : ∀ n : UInt8, a = n ↔ a.toNat = n.toNat := fun n => UInt8.toNat_inj.symm
  simp only [isSecond, isContinuation, tailBits, heq, UInt8.le_iff_toNat_le,
    UInt8.reduceToNat] at h ⊢
  split_ifs at h <;> simp only [Bool.and_eq_true, decide_eq_true_eq] at h ⊢ <;> omega

section Encoded

variable {a b c d : UInt8}

theorem encoded_ascii (ha : a < 0x80) : (Piece.char a.toNat [a]).Encoded := by
  simp only [UInt8.lt_iff_toNat_lt, UInt8.reduceToNat] at ha
  refine ⟨by omega, ?_⟩
  rw [utf8, if_pos ha, toUInt8_eq rfl]

theorem encoded_two (ha : (0xc2 ≤ a && a ≤ 0xdf) = true) (hb : isSecond a b = true) :
    (Piece.char (a.toNat % 0x20 * 0x40 + tailBits b) [a, b]).Encoded := by
  simp only [Bool.and_eq_true, decide_eq_true_eq, UInt8.le_iff_toNat_le, UInt8.reduceToNat] at ha
  obtain ⟨hb, -⟩ := bounds_of_isSecond hb
  have hbits : tailBits b < 0x40 := Nat.mod_lt _ (by decide)
  refine ⟨by omega, ?_⟩
  rw [utf8, if_neg (by omega), if_pos (by omega), tailByte_eq hb (by omega),
    toUInt8_eq (b := a) (by omega)]

theorem encoded_three (ha : (0xe0 ≤ a && a ≤ 0xef) = true) (hb : isSecond a b = true)
    (hc : isContinuation c = true) :
    (Piece.char ((a.toNat % 0x10 * 0x40 + tailBits b) * 0x40 + tailBits c) [a, b, c]).Encoded := by
  simp only [Bool.and_eq_true, decide_eq_true_eq, UInt8.le_iff_toNat_le, UInt8.reduceToNat] at ha
  obtain ⟨hb, hlow, -, -⟩ := bounds_of_isSecond hb
  have hbits : tailBits b < 0x40 := Nat.mod_lt _ (by decide)
  have hcbits : tailBits c < 0x40 := Nat.mod_lt _ (by decide)
  refine ⟨by omega, ?_⟩
  rw [utf8, if_neg (by omega), if_neg (by omega), if_pos (by omega), tailByte_eq hb (by omega),
    tailByte_eq hc (by omega), toUInt8_eq (b := a) (by omega)]

theorem encoded_four (ha : (0xf0 ≤ a && a ≤ 0xf4) = true) (hb : isSecond a b = true)
    (hc : isContinuation c = true) (hd : isContinuation d = true) :
    (Piece.char (((a.toNat % 0x08 * 0x40 + tailBits b) * 0x40 + tailBits c) * 0x40 + tailBits d)
      [a, b, c, d]).Encoded := by
  simp only [Bool.and_eq_true, decide_eq_true_eq, UInt8.le_iff_toNat_le, UInt8.reduceToNat] at ha
  obtain ⟨hb, -, hlow, hhigh⟩ := bounds_of_isSecond hb
  have hbits : tailBits b < 0x40 := Nat.mod_lt _ (by decide)
  have hcbits : tailBits c < 0x40 := Nat.mod_lt _ (by decide)
  have hdbits : tailBits d < 0x40 := Nat.mod_lt _ (by decide)
  refine ⟨by omega, ?_⟩
  rw [utf8, if_neg (by omega), if_neg (by omega), if_neg (by omega), tailByte_eq hb (by omega),
    tailByte_eq hc (by omega), tailByte_eq hd (by omega), toUInt8_eq (b := a) (by omega)]

end Encoded

/-- The piece at the front has the first bytes of the text, and they are those of its character. -/
theorem frontPiece_encoded (a : UInt8) (rest : Text) :
    (frontPiece a rest).1.Encoded ∧
      (frontPiece a rest).1.bytes = a :: rest.take (frontPiece a rest).2 := by
  unfold frontPiece
  by_cases hascii : a < 0x80
  · rw [if_pos hascii]
    exact ⟨encoded_ascii hascii, rfl⟩
  have hstray : (Piece.stray a).Encoded := UInt8.not_lt.mp hascii
  rw [if_neg hascii]
  split
  next htwo =>
    split
    next b _ =>
      split
      next hb => exact ⟨encoded_two htwo hb, rfl⟩
      next => exact ⟨hstray, rfl⟩
    next => exact ⟨hstray, rfl⟩
  next =>
    split
    next hthree =>
      split
      next b c _ =>
        split
        next hbc =>
          obtain ⟨hb, hc⟩ := Bool.and_eq_true_iff.mp hbc
          exact ⟨encoded_three hthree hb hc, rfl⟩
        next => exact ⟨hstray, rfl⟩
      next => exact ⟨hstray, rfl⟩
    next =>
      split
      next hfour =>
        split
        next b c d _ =>
          split
          next hbcd =>
            obtain ⟨hbc, hd⟩ := Bool.and_eq_true_iff.mp hbcd
            obtain ⟨hb, hc⟩ := Bool.and_eq_true_iff.mp hbc
            exact ⟨encoded_four hfour hb hc hd, rfl⟩
          next => exact ⟨hstray, rfl⟩
        next => exact ⟨hstray, rfl⟩
      next => exact ⟨hstray, rfl⟩

/-- The bytes of the pieces are the text, and every piece is a character with its bytes or a stray
byte. -/
theorem piecesAfter_encoded (skip : Nat) (t : Text) :
    (piecesAfter skip t).flatMap Piece.bytes = t.drop skip ∧
      ∀ p ∈ piecesAfter skip t, p.Encoded := by
  fun_induction piecesAfter skip t with
  | case1 => simp
  | case2 k a rest ih => exact ih
  | case3 a rest front ih =>
    obtain ⟨hencoded, hbytes⟩ := frontPiece_encoded a rest
    refine ⟨?_, List.forall_mem_cons.mpr ⟨hencoded, ih.2⟩⟩
    rw [List.flatMap_cons, ih.1, hbytes, List.cons_append, List.take_append_drop, List.drop_zero]

theorem pieces_bytes (t : Text) : (pieces t).flatMap Piece.bytes = t :=
  (piecesAfter_encoded 0 t).1

theorem encoded_of_mem_pieces {t : Text} {p : Piece} (h : p ∈ pieces t) : p.Encoded :=
  (piecesAfter_encoded 0 t).2 p h

/-! ## The reader -/

/-- The value of a hexadecimal digit in lower case. -/
def hexDigitValue (b : UInt8) : Nat :=
  if b < 0x61 then digitValue b else b.toNat - 0x57

/-- The number that hexadecimal digits denote. -/
def hexValue (ds : Text) : Nat :=
  ds.foldl (fun n d => n * 16 + hexDigitValue d) 0

/-- The byte that an escape of one letter stands for; other bytes stand for themselves. -/
def unescape : UInt8 → UInt8
  | 0x61 => 0x07
  | 0x62 => 0x08
  | 0x74 => 0x09
  | 0x6e => 0x0a
  | 0x76 => 0x0b
  | 0x66 => 0x0c
  | 0x72 => 0x0d
  | b => b

/-- The bytes that the front of `a :: rest` stands for inside quotes, and the number of bytes that
it takes from `rest`. -/
def quotedFront (a : UInt8) (rest : Text) : Text × Nat :=
  if a = 0x5c then
    match rest with
    | [] => ([a], 0)
    | b :: digits =>
      if b = 0x78 then ([(hexValue (digits.take 2)).toUInt8], 3)
      else if b = 0x75 then (utf8 (hexValue (digits.take 4)), 5)
      else if b = 0x55 then (utf8 (hexValue (digits.take 8)), 9)
      else ([unescape b], 1)
  else ([a], 0)

/-- What was read, with bytes before it. -/
def prepend (bytes : Text) (read : Option (Text × Text)) : Option (Text × Text) :=
  read.map (Prod.map (bytes ++ ·) id)

/-- Reads the rest of a quoted text without its first `skip` bytes: what it stands for, and what
follows the closing quote. -/
def readQuotedAfter : (skip : Nat) → Text → Option (Text × Text)
  | _, [] => none
  | k + 1, _ :: rest => readQuotedAfter k rest
  | 0, a :: rest =>
    if a = quote then some ([], rest)
    else
      let front := quotedFront a rest
      prepend front.1 (readQuotedAfter front.2 rest)

/-- Reads a quoted text at the front of a text: what it stands for, and what follows. -/
def readQuoted : Text → Option (Text × Text)
  | [] => none
  | a :: rest => if a = quote then readQuotedAfter 0 rest else none

/-! ## Reading back -/

theorem prepend_nil (read : Option (Text × Text)) : prepend [] read = read := by
  cases read <;> rfl

theorem prepend_prepend (first second : Text) (read : Option (Text × Text)) :
    prepend first (prepend second read) = prepend (first ++ second) read := by
  cases read with
  | none => rfl
  | some r => simp [prepend, Prod.map]

theorem readQuotedAfter_append {ws : Text} (u : Text) {k : Nat} (h : ws.length = k) :
    readQuotedAfter k (ws ++ u) = readQuotedAfter 0 u := by
  subst h
  induction ws with
  | nil => rfl
  | cons a ws ih => exact ih

/-- An escape is read as a whole. -/
theorem readQuotedAfter_escape (ws : Text) {bytes u : Text}
    (h : quotedFront 0x5c (ws ++ u) = (bytes, ws.length)) :
    readQuotedAfter 0 (0x5c :: ws ++ u) = prepend bytes (readQuotedAfter 0 u) := by
  rw [List.cons_append, readQuotedAfter, if_neg (by decide), h]
  simp only [readQuotedAfter_append u rfl]

/-- Bytes that are neither quotes nor backslashes are read one by one. -/
theorem readQuotedAfter_plain {bytes : Text} (u : Text)
    (h : ∀ b ∈ bytes, b ≠ quote ∧ b ≠ 0x5c) :
    readQuotedAfter 0 (bytes ++ u) = prepend bytes (readQuotedAfter 0 u) := by
  induction bytes with
  | nil => rw [prepend_nil]; rfl
  | cons b bytes ih =>
    obtain ⟨⟨hquote, hslash⟩, hrest⟩ := List.forall_mem_cons.mp h
    have hfront : quotedFront b (bytes ++ u) = ([b], 0) := if_neg hslash
    rw [List.cons_append, readQuotedAfter, if_neg hquote, hfront]
    simp only [ih hrest, prepend_prepend, List.singleton_append]

theorem length_hex (width n : Nat) : (hex width n).length = width := by
  induction width generalizing n with
  | zero => rfl
  | succ w ih => rw [hex, List.length_append, ih]; rfl

theorem hexDigitValue_hexDigit {n : Nat} (h : n < 16) : hexDigitValue (hexDigit n) = n := by
  revert n
  decide

theorem hexValue_hex (width n : Nat) : hexValue (hex width n) = n % 16 ^ width := by
  induction width generalizing n with
  | zero => simp [hex, hexValue, Nat.mod_one]
  | succ w ih =>
    have hdigits := ih (n / 16)
    unfold hexValue at hdigits ⊢
    rw [hex, List.foldl_append, hdigits, List.foldl_cons, List.foldl_nil,
      hexDigitValue_hexDigit (Nat.mod_lt _ (by decide)), Nat.pow_succ, Nat.mul_comm (16 ^ w),
      Nat.mod_mul]
    omega

/-- The digits of an escape, whatever follows. -/
theorem hexValue_take_hex {width n : Nat} (h : n < 16 ^ width) (u : Text) :
    hexValue ((hex width n ++ u).take width) = n := by
  rw [List.take_left' (length_hex width n), hexValue_hex, Nat.mod_eq_of_lt h]

theorem quotedFront_cons (b : UInt8) (digits : Text) : quotedFront 0x5c (b :: digits) =
    if b = 0x78 then ([(hexValue (digits.take 2)).toUInt8], 3)
    else if b = 0x75 then (utf8 (hexValue (digits.take 4)), 5)
    else if b = 0x55 then (utf8 (hexValue (digits.take 8)), 9)
    else ([unescape b], 1) :=
  if_pos rfl

theorem readQuotedAfter_byte {n : Nat} (h : n < 16 ^ 2) (u : Text) :
    readQuotedAfter 0 ([0x5c, 0x78] ++ hex 2 n ++ u) =
      prepend [n.toUInt8] (readQuotedAfter 0 u) := by
  refine readQuotedAfter_escape (0x78 :: hex 2 n) ?_
  rw [List.cons_append, quotedFront_cons, if_pos rfl, hexValue_take_hex h, List.length_cons,
    length_hex]

theorem readQuotedAfter_code {n : Nat} (h : n < 16 ^ 4) (u : Text) :
    readQuotedAfter 0 ([0x5c, 0x75] ++ hex 4 n ++ u) = prepend (utf8 n) (readQuotedAfter 0 u) := by
  refine readQuotedAfter_escape (0x75 :: hex 4 n) ?_
  rw [List.cons_append, quotedFront_cons, if_neg (by decide), if_pos rfl, hexValue_take_hex h,
    List.length_cons, length_hex]

theorem readQuotedAfter_longCode {n : Nat} (h : n < 16 ^ 8) (u : Text) :
    readQuotedAfter 0 ([0x5c, 0x55] ++ hex 8 n ++ u) = prepend (utf8 n) (readQuotedAfter 0 u) := by
  refine readQuotedAfter_escape (0x55 :: hex 8 n) ?_
  rw [List.cons_append, quotedFront_cons, if_neg (by decide), if_neg (by decide), if_pos rfl,
    hexValue_take_hex h, List.length_cons, length_hex]

/-- An escape of one byte after the backslash. -/
theorem readQuotedAfter_letter {b : UInt8} (hx : b ≠ 0x78) (hu : b ≠ 0x75) (hU : b ≠ 0x55)
    (u : Text) :
    readQuotedAfter 0 (0x5c :: [b] ++ u) = prepend [unescape b] (readQuotedAfter 0 u) := by
  refine readQuotedAfter_escape [b] ?_
  rw [List.cons_append, quotedFront_cons, if_neg hx, if_neg hu, if_neg hU]
  rfl

theorem utf8_ascii {code : Nat} (h : code < 0x80) : utf8 code = [code.toUInt8] :=
  if_pos h

theorem unescape_escapeLetter {code : Nat} {letter : UInt8} (h : escapeLetter? code = some letter) :
    letter ≠ 0x78 ∧ letter ≠ 0x75 ∧ letter ≠ 0x55 ∧ [unescape letter] = utf8 code := by
  unfold escapeLetter? at h
  split at h <;> cases h <;> decide

/-- The bytes of a character other than the quote and the backslash are neither. -/
theorem plain_of_mem_utf8 {code : Nat} (hmax : code < 0x110000) (hquote : code ≠ 0x22)
    (hslash : code ≠ 0x5c) {b : UInt8} (hb : b ∈ utf8 code) : b ≠ quote ∧ b ≠ 0x5c := by
  by_cases hascii : code < 0x80
  · rw [utf8_ascii hascii, List.mem_singleton] at hb
    subst hb
    simp only [ne_eq, ← UInt8.toNat_inj, toNat_toUInt8, quote, UInt8.reduceToNat]
    omega
  · have hle := le_of_mem_utf8 (Nat.le_of_not_lt hascii) hmax hb
    constructor <;> rintro rfl <;> exact absurd hle (by decide)

/-- What stands for a character inside quotes is read as its bytes. -/
theorem readQuotedAfter_char {code : Nat} (hmax : code < 0x110000) (u : Text) :
    readQuotedAfter 0 ((Piece.char code (utf8 code)).quoted ++ u) =
      prepend (utf8 code) (readQuotedAfter 0 u) := by
  rw [Piece.quoted]
  split
  next hmark =>
    rcases Bool.or_eq_true_iff.mp hmark with h | h <;> obtain rfl := of_decide_eq_true h
    · exact readQuotedAfter_letter (b := 0x22) (by decide) (by decide) (by decide) u
    · exact readQuotedAfter_letter (b := 0x5c) (by decide) (by decide) (by decide) u
  next hmark =>
    simp only [Bool.or_eq_true, decide_eq_true_eq, not_or] at hmark
    split
    next => exact readQuotedAfter_plain u fun b => plain_of_mem_utf8 hmax hmark.1 hmark.2
    next =>
      split
      next letter hletter =>
        obtain ⟨hx, hu, hU, hbytes⟩ := unescape_escapeLetter hletter
        rw [← hbytes]
        exact readQuotedAfter_letter hx hu hU u
      next =>
        split
        next hcontrol =>
          simp only [Bool.or_eq_true, decide_eq_true_eq] at hcontrol
          rw [utf8_ascii (by omega)]
          exact readQuotedAfter_byte (by omega) u
        next =>
          split
          next hshort => exact readQuotedAfter_code hshort u
          next => exact readQuotedAfter_longCode (by omega) u

theorem readQuotedAfter_piece {p : Piece} (hp : p.Encoded) (u : Text) :
    readQuotedAfter 0 (p.quoted ++ u) = prepend p.bytes (readQuotedAfter 0 u) := by
  cases p with
  | stray byte =>
    have hbyte := readQuotedAfter_byte byte.toNat_lt u
    rwa [toUInt8_eq rfl] at hbyte
  | char code bytes =>
    obtain ⟨hmax, rfl⟩ := hp
    exact readQuotedAfter_char hmax u

theorem readQuotedAfter_pieces {ps : List Piece} (hps : ∀ p ∈ ps, p.Encoded) (u : Text) :
    readQuotedAfter 0 (ps.flatMap Piece.quoted ++ u) =
      prepend (ps.flatMap Piece.bytes) (readQuotedAfter 0 u) := by
  induction ps with
  | nil => rw [List.flatMap_nil, List.flatMap_nil, prepend_nil]; rfl
  | cons p ps ih =>
    obtain ⟨hp, hrest⟩ := List.forall_mem_cons.mp hps
    rw [List.flatMap_cons, List.flatMap_cons, List.append_assoc, readQuotedAfter_piece hp, ih hrest,
      prepend_prepend]

/-- **Quoted texts are read back**, whatever follows them. -/
theorem readQuoted_quoted (t after : Text) : readQuoted (t.quoted ++ after) = some (t, after) := by
  have hpieces := readQuotedAfter_pieces (fun p => encoded_of_mem_pieces (t := t) (p := p))
    (quote :: after)
  have hquoted : t.quoted ++ after =
      quote :: ((pieces t).flatMap Piece.quoted ++ quote :: after) := by
    simp [quoted]
  rw [hquoted, readQuoted, if_pos rfl, hpieces, pieces_bytes, readQuotedAfter, if_pos rfl]
  simp [prepend]

/-- A quoted text says where it ends and what it stands for. -/
theorem quoted_append_inj {s t u v : Text} (h : s.quoted ++ u = t.quoted ++ v) : s = t ∧ u = v := by
  have hread := readQuoted_quoted s u
  rw [h, readQuoted_quoted] at hread
  exact ⟨(congrArg Prod.fst (Option.some.inj hread)).symm,
    (congrArg Prod.snd (Option.some.inj hread)).symm⟩

end Dynascope.Text
