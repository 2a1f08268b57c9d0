import Dynascope.Proofs.Token.Measures
import Mathlib.Computability.RegularExpressions

/-!
# Patterns of lexemes

The lexemes of the language are given by regular expressions over bytes.

* `Pattern`: the patterns; `Pattern.expression`: their regular expressions, and
  `Pattern.language`: the words they match.
* `Pattern.mem_blank`, `Pattern.mem_word` and so on: which words match a pattern, in terms of the
  first byte and of the functions that measure a segment.
* `Pattern.nil_notMem`: no pattern matches the empty word.
-/

namespace Dynascope

open RegularExpression

/-- The patterns of lexemes. Each operator is a pattern of its own. -/
inductive Pattern where
  | lineComment
  | blockComment
  | string
  | word
  | numeral
  | blank
  | operator (kind : { k : Kind // k ∈ Kind.operators })

/-! ## Expressions for single bytes -/

namespace Pattern

/-- The expression for one byte with a property. -/
def byte (p : UInt8 → Bool) : RegularExpression UInt8 :=
  ((((List.range 256).map UInt8.ofNat).filter p).map char).sum

/-- One or more words of an expression. -/
def many (r : RegularExpression UInt8) : RegularExpression UInt8 :=
  r * r.star

/-- The expression for one given word. -/
def only (w : Text) : RegularExpression UInt8 :=
  (w.map char).prod

/-- The expression matches the bytes with a property, each as a word of its own. -/
def IsByte (r : RegularExpression UInt8) (p : UInt8 → Prop) : Prop :=
  ∀ w, w ∈ r.matches' ↔ ∃ b, p b ∧ w = [b]

theorem isByte_char (a : UInt8) : IsByte (char a) (· = a) := by
  intro w
  constructor
  · intro h
    exact ⟨a, rfl, h⟩
  · rintro ⟨b, rfl, rfl⟩
    rfl

theorem IsByte.add {r s : RegularExpression UInt8} {p q : UInt8 → Prop} (hr : IsByte r p)
    (hs : IsByte s q) : IsByte (r + s) fun b => p b ∨ q b := by
  intro w
  rw [matches'_add, Language.mem_add, hr w, hs w]
  constructor
  · rintro (⟨b, hb, rfl⟩ | ⟨b, hb, rfl⟩)
    · exact ⟨b, .inl hb, rfl⟩
    · exact ⟨b, .inr hb, rfl⟩
  · rintro ⟨b, hb | hb, rfl⟩
    · exact .inl ⟨b, hb, rfl⟩
    · exact .inr ⟨b, hb, rfl⟩

theorem IsByte.congr {r : RegularExpression UInt8} {p q : UInt8 → Prop} (hr : IsByte r p)
    (h : ∀ b, p b ↔ q b) : IsByte r q := by
  intro w
  rw [hr w]
  exact exists_congr fun b => and_congr_left fun _ => h b

theorem mem_bytes (b : UInt8) : b ∈ (List.range 256).map UInt8.ofNat :=
  List.mem_map.mpr ⟨b.toNat, List.mem_range.mpr b.toNat_lt, UInt8.ofNat_toNat⟩

theorem isByte_byte (p : UInt8 → Bool) : IsByte (byte p) (p · = true) := by
  have hsum : ∀ bs : List UInt8, IsByte (bs.map char).sum (· ∈ bs) := by
    intro bs
    induction bs with
    | nil =>
      intro w
      simp only [List.map_nil, List.sum_nil, matches'_zero, Language.notMem_zero, List.not_mem_nil,
        false_and, exists_false]
    | cons a bs ih =>
      rw [List.map_cons, List.sum_cons]
      exact ((isByte_char a).add ih).congr fun b => List.mem_cons.symm
  refine (hsum _).congr fun b => ?_
  rw [List.mem_filter]
  exact ⟨fun h => h.2, fun h => ⟨mem_bytes b, h⟩⟩

/-- A run of bytes with a property. -/
theorem IsByte.mem_star {r : RegularExpression UInt8} {p : UInt8 → Prop} (hr : IsByte r p)
    (w : Text) : w ∈ r.star.matches' ↔ ∀ b ∈ w, p b := by
  rw [matches'_star, Language.mem_kstar]
  constructor
  · rintro ⟨words, rfl, hwords⟩ b hb
    obtain ⟨word, hword, hb⟩ := List.mem_flatten.mp hb
    obtain ⟨c, hc, rfl⟩ := (hr word).mp (hwords word hword)
    rwa [List.mem_singleton.mp hb]
  · intro h
    refine ⟨w.map ([·]), (List.flatMap_singleton' w).symm, ?_⟩
    intro y hy
    obtain ⟨b, hb, rfl⟩ := List.mem_map.mp hy
    exact (hr _).mpr ⟨b, h b hb, rfl⟩

/-- A byte followed by a word of another expression. -/
theorem IsByte.cons_mem_mul {r s : RegularExpression UInt8} {p : UInt8 → Prop} (hr : IsByte r p)
    (a : UInt8) (w : Text) : a :: w ∈ (r * s).matches' ↔ p a ∧ w ∈ s.matches' := by
  rw [matches'_mul, Language.mem_mul]
  constructor
  · rintro ⟨x, hx, y, hy, hxy⟩
    obtain ⟨b, hb, rfl⟩ := (hr x).mp hx
    obtain ⟨rfl, rfl⟩ := List.cons.inj hxy
    exact ⟨hb, hy⟩
  · rintro ⟨ha, hw⟩
    exact ⟨[a], (hr _).mpr ⟨a, ha, rfl⟩, w, hw, rfl⟩

/-- An expression that starts with a byte does not match the empty word. -/
theorem IsByte.nil_notMem_mul {r s : RegularExpression UInt8} {p : UInt8 → Prop}
    (hr : IsByte r p) : [] ∉ (r * s).matches' := by
  rw [matches'_mul, Language.mem_mul]
  rintro ⟨x, hx, y, -, hxy⟩
  obtain ⟨b, -, rfl⟩ := (hr x).mp hx
  cases hxy

/-- A given byte followed by a word of an expression. -/
theorem mem_char_mul {c : UInt8} {s : RegularExpression UInt8} {w : Text} :
    w ∈ (char c * s).matches' ↔ ∃ v, w = c :: v ∧ v ∈ s.matches' := by
  cases w with
  | nil => exact ⟨fun h => absurd h (isByte_char c).nil_notMem_mul, fun ⟨_, h, _⟩ => nomatch h⟩
  | cons b w =>
    rw [(isByte_char c).cons_mem_mul]
    constructor
    · rintro ⟨rfl, hw⟩
      exact ⟨w, rfl, hw⟩
    · rintro ⟨v, h, hv⟩
      obtain ⟨rfl, rfl⟩ := List.cons.inj h
      exact ⟨rfl, hv⟩

theorem mem_only (u w : Text) : w ∈ (only u).matches' ↔ w = u := by
  unfold only
  induction u generalizing w with
  | nil => simp [matches'_epsilon, Language.mem_one]
  | cons a u ih =>
    rw [List.map_cons, List.prod_cons]
    cases w with
    | nil => simpa using (isByte_char a).nil_notMem_mul
    | cons b w => rw [(isByte_char a).cons_mem_mul, ih, List.cons_eq_cons]

theorem IsByte.mem_many {r : RegularExpression UInt8} {p : UInt8 → Prop} (hr : IsByte r p)
    (w : Text) : w ∈ (many r).matches' ↔ w ≠ [] ∧ ∀ b ∈ w, p b := by
  cases w with
  | nil =>
    constructor
    · exact fun h => absurd h hr.nil_notMem_mul
    · exact fun h => absurd rfl h.1
  | cons a w =>
    rw [many, hr.cons_mem_mul, hr.mem_star, List.forall_mem_cons]
    exact ⟨fun h => ⟨List.cons_ne_nil a w, h⟩, fun h => h.2⟩

/-! ## The expressions of the patterns -/

/-- A byte from one byte up to another. -/
def range (low high : UInt8) : RegularExpression UInt8 :=
  byte fun b => low ≤ b && b ≤ high

/-- A piece of a block comment that can be followed by any other piece or by the end. -/
def commentPart : RegularExpression UInt8 :=
  byte (· ≠ 0x2a) + char 0x0d + char 0x0a +
    many (char 0x2a) * (byte (fun b => b ≠ 0x2a && b ≠ 0x2f) + char 0x0d + char 0x0a)

/-- The end of a block comment. -/
def commentTail : RegularExpression UInt8 :=
  many (char 0x2a) * char 0x2f

/-- The regular expression of a pattern. -/
def expression : Pattern → RegularExpression UInt8
  | lineComment => char 0x2f * (char 0x2f * (byte (· ≠ Text.newline)).star)
  | blockComment => char 0x2f * (char 0x2a * (commentPart.star * commentTail))
  | string =>
    char Text.quote * ((byte (· ≠ Text.quote) + char 0x0d + char 0x0a).star * char Text.quote)
  | word =>
    (range 0x61 0x7a + range 0x41 0x5a + char 0x5f) *
      (range 0x61 0x7a + range 0x41 0x5a + range 0x30 0x39 + char 0x5f).star
  | numeral => many (range 0x30 0x39) * (char 0x2e * many (range 0x30 0x39) + 1)
  | blank => many (char 0x20 + char 0x09 + char 0x0a + char 0x0d)
  | operator kind => only kind.val.name

/-- The words that match a pattern. -/
def language (p : Pattern) : Language UInt8 :=
  p.expression.matches'

/-! ## Which words match -/

open Segment

variable {a : UInt8} {w : Text}

theorem mem_blank : a :: w ∈ blank.language ↔ isBlank a = true ∧ ∀ b ∈ w, isBlank b = true := by
  have hblank : IsByte (char 0x20 + char 0x09 + char 0x0a + char 0x0d) (isBlank · = true) := by
    refine ((((isByte_char _).add (isByte_char _)).add (isByte_char _)).add
      (isByte_char _)).congr fun b => ?_
    simp [isBlank, or_assoc]
  rw [language, expression, many, hblank.cons_mem_mul, hblank.mem_star]

theorem mem_word :
    a :: w ∈ word.language ↔ isWordStart a = true ∧ ∀ b ∈ w, isWordByte b = true := by
  have hstart : IsByte (range 0x61 0x7a + range 0x41 0x5a + char 0x5f) (isWordStart · = true) := by
    refine (((isByte_byte _).add (isByte_byte _)).add (isByte_char _)).congr fun b => ?_
    simp [isWordStart]
  have hbyte : IsByte (range 0x61 0x7a + range 0x41 0x5a + range 0x30 0x39 + char 0x5f)
      (isWordByte · = true) := by
    refine ((((isByte_byte _).add (isByte_byte _)).add (isByte_byte _)).add
      (isByte_char _)).congr fun b => ?_
    simp only [isWordByte, isWordStart, Text.isDigit, Bool.or_eq_true, Bool.and_eq_true,
      decide_eq_true_eq]
    tauto
  rw [language, expression, hstart.cons_mem_mul, hbyte.mem_star]

theorem mem_lineComment : a :: w ∈ lineComment.language ↔
    a = 0x2f ∧ ∃ line, w = 0x2f :: line ∧ ∀ b ∈ line, b ≠ Text.newline := by
  have hline : ∀ line, line ∈ (byte (· ≠ Text.newline)).star.matches' ↔
      ∀ b ∈ line, b ≠ Text.newline := by
    intro line
    rw [(isByte_byte _).mem_star]
    simp
  rw [language, expression, (isByte_char _).cons_mem_mul, mem_char_mul]
  simp only [hline]

theorem mem_string :
    a :: w ∈ string.language ↔ a = Text.quote ∧ stringEnd? w = some w.length := by
  have hbody : IsByte (byte (· ≠ Text.quote) + char 0x0d + char 0x0a) (· ≠ Text.quote) := by
    refine (((isByte_byte _).add (isByte_char _)).add (isByte_char _)).congr fun b => ?_
    have hcr : (0x0d : UInt8) ≠ Text.quote := by decide
    have hnl : (0x0a : UInt8) ≠ Text.quote := by decide
    rw [decide_eq_true_eq]
    grind
  rw [language, expression, (isByte_char _).cons_mem_mul, stringEnd?_eq_length, matches'_mul,
    Language.mem_mul]
  simp only [hbody.mem_star]
  refine and_congr_right fun _ => ?_
  constructor
  · rintro ⟨body, hne, q, rfl, rfl⟩
    exact ⟨body, rfl, hne⟩
  · rintro ⟨body, rfl, hne⟩
    exact ⟨body, hne, [Text.quote], rfl, rfl⟩

theorem mem_numeral :
    a :: w ∈ numeral.language ↔ Text.isDigit a = true ∧ numeralRun w = w.length := by
  have hdigit : IsByte (range 0x30 0x39) (Text.isDigit · = true) := isByte_byte _
  rw [language, expression, numeralRun_eq_length, matches'_mul, Language.mem_mul]
  simp only [hdigit.mem_many, matches'_add, Language.mem_add, matches'_epsilon, Language.mem_one,
    mem_char_mul]
  constructor
  · rintro ⟨x, ⟨hx, hdigits⟩, y, hy, hxy⟩
    obtain ⟨b, x, rfl⟩ := List.exists_cons_of_ne_nil hx
    rw [List.cons_append] at hxy
    obtain ⟨rfl, rfl⟩ := List.cons.inj hxy
    rw [List.forall_mem_cons] at hdigits
    refine ⟨hdigits.1, ?_⟩
    rcases hy with ⟨fs, rfl, hne, hfs⟩ | rfl
    · exact .inr ⟨x, fs, rfl, hdigits.2, hne, hfs⟩
    · rw [List.append_nil]
      exact .inl hdigits.2
  · rintro ⟨ha, hall | ⟨ds, fs, rfl, hds, hne, hfs⟩⟩
    · exact ⟨a :: w, ⟨List.cons_ne_nil _ _, List.forall_mem_cons.mpr ⟨ha, hall⟩⟩, [], .inr rfl,
        List.append_nil _⟩
    · exact ⟨a :: ds, ⟨List.cons_ne_nil _ _, List.forall_mem_cons.mpr ⟨ha, hds⟩⟩, 0x2e :: fs,
        .inl ⟨fs, rfl, hne, hfs⟩, rfl⟩

/-! ## Block comments -/

/-- A part of a comment: a byte that is no star, or stars and a byte that is neither star nor
slash. -/
theorem mem_commentPart : w ∈ commentPart.matches' ↔ (∃ b, b ≠ 0x2a ∧ w = [b]) ∨
    ∃ stars b, stars ≠ [] ∧ (∀ c ∈ stars, c = 0x2a) ∧ b ≠ 0x2a ∧ b ≠ 0x2f ∧
      w = stars ++ [b] := by
  have hplain : IsByte (byte (· ≠ 0x2a) + char 0x0d + char 0x0a) (· ≠ 0x2a) := by
    refine (((isByte_byte _).add (isByte_char _)).add (isByte_char _)).congr fun b => ?_
    rw [decide_eq_true_eq]
    grind
  have hafter : IsByte (byte (fun b => b ≠ 0x2a && b ≠ 0x2f) + char 0x0d + char 0x0a)
      (fun b => b ≠ 0x2a ∧ b ≠ 0x2f) := by
    refine (((isByte_byte _).add (isByte_char _)).add (isByte_char _)).congr fun b => ?_
    rw [Bool.and_eq_true, decide_eq_true_eq, decide_eq_true_eq]
    grind
  rw [commentPart, matches'_add, Language.mem_add, hplain w, matches'_mul, Language.mem_mul]
  simp only [(isByte_char 0x2a).mem_many, hafter _]
  refine or_congr_right ?_
  constructor
  · rintro ⟨stars, ⟨hne, hstars⟩, x, ⟨b, ⟨hb, hb'⟩, rfl⟩, rfl⟩
    exact ⟨stars, b, hne, hstars, hb, hb', rfl⟩
  · rintro ⟨stars, b, hne, hstars, hb, hb', rfl⟩
    exact ⟨stars, ⟨hne, hstars⟩, [b], ⟨b, ⟨hb, hb'⟩, rfl⟩, rfl⟩

theorem mem_commentTail : w ∈ commentTail.matches' ↔
    ∃ stars, stars ≠ [] ∧ (∀ c ∈ stars, c = 0x2a) ∧ w = stars ++ [0x2f] := by
  rw [commentTail, matches'_mul, Language.mem_mul]
  simp only [(isByte_char 0x2a).mem_many]
  constructor
  · rintro ⟨stars, ⟨hne, hstars⟩, x, rfl, rfl⟩
    exact ⟨stars, hne, hstars, rfl⟩
  · rintro ⟨stars, hne, hstars, rfl⟩
    exact ⟨stars, ⟨hne, hstars⟩, [0x2f], rfl, rfl⟩

/-- What follows the opening of a comment is its end, or a part of it and then the same again. -/
theorem mem_commentBody : w ∈ (commentPart.star * commentTail).matches' ↔
    w ∈ commentTail.matches' ∨ ∃ part ∈ commentPart.matches',
      ∃ rest ∈ (commentPart.star * commentTail).matches', part ++ rest = w := by
  have hunfold : (commentPart.star * commentTail).matches' =
      commentTail.matches' + commentPart.matches' * (commentPart.star * commentTail).matches' := by
    rw [matches'_mul, matches'_star, ← mul_assoc]
    nth_rewrite 1 [← Language.one_add_self_mul_kstar_eq_kstar]
    rw [add_mul, one_mul]
  calc w ∈ (commentPart.star * commentTail).matches' ↔ w ∈ commentTail.matches' +
        commentPart.matches' * (commentPart.star * commentTail).matches' := by rw [← hunfold]
    _ ↔ _ := by rw [Language.mem_add, Language.mem_mul]

theorem commentEnd?_cons_eq_length (h : a ≠ 0x2a ∨ w.head? ≠ some 0x2f) :
    commentEnd? (a :: w) = some (a :: w).length ↔ commentEnd? w = some w.length := by
  rw [commentEnd?_cons h]
  simp

/-- A part of a comment does not hold its end. -/
theorem commentEnd?_part {part rest : Text} (h : part ∈ commentPart.matches')
    (hrest : commentEnd? rest = some rest.length) :
    commentEnd? (part ++ rest) = some (part ++ rest).length := by
  rcases mem_commentPart.mp h with ⟨b, hb, rfl⟩ | ⟨stars, b, -, hstars, hb, hb', rfl⟩
  · exact (commentEnd?_cons_eq_length (.inl hb)).mpr hrest
  · have hlast : commentEnd? (b :: rest) = some (b :: rest).length :=
      (commentEnd?_cons_eq_length (.inl hb)).mpr hrest
    clear h
    induction stars with
    | nil => exact hlast
    | cons c stars ih =>
      rw [List.forall_mem_cons] at hstars
      refine (commentEnd?_cons_eq_length (.inr ?_)).mpr (ih hstars.2)
      cases stars with
      | nil => simpa using hb'
      | cons d stars => simp [hstars.2 d List.mem_cons_self]

theorem commentEnd?_tail (h : w ∈ commentTail.matches') : commentEnd? w = some w.length := by
  obtain ⟨stars, hne, hstars, rfl⟩ := mem_commentTail.mp h
  induction stars with
  | nil => exact absurd rfl hne
  | cons c stars ih =>
    rw [List.forall_mem_cons] at hstars
    obtain ⟨rfl, hstars⟩ := hstars
    cases stars with
    | nil => rfl
    | cons d stars =>
      have hd : d = 0x2a := hstars d List.mem_cons_self
      refine (commentEnd?_cons_eq_length (.inr ?_)).mpr (ih (List.cons_ne_nil _ _) hstars ?_)
      · simp [hd]
      · exact mem_commentTail.mpr ⟨_, List.cons_ne_nil _ _, hstars, rfl⟩

/-- A star that is not followed by a slash can stand before the rest of a comment. -/
theorem star_cons_mem (hw : w.head? ≠ some 0x2f)
    (h : w ∈ (commentPart.star * commentTail).matches') :
    0x2a :: w ∈ (commentPart.star * commentTail).matches' := by
  rcases mem_commentBody.mp h with h | ⟨part, hpart, rest, hrest, rfl⟩
  · obtain ⟨stars, -, hstars, rfl⟩ := mem_commentTail.mp h
    exact mem_commentBody.mpr (.inl (mem_commentTail.mpr ⟨0x2a :: stars, List.cons_ne_nil _ _,
      List.forall_mem_cons.mpr ⟨rfl, hstars⟩, rfl⟩))
  · refine mem_commentBody.mpr (.inr ⟨0x2a :: part, ?_, rest, hrest, rfl⟩)
    refine mem_commentPart.mpr (.inr ?_)
    rcases mem_commentPart.mp hpart with ⟨b, hb, rfl⟩ | ⟨stars, b, -, hstars, hb, hb', rfl⟩
    · exact ⟨[0x2a], b, List.cons_ne_nil _ _, by simp, hb, by simpa using hw, rfl⟩
    · exact ⟨0x2a :: stars, b, List.cons_ne_nil _ _, List.forall_mem_cons.mpr ⟨rfl, hstars⟩, hb,
        hb', rfl⟩

/-- The first star that is followed by a slash ends a comment. -/
theorem mem_commentBody_iff :
    w ∈ (commentPart.star * commentTail).matches' ↔ commentEnd? w = some w.length := by
  constructor
  · intro h
    rw [matches'_mul, matches'_star, Language.mem_mul] at h
    obtain ⟨x, hx, tail, htail, rfl⟩ := h
    obtain ⟨parts, rfl, hparts⟩ := Language.mem_kstar.mp hx
    clear hx
    induction parts with
    | nil => exact commentEnd?_tail htail
    | cons part parts ih =>
      rw [List.forall_mem_cons] at hparts
      rw [List.flatten_cons, List.append_assoc]
      exact commentEnd?_part hparts.1 (ih hparts.2)
  · intro h
    fun_induction commentEnd? w with
    | case1 => cases h
    | case2 => cases h
    | case3 a b rest hab =>
      have hrest : rest = [] := by simpa using h.symm
      rw [Bool.and_eq_true, decide_eq_true_eq, decide_eq_true_eq] at hab
      obtain ⟨rfl, rfl⟩ := hab
      subst hrest
      exact mem_commentBody.mpr (.inl (mem_commentTail.mpr ⟨[0x2a], by simp, by simp, rfl⟩))
    | case4 a b rest hab ih =>
      have hbody := ih (by simpa using h)
      by_cases ha : a = 0x2a
      · subst ha
        refine star_cons_mem ?_ hbody
        simpa using hab
      · exact mem_commentBody.mpr (.inr ⟨[a], mem_commentPart.mpr (.inl ⟨a, ha, rfl⟩), _, hbody,
          rfl⟩)

theorem mem_blockComment : a :: w ∈ blockComment.language ↔
    a = 0x2f ∧ ∃ body, w = 0x2a :: body ∧ commentEnd? body = some body.length := by
  rw [language, expression, (isByte_char _).cons_mem_mul, mem_char_mul]
  simp only [mem_commentBody_iff]

theorem mem_operator {kind : { k : Kind // k ∈ Kind.operators }} :
    w ∈ (operator kind).language ↔ w = kind.val.name :=
  mem_only _ _

/-- Every lexeme has a byte. -/
theorem nil_notMem (p : Pattern) : [] ∉ p.language := by
  cases p with
  | lineComment => exact (isByte_char _).nil_notMem_mul
  | blockComment => exact (isByte_char _).nil_notMem_mul
  | string => exact (isByte_char _).nil_notMem_mul
  | word =>
    exact (((isByte_byte _).add (isByte_byte _)).add (isByte_char _)).nil_notMem_mul
  | numeral =>
    intro h
    obtain ⟨x, hx, y, -, hxy⟩ := Language.mem_mul.mp h
    exact ((isByte_byte _).mem_many x).mp hx |>.1 (List.append_eq_nil_iff.mp hxy).1
  | blank =>
    exact ((((isByte_char _).add (isByte_char _)).add (isByte_char _)).add
      (isByte_char _)).nil_notMem_mul
  | operator kind =>
    have hname : ∀ k ∈ Kind.operators, k.name ≠ [] := by decide +kernel
    exact fun h => hname _ kind.property (mem_operator.mp h).symm

end Pattern

end Dynascope
