import Dynascope.Proofs.Token.Pattern

/-!
# The segment at the front

Which segment stands at the front of a text, and how it relates to the patterns.

* `Segment.front_blank`, `Segment.front_word` and so on: the segment, by its first byte.
* `Segment.front_fits`: the segment is a lexeme of its class, unless it is an error.
* `Segment.front_covers`: no lexeme at the front is longer than the segment.
* `Segment.front_error`: an error is a byte that starts no lexeme or a string that is not closed.
* `Pattern.language_disjoint`: no word matches two patterns.
-/

namespace Dynascope

/-! ## Bytes at which lexemes start -/

/-- The class of the segments that match a pattern. -/
def Pattern.cls : Pattern → SegmentClass
  | lineComment => .comment
  | blockComment => .comment
  | string => .string
  | word => .word
  | numeral => .numeral
  | blank => .blank
  | operator kind => .operator kind

/-- Whether no lexeme stands at the place of the segment. -/
def SegmentClass.isError : SegmentClass → Bool
  | stray => true
  | openString => true
  | _ => false

namespace Segment

variable {a b : UInt8} {rest w : Text} {k : Kind}

theorem isBlank_iff : isBlank a = true ↔ a = 0x20 ∨ a = 0x09 ∨ a = 0x0a ∨ a = 0x0d := by
  simp [isBlank, or_assoc]

theorem not_isBlank_of_isWordStart (h : isWordStart a = true) : isBlank a = false := by
  by_contra hb
  rw [Bool.not_eq_false, isBlank_iff] at hb
  rcases hb with rfl | rfl | rfl | rfl <;> revert h <;> decide

theorem not_isBlank_of_isDigit (h : Text.isDigit a = true) : isBlank a = false := by
  by_contra hb
  rw [Bool.not_eq_false, isBlank_iff] at hb
  rcases hb with rfl | rfl | rfl | rfl <;> revert h <;> decide

theorem not_isWordStart_of_isDigit (h : Text.isDigit a = true) : isWordStart a = false := by
  simp only [Text.isDigit, isWordStart, Bool.and_eq_true, decide_eq_true_eq, Bool.or_eq_false_iff,
    Bool.and_eq_false_iff, decide_eq_false_iff_not, UInt8.le_iff_toNat_le, ← UInt8.toNat_inj] at h ⊢
  simp only [UInt8.reduceToNat] at h ⊢
  omega

/-- Whether the first byte of an operator is an operator by itself and starts no other lexeme, and
whether the operator is found by its bytes. Only a slash may also start a comment. -/
def operatorFound (k : Kind) : Bool :=
  match k.name with
  | a :: w =>
    !isBlank a && !isWordStart a && !Text.isDigit a && a != Text.quote && (operator? a).isSome &&
      match w with
      | [] => operator? a == some k
      | [b] => operator2? a b == some k && a != 0x2f
      | _ => false
  | [] => false

/-- How the name of an operator is made up. -/
structure OperatorBytes (k : Kind) (a : UInt8) (w : Text) : Prop where
  blank : isBlank a = false
  word : isWordStart a = false
  digit : Text.isDigit a = false
  quote : a ≠ Text.quote
  found : (operator? a).isSome
  name : w = [] ∧ operator? a = some k ∨ ∃ b, w = [b] ∧ operator2? a b = some k ∧ a ≠ 0x2f

theorem operatorBytes (hk : k ∈ Kind.operators) (hname : k.name = a :: w) :
    OperatorBytes k a w := by
  have hall : ∀ k ∈ Kind.operators, operatorFound k = true := by decide +kernel
  have hfound := hall k hk
  unfold operatorFound at hfound
  rw [hname] at hfound
  simp only [Bool.and_eq_true, Bool.not_eq_true', bne_iff_ne, ne_eq] at hfound
  obtain ⟨⟨⟨⟨⟨hblank, hword⟩, hdigit⟩, hquote⟩, hsome⟩, hlast⟩ := hfound
  refine ⟨hblank, hword, hdigit, hquote, hsome, ?_⟩
  match w, hlast with
  | [], hlast => exact .inl ⟨rfl, beq_iff_eq.mp hlast⟩
  | [b], hlast =>
    simp only [Bool.and_eq_true, beq_iff_eq, bne_iff_ne] at hlast
    exact .inr ⟨b, rfl, hlast⟩

theorem operator?_eq_some (h : operator? a = some k) : k ∈ Kind.operators ∧ k.name = [a] :=
  ⟨List.mem_of_find?_eq_some h, by simpa using List.find?_some h⟩

theorem operator2?_eq_some (h : operator2? a b = some k) :
    k ∈ Kind.operators ∧ k.name = [a, b] :=
  ⟨List.mem_of_find?_eq_some h, by simpa using List.find?_some h⟩

/-! ## The segment at the front -/

theorem front_blank (h : isBlank a = true) : front a rest = (.blank, run isBlank rest) :=
  if_pos h

theorem front_word (h : isWordStart a = true) : front a rest = (.word, run isWordByte rest) := by
  have hblank : ¬ isBlank a = true := by simp [not_isBlank_of_isWordStart h]
  exact (if_neg hblank).trans (if_pos h)

theorem front_numeral (h : Text.isDigit a = true) : front a rest = (.numeral, numeralRun rest) := by
  have hblank : ¬ isBlank a = true := by simp [not_isBlank_of_isDigit h]
  have hword : ¬ isWordStart a = true := by simp [not_isWordStart_of_isDigit h]
  exact (if_neg hblank).trans ((if_neg hword).trans (if_pos h))

/-- A double quote opens a string. -/
theorem front_quote (rest : Text) : front Text.quote rest =
    match stringEnd? rest with
    | some n => (.string, n)
    | none => (.openString, rest.length) :=
  rfl

theorem front_string {n : Nat} (h : stringEnd? rest = some n) :
    front Text.quote rest = (.string, n) := by
  rw [front_quote, h]

theorem front_openString (h : stringEnd? rest = none) :
    front Text.quote rest = (.openString, rest.length) := by
  rw [front_quote, h]

theorem front_lineComment (line : Text) :
    front 0x2f (0x2f :: line) = (.comment, 1 + run (· ≠ Text.newline) line) :=
  rfl

/-- A slash and a star open a comment if it is closed somewhere. -/
theorem front_slashStar (body : Text) : front 0x2f (0x2a :: body) =
    match commentEnd? body with
    | some n => (.comment, 1 + n)
    | none => (.operator .slash, 0) :=
  rfl

theorem front_blockComment {body : Text} {n : Nat} (h : commentEnd? body = some n) :
    front 0x2f (0x2a :: body) = (.comment, 1 + n) := by
  rw [front_slashStar, h]

/-- The opening of a comment that is never closed is two operators. -/
theorem front_openComment {body : Text} (h : commentEnd? body = none) :
    front 0x2f (0x2a :: body) = (.operator .slash, 0) := by
  rw [front_slashStar, h]

theorem front_slash (h : rest.head? ≠ some 0x2f) (h' : rest.head? ≠ some 0x2a) :
    front 0x2f rest = (.operator .slash, 0) := by
  have hb : isBlank 0x2f = false := by decide
  have hw : isWordStart 0x2f = false := by decide
  have hd : Text.isDigit 0x2f = false := by decide
  have hq : (0x2f : UInt8) ≠ Text.quote := by decide
  cases rest with
  | nil => rfl
  | cons b rest =>
    have hslash : b ≠ 0x2f := fun hb => h (by rw [hb]; rfl)
    have hstar : b ≠ 0x2a := fun hb => h' (by rw [hb]; rfl)
    simp [front, hb, hw, hd, hq, hslash, hstar]

/-- A byte that is none of the bytes above is left to the operators. -/
theorem front_other (hb : isBlank a = false) (hw : isWordStart a = false)
    (hd : Text.isDigit a = false) (hq : a ≠ Text.quote) (hs : a ≠ 0x2f) :
    front a rest = operatorFront a rest := by
  simp [front, hb, hw, hd, hq, hs]

/-- A star is an operator by itself, whatever follows. -/
theorem front_star (rest : Text) : front 0x2a rest = (.operator .star, 0) := by
  have hall : ∀ k ∈ Kind.operators, k.name.head? = some 0x2a → k.name.length = 1 := by
    decide +kernel
  have hnone : rest.head?.bind (operator2? 0x2a) = none := by
    refine Option.eq_none_iff_forall_ne_some.mpr fun k hk => ?_
    obtain ⟨b, -, hb⟩ := Option.bind_eq_some_iff.mp hk
    obtain ⟨hmem, hname⟩ := operator2?_eq_some hb
    have hlength := hall k hmem (by rw [hname]; rfl)
    rw [hname] at hlength
    cases hlength
  have hstar : operator? 0x2a = some .star := by decide +kernel
  rw [front_other (by decide) (by decide) (by decide) (by decide) (by decide)]
  simp [operatorFront, hnone, hstar]

/-- The segment is an error or a lexeme of its class. -/
def Fits (a : UInt8) (rest : Text) (found : SegmentClass × Nat) : Prop :=
  found.2 ≤ rest.length ∧ (found.1.isError = true ∨
    ∃ p : Pattern, p.cls = found.1 ∧ a :: rest.take found.2 ∈ p.language)

theorem operatorFront_fits (a : UInt8) (rest : Text) : Fits a rest (operatorFront a rest) := by
  unfold operatorFront
  split
  next kind hkind =>
    obtain ⟨b, hhead, hkind⟩ := Option.bind_eq_some_iff.mp hkind
    obtain ⟨rest, rfl⟩ : ∃ tail, rest = b :: tail := by
      cases rest with
      | nil => cases hhead
      | cons c tail => exact ⟨tail, by rw [Option.some.inj hhead]⟩
    obtain ⟨hmem, hname⟩ := operator2?_eq_some hkind
    exact ⟨Nat.le_add_left 1 _,
      .inr ⟨.operator ⟨kind, hmem⟩, rfl, Pattern.mem_operator.mpr hname.symm⟩⟩
  next =>
    split
    next kind hkind =>
      obtain ⟨hmem, hname⟩ := operator?_eq_some hkind
      exact ⟨Nat.zero_le _,
        .inr ⟨.operator ⟨kind, hmem⟩, rfl, Pattern.mem_operator.mpr hname.symm⟩⟩
    next => exact ⟨Nat.zero_le _, .inl rfl⟩

/-- A slash alone is a lexeme. -/
theorem slash_fits (rest : Text) : Fits 0x2f rest (.operator .slash, 0) := by
  have hname : [0x2f] = Kind.slash.name := by decide +kernel
  exact ⟨Nat.zero_le _, .inr ⟨.operator ⟨.slash, by decide⟩, rfl, Pattern.mem_operator.mpr hname⟩⟩

theorem front_slash_fits (rest : Text) : Fits 0x2f rest (front 0x2f rest) := by
  by_cases hslash : rest.head? = some 0x2f
  · obtain ⟨line, rfl⟩ := List.head?_eq_some_iff.mp hslash
    rw [front_lineComment]
    have hle := run_le_length (· ≠ Text.newline) line
    refine ⟨by rw [List.length_cons]; omega, .inr ⟨.lineComment, rfl, ?_⟩⟩
    refine Pattern.mem_lineComment.mpr ⟨rfl, line.takeWhile (· ≠ Text.newline), ?_, ?_⟩
    · rw [Nat.add_comm, List.take_succ_cons, take_run]
    · intro b hb
      simpa using List.mem_takeWhile_imp hb
  by_cases hstar : rest.head? = some 0x2a
  · obtain ⟨body, rfl⟩ := List.head?_eq_some_iff.mp hstar
    cases hend : commentEnd? body with
    | none =>
      rw [front_openComment hend]
      exact slash_fits _
    | some n =>
      rw [front_blockComment hend]
      obtain ⟨hle, htake⟩ := commentEnd?_take hend
      refine ⟨by rw [List.length_cons]; omega, .inr ⟨.blockComment, rfl, ?_⟩⟩
      refine Pattern.mem_blockComment.mpr ⟨rfl, body.take n, ?_, ?_⟩
      · rw [Nat.add_comm, List.take_succ_cons]
      · rw [htake, List.length_take_of_le hle]
  · rw [front_slash hslash hstar]
    exact slash_fits _

/-- The segment at the front is a lexeme of its class, unless it is an error. -/
theorem front_fits (a : UInt8) (rest : Text) : Fits a rest (front a rest) := by
  by_cases hb : isBlank a = true
  · rw [front_blank hb]
    refine ⟨run_le_length _ _, .inr ⟨.blank, rfl, Pattern.mem_blank.mpr ⟨hb, ?_⟩⟩⟩
    rw [take_run]
    exact fun b hb => List.mem_takeWhile_imp hb
  by_cases hw : isWordStart a = true
  · rw [front_word hw]
    refine ⟨run_le_length _ _, .inr ⟨.word, rfl, Pattern.mem_word.mpr ⟨hw, ?_⟩⟩⟩
    rw [take_run]
    exact fun b hb => List.mem_takeWhile_imp hb
  by_cases hd : Text.isDigit a = true
  · rw [front_numeral hd]
    refine ⟨numeralRun_le_length _, .inr ⟨.numeral, rfl, Pattern.mem_numeral.mpr ⟨hd, ?_⟩⟩⟩
    rw [numeralRun_take, List.length_take_of_le (numeralRun_le_length rest)]
  by_cases hq : a = Text.quote
  · subst hq
    cases hend : stringEnd? rest with
    | none =>
      rw [front_openString hend]
      exact ⟨Nat.le_refl _, .inl rfl⟩
    | some n =>
      rw [front_string hend]
      obtain ⟨hle, htake⟩ := stringEnd?_take hend
      refine ⟨hle, .inr ⟨.string, rfl, Pattern.mem_string.mpr ⟨rfl, ?_⟩⟩⟩
      rw [htake, List.length_take_of_le hle]
  by_cases hs : a = 0x2f
  · subst hs
    exact front_slash_fits rest
  · rw [front_other (by simpa using hb) (by simpa using hw) (by simpa using hd) hq hs]
    exact operatorFront_fits a rest

/-- The segment is at least as long as a lexeme, and if it is no longer, it is of the same class. -/
def Covers (q : Pattern) (w : Text) (found : SegmentClass × Nat) : Prop :=
  w.length ≤ found.2 ∧ found.1.isError = false ∧ (w.length = found.2 → q.cls = found.1)

/-- A segment of the class and length of a lexeme. -/
theorem Covers.same {q : Pattern} {found : SegmentClass × Nat} (h : found = (q.cls, w.length)) :
    Covers q w found := by
  subst h
  exact ⟨Nat.le_refl _, by cases q <;> rfl, fun _ => rfl⟩

theorem Covers.of_cls {q : Pattern} {n : Nat} (h : w.length ≤ n) : Covers q w (q.cls, n) :=
  ⟨h, by cases q <;> rfl, fun _ => rfl⟩

theorem front_covers_operator {kind : { k : Kind // k ∈ Kind.operators }}
    (hname : kind.val.name = a :: w) (hw : w <+: rest) :
    Covers (.operator kind) w (front a rest) := by
  have hbytes := operatorBytes kind.property hname
  obtain ⟨k', hk'⟩ := Option.isSome_iff_exists.mp hbytes.found
  rcases hbytes.name with ⟨rfl, hkind⟩ | ⟨b, rfl, hkind, ha⟩
  · by_cases ha : a = 0x2f
    · subst ha
      have hslash : kind.val = .slash := Option.some.inj (hkind.symm.trans (by decide +kernel))
      by_cases hslash' : rest.head? = some 0x2f
      · obtain ⟨line, rfl⟩ := List.head?_eq_some_iff.mp hslash'
        rw [front_lineComment]
        refine ⟨Nat.zero_le _, rfl, fun h => ?_⟩
        simp at h
        omega
      by_cases hstar : rest.head? = some 0x2a
      · obtain ⟨body, rfl⟩ := List.head?_eq_some_iff.mp hstar
        cases hend : commentEnd? body with
        | none =>
          rw [front_openComment hend]
          exact .same (by rw [Pattern.cls, hslash]; rfl)
        | some n =>
          rw [front_blockComment hend]
          refine ⟨Nat.zero_le _, rfl, fun h => ?_⟩
          simp at h
          omega
      · rw [front_slash hslash' hstar]
        exact .same (by rw [Pattern.cls, hslash]; rfl)
    · rw [front_other hbytes.blank hbytes.word hbytes.digit hbytes.quote ha, operatorFront]
      split
      next kind' hkind' => exact ⟨Nat.zero_le _, rfl, nofun⟩
      next =>
        rw [hkind]
        exact .same rfl
  · rw [front_other hbytes.blank hbytes.word hbytes.digit hbytes.quote ha, operatorFront]
    obtain ⟨tail, rfl⟩ := hw
    have hhead : ([b] ++ tail).head?.bind (operator2? a) = some kind.val := hkind
    rw [hhead]
    exact .same rfl

/-- No lexeme at the front is longer than the segment there, and an error segment stands only where
there is no lexeme. -/
theorem front_covers {q : Pattern} (hq : a :: w ∈ q.language) (hw : w <+: rest) :
    Covers q w (front a rest) := by
  cases q with
  | lineComment =>
    obtain ⟨rfl, line, rfl, hline⟩ := Pattern.mem_lineComment.mp hq
    obtain ⟨u, rfl⟩ := hw
    have hle : line.length ≤ run (· ≠ Text.newline) (line ++ u) :=
      length_le_run (List.prefix_append _ _) (by simpa using hline)
    rw [List.cons_append, front_lineComment]
    exact .of_cls (q := .lineComment) (by rw [List.length_cons]; omega)
  | blockComment =>
    obtain ⟨rfl, body, rfl, hbody⟩ := Pattern.mem_blockComment.mp hq
    obtain ⟨u, rfl⟩ := hw
    rw [List.cons_append, front_blockComment (commentEnd?_append hbody u)]
    exact .of_cls (q := .blockComment) (by rw [List.length_cons]; omega)
  | string =>
    obtain ⟨rfl, hbody⟩ := Pattern.mem_string.mp hq
    obtain ⟨u, rfl⟩ := hw
    rw [front_string (stringEnd?_append hbody u)]
    exact .same rfl
  | word =>
    obtain ⟨ha, hbytes⟩ := Pattern.mem_word.mp hq
    rw [front_word ha]
    exact .of_cls (q := .word) (length_le_run hw hbytes)
  | numeral =>
    obtain ⟨ha, hrun⟩ := Pattern.mem_numeral.mp hq
    rw [front_numeral ha]
    exact .of_cls (q := .numeral) (length_le_numeralRun hw hrun)
  | blank =>
    obtain ⟨ha, hbytes⟩ := Pattern.mem_blank.mp hq
    rw [front_blank ha]
    exact .of_cls (q := .blank) (length_le_run hw hbytes)
  | operator kind => exact front_covers_operator (Pattern.mem_operator.mp hq).symm hw

/-- No lexeme starts with the byte. -/
structure StartsNothing (a : UInt8) : Prop where
  blank : isBlank a = false
  word : isWordStart a = false
  digit : Text.isDigit a = false
  quote : a ≠ Text.quote
  slash : a ≠ 0x2f
  operator : operator? a = none

/-- A byte that starts no lexeme is a segment of its own, whatever follows. -/
theorem StartsNothing.front_eq (h : StartsNothing a) (rest : Text) :
    front a rest = (.stray, 0) := by
  rw [front_other h.blank h.word h.digit h.quote h.slash, operatorFront, h.operator]
  split
  next kind hkind =>
    obtain ⟨b, -, hkind⟩ := Option.bind_eq_some_iff.mp hkind
    obtain ⟨hmem, hname⟩ := operator2?_eq_some hkind
    have hfound := (operatorBytes hmem hname).found
    rw [h.operator] at hfound
    cases hfound
  next => rfl

theorem StartsNothing.notMem (h : StartsNothing a) (q : Pattern) (w : Text) :
    a :: w ∉ q.language := by
  intro hq
  have hcovers := (front_covers hq (List.prefix_refl w)).2.1
  rw [h.front_eq] at hcovers
  cases hcovers

/-- An error segment is a byte that starts no lexeme or an open string. -/
theorem front_error (h : (front a rest).1.isError = true) :
    StartsNothing a ∨ a = Text.quote ∧ stringEnd? rest = none := by
  by_cases hb : isBlank a = true
  · rw [front_blank hb] at h
    cases h
  by_cases hw : isWordStart a = true
  · rw [front_word hw] at h
    cases h
  by_cases hd : Text.isDigit a = true
  · rw [front_numeral hd] at h
    cases h
  by_cases hq : a = Text.quote
  · subst hq
    cases hend : stringEnd? rest with
    | none => exact .inr ⟨rfl, rfl⟩
    | some n =>
      rw [front_string hend] at h
      cases h
  have hlexeme : ∀ kind, operator? a ≠ some kind := by
    intro kind hkind
    obtain ⟨hmem, hname⟩ := operator?_eq_some hkind
    have hcovers := (front_covers (q := .operator ⟨kind, hmem⟩)
      (Pattern.mem_operator.mpr hname.symm) (List.nil_prefix (l := rest))).2.1
    rw [hcovers] at h
    cases h
  have hs : a ≠ 0x2f := by
    rintro rfl
    exact hlexeme .slash (by decide +kernel)
  exact .inl ⟨by simpa using hb, by simpa using hw, by simpa using hd, hq, hs,
    Option.eq_none_iff_forall_ne_some.mpr hlexeme⟩

end Segment

namespace Pattern

/-- The class tells all patterns apart but the two kinds of comments. -/
theorem cls_eq {p q : Pattern} (h : p.cls = q.cls) :
    p = q ∨ p = lineComment ∧ q = blockComment ∨ p = blockComment ∧ q = lineComment := by
  cases p <;> cases q <;> simp_all [cls, Subtype.ext_iff]

/-- **One pattern for each word.** No word matches two patterns. -/
theorem language_disjoint {p q : Pattern} {w : Text} (hp : w ∈ p.language)
    (hq : w ∈ q.language) : p = q := by
  cases w with
  | nil => exact absurd hp (nil_notMem p)
  | cons a w =>
    have hle := (Segment.front_fits a w).1
    obtain ⟨hple, -, hpcls⟩ := Segment.front_covers hp (List.prefix_refl w)
    obtain ⟨hqle, -, hqcls⟩ := Segment.front_covers hq (List.prefix_refl w)
    have hcls : p.cls = q.cls := (hpcls (by omega)).trans (hqcls (by omega)).symm
    have hcomments : a :: w ∈ lineComment.language → a :: w ∉ blockComment.language := by
      intro hline hblock
      obtain ⟨-, line, rfl, -⟩ := mem_lineComment.mp hline
      obtain ⟨-, body, hbody, -⟩ := mem_blockComment.mp hblock
      cases hbody
    rcases cls_eq hcls with h | ⟨rfl, rfl⟩ | ⟨rfl, rfl⟩
    · exact h
    · exact absurd hq (hcomments hp)
    · exact absurd hp (hcomments hq)

end Pattern

end Dynascope
