import Dynascope.Proofs.Token.Places

/-!
# Where comments and strings end

* `FirstFrom w source i j`: from the offset `i` on, the word first occurs at the offset `j`.
* `Segment.commentEnd?_of_firstFrom`, `Segment.stringEnd?_of_firstFrom`, `Segment.run_of_firstFrom`:
  the functions that measure comments and strings find the first occurrence of what ends them.
* `delimited_end`: a block comment ends with the first `*/` behind its opening, a line comment
  before the next newline, and a string with the next double quote. The opening of a comment that
  never ends is two operators.
-/

namespace Dynascope

/-- From the offset `i` on, the word occurs in the source, and its first occurrence is at `j`. -/
structure FirstFrom (w source : Text) (i j : Nat) : Prop where
  le : i ≤ j
  occurs : w <+: source.drop j
  first : ∀ k < j, i ≤ k → ¬ w <+: source.drop k

instance (w source : Text) (i j : Nat) : Decidable (FirstFrom w source i j) :=
  decidable_of_iff (i ≤ j ∧ w <+: source.drop j ∧ ∀ k < j, i ≤ k → ¬ w <+: source.drop k)
    ⟨fun ⟨hle, hoccurs, hfirst⟩ => ⟨hle, hoccurs, hfirst⟩, fun h => ⟨h.le, h.occurs, h.first⟩⟩

namespace FirstFrom

variable {w source t : Text} {a b : UInt8} {i k : Nat}

/-- What is said of an offset of the source can be said of the rest of the source. -/
theorem in_rest (h : FirstFrom w source i (i + k)) : FirstFrom w (source.drop i) 0 k where
  le := Nat.zero_le k
  occurs := by
    rw [List.drop_drop]
    exact h.occurs
  first l hl _ := by
    rw [List.drop_drop]
    exact h.first (i + l) (by omega) (Nat.le_add_right i l)

theorem eq_zero (h : FirstFrom w t 0 k) (hw : w <+: t) : k = 0 := by
  by_contra hne
  exact h.first 0 (Nat.pos_of_ne_zero hne) (Nat.le_refl 0) hw

/-- Where the word does not stand at the front, it is looked for behind the first byte. -/
theorem of_cons (h : FirstFrom w (a :: t) 0 k) (hw : ¬ w <+: a :: t) :
    ∃ l, k = l + 1 ∧ FirstFrom w t 0 l := by
  cases k with
  | zero => exact absurd h.occurs hw
  | succ l =>
    refine ⟨l, rfl, Nat.zero_le l, h.occurs, fun m hm _ => ?_⟩
    exact h.first (m + 1) (Nat.succ_lt_succ hm) (Nat.zero_le _)

/-- The bytes before the first occurrence of a byte are other bytes. -/
theorem split (h : FirstFrom [b] t 0 k) :
    ∃ body rest, t = body ++ b :: rest ∧ body.length = k ∧ ∀ c ∈ body, c ≠ b := by
  induction t generalizing k with
  | nil =>
    have hoccurs := h.occurs
    rw [List.drop_nil, List.prefix_nil] at hoccurs
    cases hoccurs
  | cons a t ih =>
    by_cases hab : a = b
    · subst hab
      have hfront : [a] <+: a :: t := List.cons_prefix_cons.mpr ⟨rfl, List.nil_prefix⟩
      exact ⟨[], t, rfl, (h.eq_zero hfront).symm, nofun⟩
    · have hfront : ¬ [b] <+: a :: t := fun hw => hab (List.cons_prefix_cons.mp hw).1.symm
      obtain ⟨l, rfl, hl⟩ := h.of_cons hfront
      obtain ⟨body, rest, rfl, rfl, hbody⟩ := ih hl
      exact ⟨a :: body, rest, rfl, rfl, List.forall_mem_cons.mpr ⟨hab, hbody⟩⟩

end FirstFrom

namespace Segment

variable {source t body line : Text} {i j k : Nat}

/-! ## What the measures find -/

/-- Where a comment does not end, its end is looked for from the next byte on. -/
theorem commentEnd?_cons_of_not_closed {a : UInt8} (h : ¬ [0x2a, 0x2f] <+: a :: t) :
    commentEnd? (a :: t) = (commentEnd? t).map (· + 1) := by
  refine commentEnd?_cons ?_
  by_contra hclose
  simp only [not_or, not_not] at hclose
  obtain ⟨rfl, hhead⟩ := hclose
  obtain ⟨rest, rfl⟩ := List.head?_eq_some_iff.mp hhead
  exact h ⟨rest, rfl⟩

theorem commentEnd?_of_firstFrom (h : FirstFrom [0x2a, 0x2f] t 0 k) :
    commentEnd? t = some (k + 2) := by
  induction t generalizing k with
  | nil => exact absurd (List.prefix_nil.mp (List.drop_nil ▸ h.occurs)) (List.cons_ne_nil _ _)
  | cons a t ih =>
    by_cases hfront : [0x2a, 0x2f] <+: a :: t
    · obtain rfl := h.eq_zero hfront
      obtain ⟨rest, hrest⟩ := hfront
      rw [← hrest]
      rfl
    · obtain ⟨l, rfl, hl⟩ := h.of_cons hfront
      rw [commentEnd?_cons_of_not_closed hfront, ih hl]
      rfl

theorem commentEnd?_eq_none (h : ¬ [0x2a, 0x2f] <:+: t) : commentEnd? t = none := by
  induction t with
  | nil => rfl
  | cons a t ih =>
    rw [List.infix_cons_iff, not_or] at h
    rw [commentEnd?_cons_of_not_closed h.1, ih h.2]
    rfl

theorem stringEnd?_of_firstFrom (h : FirstFrom [Text.quote] t 0 k) :
    stringEnd? t = some (k + 1) := by
  obtain ⟨body, rest, rfl, rfl, hbody⟩ := h.split
  have hend : stringEnd? (body ++ [Text.quote]) = some (body ++ [Text.quote]).length :=
    stringEnd?_eq_length.mpr ⟨body, rfl, hbody⟩
  rw [List.append_cons, stringEnd?_append hend, List.length_append, List.length_singleton]

theorem run_of_firstFrom {b : UInt8} (h : FirstFrom [b] t 0 k) : run (· ≠ b) t = k := by
  obtain ⟨body, rest, rfl, rfl, hbody⟩ := h.split
  rw [run_append_cons (by simp)]
  exact run_eq_length.mpr (by simpa using hbody)

/-! ## What is taken -/

/-- The rest of a source behind its first two bytes. -/
theorem drop_two {a b : UInt8} (h : source.drop i = a :: b :: body) :
    source.drop (i + 2) = body := by
  rw [← List.drop_drop, h]
  rfl

theorem takes_blockComment (h : Starts source i) (hrest : source.drop i = 0x2f :: 0x2a :: body)
    (hend : FirstFrom [0x2a, 0x2f] source (i + 2) j) : Takes source i (j + 2) [] ∧
      Munch (source.drop i) (source.extract i (j + 2)) .blockComment := by
  obtain ⟨k, rfl⟩ := Nat.exists_eq_add_of_le hend.le
  have hbody := hend.in_rest
  rw [drop_two hrest] at hbody
  have hclose := commentEnd?_of_firstFrom hbody
  obtain ⟨hle, htake⟩ := commentEnd?_take hclose
  rw [show i + 2 + k + 2 = i + (1 + (k + 2) + 1) by omega]
  refine h.takes_lexeme (p := .blockComment) hrest (front_blockComment hclose) ?_
  refine Pattern.mem_blockComment.mpr ⟨rfl, body.take (k + 2), ?_, ?_⟩
  · rw [Nat.add_comm, List.take_succ_cons]
  · rw [htake, List.length_take_of_le hle]

/-- The opening of a comment that is not closed is a slash and a star, and the scanner goes on
behind them. -/
theorem takes_openComment (h : Starts source i) (hrest : source.drop i = 0x2f :: 0x2a :: body)
    (hopen : ¬ [0x2a, 0x2f] <:+: source.drop (i + 2)) :
    Takes source i (i + 1) [.token ⟨.slash, [0x2f], none, positionAt source i⟩] ∧
      Takes source (i + 1) (i + 2) [.token ⟨.star, [0x2a], none, positionAt source (i + 1)⟩] := by
  rw [drop_two hrest] at hopen
  have hslash := h.takes hrest (front_openComment (commentEnd?_eq_none hopen))
  have hstar : source.drop (i + 1) = 0x2a :: body := by
    rw [← List.drop_drop, hrest]
    rfl
  have hnext : Starts source (i + 1) := by
    refine hslash.next.resolve_left fun hend => ?_
    rw [Nat.zero_add] at hend
    rw [hend, List.drop_length] at hstar
    cases hstar
  exact ⟨hslash, hnext.takes hstar (front_star body)⟩

/-- A line comment reaches up to the first newline, or to the end of the source. -/
theorem lineComment_end (hrest : source.drop i = 0x2f :: 0x2f :: line)
    (hend : FirstFrom [Text.newline] source i j ∨
      Text.newline ∉ source.drop i ∧ j = source.length) :
    i + (1 + run (· ≠ Text.newline) line + 1) = j := by
  have hslash (t : Text) : ¬ [Text.newline] <+: 0x2f :: t :=
    fun h => absurd (List.cons_prefix_cons.mp h).1 (by decide)
  rcases hend with hend | ⟨hnone, rfl⟩
  · obtain ⟨k, rfl⟩ := Nat.exists_eq_add_of_le hend.le
    have hbody := hend.in_rest
    rw [hrest] at hbody
    obtain ⟨l, rfl, hl⟩ := hbody.of_cons (hslash _)
    obtain ⟨m, rfl, hm⟩ := hl.of_cons (hslash _)
    rw [run_of_firstFrom hm]
    omega
  · have hline : Text.newline ∉ line := by
      rw [hrest] at hnone
      exact fun h => hnone (List.mem_cons_of_mem _ (List.mem_cons_of_mem _ h))
    have hrun : run (· ≠ Text.newline) line = line.length :=
      run_eq_length.mpr fun b hb => decide_eq_true fun h => hline (h ▸ hb)
    have hlength := congrArg List.length hrest
    rw [List.length_drop, List.length_cons, List.length_cons] at hlength
    omega

theorem takes_lineComment (h : Starts source i) (hrest : source.drop i = 0x2f :: 0x2f :: line)
    (hend : FirstFrom [Text.newline] source i j ∨
      Text.newline ∉ source.drop i ∧ j = source.length) :
    Takes source i j [] ∧ Munch (source.drop i) (source.extract i j) .lineComment := by
  rw [← lineComment_end hrest hend]
  refine h.takes_lexeme (p := .lineComment) hrest (front_lineComment line) ?_
  refine Pattern.mem_lineComment.mpr ⟨rfl, line.takeWhile (· ≠ Text.newline), ?_, ?_⟩
  · rw [Nat.add_comm, List.take_succ_cons, take_run]
  · intro b hb
    simpa using List.mem_takeWhile_imp hb

/-- What stands between the quotes of a string. -/
theorem unquote_extract (h : i < j) (hj : j < source.length) :
    unquote (source.extract i (j + 1)) = source.extract (i + 1) j := by
  rw [unquote, List.extract_eq_take_drop, List.extract_eq_take_drop, List.drop_take,
    List.drop_drop, List.dropLast_eq_take, List.take_take, List.length_take, List.length_drop]
  congr 1
  omega

theorem takes_string (h : Starts source i) (hrest : source.drop i = Text.quote :: body)
    (hend : FirstFrom [Text.quote] source (i + 1) j) :
    Takes source i (j + 1) [.token ⟨.string, source.extract i (j + 1),
        some (.string (source.extract (i + 1) j)), positionAt source i⟩] ∧
      Munch (source.drop i) (source.extract i (j + 1)) .string := by
  have hlength : j < source.length := by
    have hle := hend.occurs.length_le
    rw [List.length_singleton, List.length_drop] at hle
    omega
  rw [← unquote_extract (Nat.lt_of_succ_le hend.le) hlength]
  obtain ⟨k, rfl⟩ := Nat.exists_eq_add_of_le hend.le
  have hbody := hend.in_rest
  rw [show source.drop (i + 1) = body by rw [← List.drop_drop, hrest]; rfl] at hbody
  have hclose := stringEnd?_of_firstFrom hbody
  obtain ⟨hle, htake⟩ := stringEnd?_take hclose
  rw [show i + 1 + k + 1 = i + (k + 1 + 1) by omega]
  refine h.takes_lexeme (p := .string) hrest (front_string hclose) ?_
  refine Pattern.mem_string.mpr ⟨rfl, ?_⟩
  rw [htake, List.length_take_of_le hle]

end Segment

open Segment

/-- **Where comments and strings end.** Where a segment starts with the opening of a block comment,
it reaches up to the first closing behind the opening; if there is none, a slash and a star are
taken, and scanning goes on behind them. A line comment reaches up to the next newline or the end of
the source. A string reaches up to the next double quote, and its value is what stands between the
two. Each of them is the longest match of its pattern. -/
theorem delimited_end {source : Text} {i : Nat} (h : Starts source i) :
    (("/*" : Text) <+: source.drop i →
      (∀ j, FirstFrom "*/" source (i + 2) j → Takes source i (j + 2) [] ∧
        Munch (source.drop i) (source.extract i (j + 2)) .blockComment) ∧
      (¬ ("*/" : Text) <:+: source.drop (i + 2) →
        Takes source i (i + 1) [.token ⟨.slash, "/", none, positionAt source i⟩] ∧
        Takes source (i + 1) (i + 2) [.token ⟨.star, "*", none, positionAt source (i + 1)⟩] ∧
        (i + 2 = source.length ∨ Starts source (i + 2)))) ∧
    (("//" : Text) <+: source.drop i →
      ∀ j, FirstFrom [Text.newline] source i j ∨
          Text.newline ∉ source.drop i ∧ j = source.length →
        Takes source i j [] ∧ Munch (source.drop i) (source.extract i j) .lineComment) ∧
    ([Text.quote] <+: source.drop i →
      ∀ j, FirstFrom [Text.quote] source (i + 1) j →
        Takes source i (j + 1) [.token ⟨.string, source.extract i (j + 1),
            some (.string (source.extract (i + 1) j)), positionAt source i⟩] ∧
          Munch (source.drop i) (source.extract i (j + 1)) .string) := by
  have hblock : ("/*" : Text) = [0x2f, 0x2a] := by decide +kernel
  have hclose : ("*/" : Text) = [0x2a, 0x2f] := by decide +kernel
  have hline : ("//" : Text) = [0x2f, 0x2f] := by decide +kernel
  have hslash : ("/" : Text) = [0x2f] := by decide +kernel
  have hstar : ("*" : Text) = [0x2a] := by decide +kernel
  rw [hblock, hclose, hline, hslash, hstar]
  refine ⟨fun hfront => ?block, fun hfront j hend => ?line, fun hfront j hend => ?string⟩
  case block =>
    obtain ⟨body, hbody⟩ := hfront
    refine ⟨fun j hend => takes_blockComment h hbody.symm hend, fun hopen => ?_⟩
    obtain ⟨htake, htake'⟩ := takes_openComment h hbody.symm hopen
    exact ⟨htake, htake', htake'.next⟩
  case line =>
    obtain ⟨line, hbody⟩ := hfront
    exact takes_lineComment h hbody.symm hend
  case string =>
    obtain ⟨body, hbody⟩ := hfront
    exact takes_string h hbody.symm hend

/-- A comment, a string and a line comment that hold delimiters of each other, and a comment that is
never closed. -/
def tangled : Text := "/*/***/\"//\"//x\n/*"

theorem delimited_end_tangled : Takes tangled 0 7 [] ∧
    Takes tangled 7 11 [.token ⟨.string, "\"//\"", some (.string "//"), positionAt tangled 7⟩] ∧
    Takes tangled 11 14 [] ∧
    Takes tangled 15 16 [.token ⟨.slash, "/", none, positionAt tangled 15⟩] ∧
    Takes tangled 16 17 [.token ⟨.star, "*", none, positionAt tangled 16⟩] := by
  have hcomment := (@delimited_end tangled 0 (by decide +kernel)).1 (by decide +kernel)
  have hstring := (@delimited_end tangled 7 (by decide +kernel)).2.2 (by decide +kernel)
  have hline := (@delimited_end tangled 11 (by decide +kernel)).2.1 (by decide +kernel)
  have hopen := (@delimited_end tangled 15 (by decide +kernel)).1 (by decide +kernel)
  obtain ⟨hslash, hstar, -⟩ := hopen.2 (by decide +kernel)
  exact ⟨(hcomment.1 5 (by decide +kernel)).1, (hstring 10 (by decide +kernel)).1,
    (hline 14 (.inl (by decide +kernel))).1, hslash, hstar⟩

end Dynascope
