import Dynascope.Token.Scan
import Dynascope.Value.Basic

/-!
# Tokens of a source

* `Token.Scanned`: what scanning promises of a token: names are not empty, and numbers and strings
  carry a value of the language.
* `tokenize_scanned`: every token of a source is such a token.
* `tokenize_identifier`: no identifier of a source is a keyword.
* `scan_kind`, `tokenize_ended`: the last token is the one for the end of the source, and no other.
-/

namespace Dynascope

/-- A name has a lexeme, and a number or string a value that the language knows. -/
structure Token.Scanned (t : Token) : Prop where
  name : t.kind = .identifier → t.lexeme ≠ []
  constant : t.kind = .number ∨ t.kind = .string →
    ∃ v, t.value = some v ∧ (Value.ofLiteral? v).isSome

namespace Segment

/-- The kinds of tokens that are neither names nor constants. -/
def signs : List Kind :=
  .endOfInput :: (Kind.operators ++ Kind.keywords)

theorem scanned_of_sign {t : Token} (h : t.kind ∈ signs) : t.Scanned := by
  refine ⟨fun hk => absurd h ?_, fun hk => absurd h ?_⟩
  · rw [hk]
    decide
  · rcases hk with hk | hk <;> rw [hk] <;> decide

theorem operatorFront_sign {a : UInt8} {rest : Text} {kind : Kind}
    (h : (operatorFront a rest).1 = .operator kind) : kind ∈ Kind.operators := by
  unfold operatorFront at h
  split at h
  next k hk =>
    obtain rfl := SegmentClass.operator.inj h
    obtain ⟨b, -, hb⟩ := Option.bind_eq_some_iff.mp hk
    exact List.mem_of_find?_eq_some hb
  next =>
    split at h
    next k hk =>
      obtain rfl := SegmentClass.operator.inj h
      exact List.mem_of_find?_eq_some hk
    next => cases h

/-- An operator segment is of the kind of an operator. -/
theorem front_sign {a : UInt8} {rest : Text} {kind : Kind}
    (h : (front a rest).1 = .operator kind) : kind ∈ Kind.operators := by
  unfold front at h
  split at h
  · cases h
  · split at h
    · cases h
    · split at h
      · cases h
      · split at h
        · split at h <;> cases h
        · split at h
          · split at h
            · cases h
            · split at h
              · cases h
              · obtain rfl := SegmentClass.operator.inj h
                decide
            · obtain rfl := SegmentClass.operator.inj h
              decide
          · exact operatorFront_sign h

/-- A segment has bytes, and an operator segment is of the kind of an operator. -/
structure Cut (s : Segment) : Prop where
  bytes : s.bytes ≠ []
  sign : ∀ kind, s.cls = .operator kind → kind ∈ Kind.operators

theorem cutAfter_cut {skip : Nat} {source : Text} {s : Segment} (h : s ∈ cutAfter skip source) :
    s.Cut := by
  fun_induction cutAfter skip source with
  | case1 => cases h
  | case2 k a rest ih => exact ih h
  | case3 a rest found ih =>
    rcases List.mem_cons.mp h with rfl | h
    · exact ⟨List.cons_ne_nil _ _, fun kind hk => front_sign hk⟩
    · exact ih h

theorem event?_scanned {s : Segment} (hs : s.Cut) {p : Position} {t : Token}
    (h : s.event? p = some (.token t)) : t.Scanned := by
  unfold event? at h
  split at h
  · cases h
  · cases h
  · cases h
    exact ⟨nofun, fun _ => ⟨_, rfl, rfl⟩⟩
  · cases h
    cases hk : Kind.keyword? s.bytes with
    | none => exact ⟨fun _ => hs.bytes, by simp⟩
    | some kind =>
      have hmem : kind ∈ Kind.keywords := List.mem_of_find?_eq_some hk
      exact scanned_of_sign (by simp [signs, hmem])
  · split at h
    · cases h
      exact ⟨nofun, fun _ => ⟨_, rfl, rfl⟩⟩
    · cases h
  next kind hcls =>
    cases h
    exact scanned_of_sign (by simp [signs, hs.sign kind hcls])
  · cases h
  · cases h

/-- The token of a word is an identifier only if the word is not a keyword. -/
theorem event?_identifier {s : Segment} (hs : s.Cut) {p : Position} {t : Token}
    (h : s.event? p = some (.token t)) (hk : t.kind = .identifier) :
    Kind.keyword? t.lexeme = none := by
  unfold event? at h
  split at h
  · cases h
  · cases h
  · cases h
    cases hk
  · cases h
    cases hw : Kind.keyword? s.bytes with
    | none => exact rfl
    | some kind =>
      have hmem : kind ∈ Kind.keywords := List.mem_of_find?_eq_some hw
      have hkind : kind = .identifier := by simpa [hw] using hk
      rw [hkind] at hmem
      exact absurd hmem (by decide)
  · split at h
    · cases h
      cases hk
    · cases h
  next kind hcls =>
    cases h
    have hkind : kind = .identifier := hk
    have hmem := hs.sign kind hcls
    rw [hkind] at hmem
    exact absurd hmem (by decide)
  · cases h
  · cases h

/-- Only an identifier, a constant, an operator or a keyword is the event of a segment. -/
theorem event?_kind {s : Segment} (hs : s.Cut) {p : Position} {t : Token}
    (h : s.event? p = some (.token t)) : t.kind ≠ .endOfInput := by
  unfold event? at h
  split at h
  · cases h
  · cases h
  · cases h
    exact nofun
  · cases h
    cases hk : Kind.keyword? s.bytes with
    | none => simp
    | some kind =>
      have hall : ∀ k ∈ Kind.keywords, k ≠ .endOfInput := by decide
      exact hall kind (List.mem_of_find?_eq_some hk)
  · split at h
    · cases h
      exact nofun
    · cases h
  next kind hcls =>
    cases h
    have hall : ∀ k ∈ Kind.operators, k ≠ .endOfInput := by decide
    exact hall kind (hs.sign kind hcls)
  · cases h
  · cases h

/-- A token among the events is the event of one of the segments. -/
theorem exists_event?_of_mem {segments : List Segment} {p : Position} {t : Token}
    (h : .token t ∈ events p segments) : ∃ s ∈ segments, ∃ q, s.event? q = some (.token t) := by
  induction segments generalizing p with
  | nil => cases h
  | cons s rest ih =>
    rw [events, List.mem_append] at h
    rcases h with h | h
    · exact ⟨s, List.mem_cons_self, p, Option.mem_toList.mp h⟩
    · obtain ⟨s', hs', q, hq⟩ := ih h
      exact ⟨s', List.mem_cons_of_mem s hs', q, hq⟩

end Segment

/-- A token of a source is the event of one of its segments. -/
theorem exists_event?_of_mem_scan {source : Text} {t : Token} (h : t ∈ Event.tokens (scan source)) :
    ∃ s : Segment, s.Cut ∧ ∃ p, s.event? p = some (.token t) := by
  obtain ⟨event, hmem, hevent⟩ := List.mem_filterMap.mp h
  cases event with
  | token t' =>
    obtain rfl := Option.some.inj hevent
    obtain ⟨s, hs, p, hp⟩ := Segment.exists_event?_of_mem hmem
    exact ⟨s, Segment.cutAfter_cut hs, p, hp⟩
  | error e => cases hevent

/-- **Scanned tokens.** Every token of a source has a lexeme if it is a name, and a value of the
language if it is a number or a string. -/
theorem tokenize_scanned {source : Text} {t : Token} (h : t ∈ (tokenize source).1) :
    t.Scanned := by
  rcases List.mem_append.mp h with h | h
  · obtain ⟨s, hs, p, hp⟩ := exists_event?_of_mem_scan h
    exact Segment.event?_scanned hs hp
  · obtain rfl := List.mem_singleton.mp h
    exact Segment.scanned_of_sign List.mem_cons_self

/-- No identifier of a source is a keyword. -/
theorem tokenize_identifier {source : Text} {t : Token} (h : t ∈ (tokenize source).1)
    (hk : t.kind = .identifier) : Kind.keyword? t.lexeme = none := by
  rcases List.mem_append.mp h with h | h
  · obtain ⟨s, hs, p, hp⟩ := exists_event?_of_mem_scan h
    exact Segment.event?_identifier hs hp hk
  · obtain rfl := List.mem_singleton.mp h
    cases hk

/-- The token for the end comes last, and only there. -/
theorem scan_kind {source : Text} {t : Token} (h : t ∈ Event.tokens (scan source)) :
    t.kind ≠ .endOfInput := by
  obtain ⟨s, hs, p, hp⟩ := exists_event?_of_mem_scan h
  exact Segment.event?_kind hs hp

theorem tokenize_ended (source : Text) : ∃ t ∈ (tokenize source).1, t.kind = .endOfInput :=
  ⟨endToken source, List.mem_append_right _ (List.mem_singleton.mpr rfl), rfl⟩

end Dynascope
