import Dynascope.Proofs.Token.Munch

/-!
# A source after another one

Where a source is followed by a newline and a second source, no lexeme reaches over the newline: the
tokens are those of the first source and then those of the second, some rows further down. The one
exception is a comment that the first source opens and does not close. Its opening is scanned as a
slash and a star, so the exception needs a slash that is followed by a star or by nothing.

* `Token.down`: a token some rows further down.
* `SlashesDivide`: every slash is followed by a token that is not a star.
* `Segment.events_down`: the events of segments that start some rows further down.
* `Segment.front_append_blank`: a blank ends the segment at the front; a newline also ends comments.
* `Segment.events_append_newline`: the events of a source, a newline and a second source.
* `tokenize_append_newline`: their tokens.
-/

namespace Dynascope

/-! ## Rows further down -/

/-- The same column some rows further down. -/
def Position.down (rows : Nat) (p : Position) : Position :=
  ⟨p.row + rows, p.column⟩

/-- The same token some rows further down. -/
def Token.down (rows : Nat) (t : Token) : Token :=
  { t with position := t.position.down rows }

/-- The same error some rows further down. -/
def ScanError.down (rows : Nat) : ScanError → ScanError
  | .unexpected lexeme position => .unexpected lexeme (position.down rows)
  | .outOfRange numeral => .outOfRange numeral

/-- The same event some rows further down. -/
def Event.down (rows : Nat) : Event → Event
  | .token t => .token (t.down rows)
  | .error e => .error (e.down rows)

theorem Position.step_down (rows : Nat) (p : Position) (b : UInt8) :
    (p.down rows).step b = (p.step b).down rows := by
  unfold step down
  split
  · rw [Int.add_right_comm]
  · rfl

theorem Position.advance_down (rows : Nat) (p : Position) (t : Text) :
    (p.down rows).advance t = (p.advance t).down rows := by
  induction t generalizing p with
  | nil => rfl
  | cons b t ih =>
    show ((p.down rows).step b).advance t = ((p.step b).advance t).down rows
    rw [step_down, ih]

/-- The place after a text and a newline is the start of a row. -/
theorem Position.advance_newline (t : Text) :
    Position.start.advance (t ++ [Text.newline]) = start.down (t.count Text.newline + 1) := by
  rw [advance_start, List.rtakeWhile_concat_neg _ _ _ (by simp)]
  simp [start, down, Int.add_comm]

theorem Event.tokens_append (es fs : List Event) :
    Event.tokens (es ++ fs) = Event.tokens es ++ Event.tokens fs :=
  List.filterMap_append ..

theorem Event.errors_append (es fs : List Event) :
    Event.errors (es ++ fs) = Event.errors es ++ Event.errors fs :=
  List.filterMap_append ..

theorem Event.tokens_map_down (rows : Nat) (es : List Event) :
    Event.tokens (es.map (Event.down rows)) = (Event.tokens es).map (Token.down rows) := by
  unfold Event.tokens
  rw [List.filterMap_map, List.map_filterMap]
  congr 1
  funext e
  cases e <;> rfl

theorem Event.errors_map_down (rows : Nat) (es : List Event) :
    Event.errors (es.map (Event.down rows)) = (Event.errors es).map (ScanError.down rows) := by
  unfold Event.errors
  rw [List.filterMap_map, List.map_filterMap]
  congr 1
  funext e
  cases e <;> rfl

namespace Segment

theorem event?_down (rows : Nat) (s : Segment) (p : Position) :
    s.event? (p.down rows) = (s.event? p).map (Event.down rows) := by
  unfold event?
  split
  case h_5 => split <;> rfl
  case h_8 => rw [Position.advance_down]; rfl
  all_goals rfl

/-- The events of segments that start some rows further down are the same events there. -/
theorem events_down (rows : Nat) (p : Position) (segments : List Segment) :
    events (p.down rows) segments = (events p segments).map (Event.down rows) := by
  induction segments generalizing p with
  | nil => rfl
  | cons s rest ih =>
    rw [events, events, List.map_append, Position.advance_down, ih, event?_down]
    cases s.event? p <;> rfl

end Segment

/-! ## Slashes that divide -/

/-- Every slash is followed by a token that is not a star. -/
def SlashesDivide : List Token → Prop
  | [] => True
  | t :: rest => (t.kind = .slash → ∃ next ∈ rest.head?, next.kind ≠ .star) ∧ SlashesDivide rest

namespace SlashesDivide

variable {t : Token} {ts us : List Token}

theorem nil : SlashesDivide [] := trivial

/-- A token of another kind first. -/
theorem cons {kind : Kind} (ht : t.kind = kind) (h : SlashesDivide ts)
    (hk : kind ≠ .slash := by decide) : SlashesDivide (t :: ts) :=
  ⟨fun hslash => absurd (ht.symm.trans hslash) hk, h⟩

theorem append (h : SlashesDivide ts) (k : SlashesDivide us) : SlashesDivide (ts ++ us) := by
  induction ts with
  | nil => exact k
  | cons t ts ih =>
    refine ⟨fun hslash => ?_, ih h.2⟩
    obtain ⟨next, hnext, hstar⟩ := h.1 hslash
    exact ⟨next, List.mem_head?_append_of_mem_head? hnext, hstar⟩

/-- What follows some of the tokens. -/
theorem right (h : SlashesDivide (ts ++ us)) : SlashesDivide us := by
  induction ts with
  | nil => exact h
  | cons t ts ih => exact ih h.2

end SlashesDivide

/-! ## A blank after a segment -/

namespace Segment

variable {a b : UInt8} {rest : Text}

/-- A blank continues neither a word nor a numeral, and it makes no comment of a slash. -/
structure EndsLexemes (b : UInt8) : Prop where
  word : isWordByte b = false
  digit : Text.isDigit b = false
  point : b ≠ 0x2e
  slash : b ≠ 0x2f
  star : b ≠ 0x2a

theorem endsLexemes (hb : isBlank b = true) : EndsLexemes b := by
  rcases isBlank_iff.mp hb with rfl | rfl | rfl | rfl <;> constructor <;> decide

theorem operator2?_blank (hb : isBlank b = true) (a : UInt8) : operator2? a b = none := by
  have hall : ∀ k ∈ Kind.operators, ∀ c ∈ k.name, isBlank c = false := by decide +kernel
  cases h : operator2? a b with
  | none => rfl
  | some k =>
    obtain ⟨hk, hname⟩ := operator2?_eq_some h
    have hfalse := hall k hk b (by rw [hname]; exact List.mem_cons_of_mem _ List.mem_cons_self)
    rw [hb] at hfalse
    cases hfalse

theorem operatorFront_append_blank (hb : isBlank b = true) (a : UInt8) (rest u : Text) :
    operatorFront a (rest ++ b :: u) = operatorFront a rest := by
  cases rest with
  | nil => simp [operatorFront, operator2?_blank hb]
  | cons c rest => rfl

/-- Whether the text opens a comment and does not close it. -/
def OpensComment (a : UInt8) (rest : Text) : Prop :=
  a = 0x2f ∧ ∃ body, rest = 0x2a :: body ∧ commentEnd? body = none

theorem front_slash_append_blank (hb : isBlank b = true)
    (hline : (front 0x2f rest).1 = .comment → b = Text.newline) (h : ¬ OpensComment 0x2f rest)
    (u : Text) : front 0x2f (rest ++ b :: u) = front 0x2f rest := by
  have hends := endsLexemes hb
  cases rest with
  | nil =>
    rw [List.nil_append, front_slash (by simpa using hends.slash) (by simpa using hends.star),
      front_slash (by simp) (by simp)]
  | cons c rest =>
    by_cases hslash : c = 0x2f
    · subst hslash
      rw [hline rfl, List.cons_append, front_lineComment, front_lineComment,
        run_append_cons (by simp)]
    · by_cases hstar : c = 0x2a
      · subst hstar
        cases hend : commentEnd? rest with
        | none => exact absurd ⟨rfl, rest, rfl, hend⟩ h
        | some n =>
          rw [List.cons_append, front_blockComment hend,
            front_blockComment (commentEnd?_append hend _)]
      · rw [front_slash (by simpa using hslash) (by simpa using hstar),
          front_slash (by simpa using hslash) (by simpa using hstar)]

/-- A blank ends the segment at the front, unless the segment is an open string or the opening of
a comment that is not closed. Only a newline ends a comment. -/
theorem front_append_blank (hb : isBlank b = true) (hblank : isBlank a = false)
    (hok : (front a rest).1.isError = false)
    (hline : (front a rest).1 = .comment → b = Text.newline) (hopen : ¬ OpensComment a rest)
    (u : Text) : front a (rest ++ b :: u) = front a rest := by
  have hends := endsLexemes hb
  by_cases hword : isWordStart a = true
  · rw [front_word hword, front_word hword, run_append_cons hends.word]
  rw [Bool.not_eq_true] at hword
  by_cases hdigit : Text.isDigit a = true
  · rw [front_numeral hdigit, front_numeral hdigit, numeralRun_append_cons hends.digit hends.point]
  rw [Bool.not_eq_true] at hdigit
  by_cases hquote : a = Text.quote
  · subst hquote
    cases hend : stringEnd? rest with
    | none =>
      rw [front_openString hend] at hok
      cases hok
    | some n => rw [front_string hend, front_string (stringEnd?_append hend _)]
  by_cases hslash : a = 0x2f
  · subst hslash
    exact front_slash_append_blank hb hline hopen u
  rw [front_other hblank hword hdigit hquote hslash, front_other hblank hword hdigit hquote hslash]
  exact operatorFront_append_blank hb a rest u

/-- Blanks yield no event, so they may be skipped one by one. -/
theorem events_blank (ha : isBlank a = true) (p : Position) (rest : Text) :
    events p (cut (a :: rest)) = events (p.step a) (cut rest) := by
  rw [cut_cons, front_blank ha]
  cases rest with
  | nil => rfl
  | cons b rest =>
    by_cases hb : isBlank b = true
    · rw [cut_cons, front_blank hb]
      have hrun : run isBlank (b :: rest) = run isBlank rest + 1 := by simp [run, hb]
      rw [hrun]
      rfl
    · have hrun : run isBlank (b :: rest) = 0 := by simp [run, hb]
      rw [hrun]
      rfl

/-- An error is reported for an error segment. -/
theorem errors_of_isError {s : Segment} (h : s.cls.isError = true) (p : Position) :
    Event.errors (s.event? p).toList ≠ [] := by
  unfold event?
  cases hcls : s.cls <;> simp [hcls, SegmentClass.isError, Event.errors] at h ⊢

/-- The opening of a comment that is not closed is a slash before a star. -/
theorem not_slashesDivide_of_opensComment (h : OpensComment a rest) (p : Position) :
    ¬ SlashesDivide (Event.tokens (events p (cut (a :: rest)))) := by
  obtain ⟨rfl, body, rfl, hend⟩ := h
  rw [cut_cons, front_openComment hend, List.drop_zero, cut_cons, front_star]
  intro hdiv
  obtain ⟨next, hnext, hstar⟩ := hdiv.1 rfl
  obtain rfl := Option.some.inj hnext
  exact hstar rfl

/-- **No lexeme reaches over the newline.** The events of a source without errors, a newline and a
second source are those of the first source and then those of the second. -/
theorem events_append_newline (u : Text) : ∀ (t : Text) (p : Position),
    Event.errors (events p (cut t)) = [] → SlashesDivide (Event.tokens (events p (cut t))) →
    events p (cut (t ++ Text.newline :: u)) =
      events p (cut t) ++ events (p.advance (t ++ [Text.newline])) (cut u)
  | [], p, _, _ => events_blank (by decide) p u
  | a :: rest, p, herr, hdiv => by
    by_cases hblank : isBlank a = true
    · rw [events_blank hblank] at herr hdiv
      rw [List.cons_append, events_blank hblank, events_blank hblank]
      exact events_append_newline u rest (p.step a) herr hdiv
    · rw [Bool.not_eq_true] at hblank
      have hopen : ¬ OpensComment a rest :=
        fun h => not_slashesDivide_of_opensComment h p hdiv
      rw [cut_cons, events, Event.errors_append, List.append_eq_nil_iff] at herr
      rw [cut_cons, events, Event.tokens_append] at hdiv
      have hok : (front a rest).1.isError = false := by
        by_contra hne
        exact errors_of_isError (by simpa using hne) p herr.1
      have hle := (front_fits a rest).1
      rw [List.cons_append, cut_cons, cut_cons,
        front_append_blank (by decide) hblank hok (fun _ => rfl) hopen,
        List.take_append_of_le_length hle, List.drop_append_of_le_length hle, events, events,
        events_append_newline u _ _ herr.2 hdiv.right, List.append_assoc, ← advance_append]
      simp only [List.cons_append, ← List.append_assoc, List.take_append_drop]
  termination_by t => t.length
  decreasing_by
    · exact Nat.lt_succ_self _
    · rw [List.length_drop, List.length_cons]; omega

end Segment

/-- **The tokens of a source after another one.** If the first source has no errors and its slashes
divide, its tokens come first, and those of the second source follow, further down by the rows of
the first. -/
theorem tokenize_append_newline {t : Text} (herr : Event.errors (scan t) = [])
    (hdiv : SlashesDivide (Event.tokens (scan t))) (u : Text) :
    tokenize (t ++ Text.newline :: u) =
      (Event.tokens (scan t) ++ (tokenize u).1.map (Token.down (t.count Text.newline + 1)),
        (tokenize u).2.map (ScanError.down (t.count Text.newline + 1))) := by
  have hscan : scan (t ++ Text.newline :: u) =
      scan t ++ (scan u).map (Event.down (t.count Text.newline + 1)) := by
    unfold scan
    rw [Segment.events_append_newline u t _ herr hdiv, Position.advance_newline,
      Segment.events_down]
  have hend : endToken (t ++ Text.newline :: u) =
      (endToken u).down (t.count Text.newline + 1) := by
    unfold endToken
    rw [List.append_cons, advance_append, Position.advance_newline, Position.advance_down]
    rfl
  unfold tokenize
  simp only [hscan, hend, Event.tokens_append, Event.errors_append, herr, Event.tokens_map_down,
    Event.errors_map_down, List.nil_append, List.head?_map, List.map_append, List.map_cons,
    List.map_nil, List.append_assoc]

end Dynascope
