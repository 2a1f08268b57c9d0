import Dynascope.Proofs.Token.Places
import Dynascope.Proofs.Token.Seam

/-!
# Lexemes with blanks between them

Every token is found again from its lexeme: if the lexemes of a source are written one after the
other with blanks between them, scanning gives the tokens of the source.

* `Spaced lexemes text`: the text is the lexemes with blanks between them.
* `Token.Moved`: the same token, perhaps at another position.
* `Segment.front_of_mem`, `Segment.front_append_of_mem`: a lexeme is the segment at its front, also
  with a blank behind it.
* `Token.Alone`: a token that is scanned from its lexeme; `tokens_alone`: all tokens of a source
  are.
* `tokenize_spaced`: the tokens of lexemes with blanks between them.
-/

namespace Dynascope

/-- The text is the lexemes one after the other, with one or more blanks between two neighbours. -/
inductive Spaced : (lexemes : List Text) → (text : Text) → Prop where
  | nil : Spaced [] []
  | single (w : Text) : Spaced [w] w
  | cons {v : Text} {lexemes : List Text} {blanks text : Text} (w : Text) (hne : blanks ≠ [])
      (hblanks : ∀ b ∈ blanks, Segment.isBlank b = true) (h : Spaced (v :: lexemes) text) :
    Spaced (w :: v :: lexemes) (w ++ (blanks ++ text))

/-- The same token, perhaps at another position. -/
structure Token.Moved (t t' : Token) : Prop where
  kind : t'.kind = t.kind
  lexeme : t'.lexeme = t.lexeme
  value : t'.value = t.value

namespace Segment

variable {a b : UInt8} {w : Text} {p : Pattern}

/-! ## A lexeme at the front -/

/-- A lexeme is the segment at its own front. -/
theorem front_of_mem (h : a :: w ∈ p.language) : front a w = (p.cls, w.length) := by
  obtain ⟨hle, -, hcls⟩ := front_covers h (List.prefix_refl w)
  have hlength : w.length = (front a w).2 := Nat.le_antisymm hle (front_fits a w).1
  exact Prod.ext (hcls hlength).symm hlength.symm

/-- A lexeme that is neither blank nor a comment is the segment at the front of a text in which a
blank follows it. -/
theorem front_append_of_mem (h : a :: w ∈ p.language) (hblank : p.cls ≠ .blank)
    (hcomment : p.cls ≠ .comment) (hb : isBlank b = true) (u : Text) :
    front a (w ++ b :: u) = (p.cls, w.length) := by
  have hfront := front_of_mem h
  have hstart : isBlank a = false := by
    by_contra ha
    rw [front_blank (by simpa using ha)] at hfront
    exact hblank (congrArg Prod.fst hfront).symm
  have hok : (front a w).1.isError = false := (front_covers h (List.prefix_refl w)).2.1
  have hopen : ¬ OpensComment a w := by
    rintro ⟨rfl, body, rfl, hend⟩
    rw [front_openComment hend] at hfront
    cases congrArg Prod.snd hfront
  rw [front_append_blank hb hstart hok (fun hline => ?_) hopen, hfront]
  rw [hfront] at hline
  exact absurd hline hcomment

/-- Blanks yield no event. -/
theorem events_blanks {blanks : Text} (h : ∀ b ∈ blanks, isBlank b = true) (p : Position)
    (t : Text) : events p (cut (blanks ++ t)) = events (p.advance blanks) (cut t) := by
  induction blanks generalizing p with
  | nil => rfl
  | cons b blanks ih =>
    rw [List.forall_mem_cons] at h
    rw [List.cons_append, events_blank h.1, ih h.2]
    rfl

/-- The token of a segment has the bytes of the segment, and at another position it is the same. -/
theorem event?_moved {s : Segment} {p : Position} {t : Token}
    (h : s.event? p = some (.token t)) : t.lexeme = s.bytes ∧
      ∀ q, s.event? q = some (.token { t with position := q }) := by
  unfold event? at h ⊢
  cases hcls : s.cls with
  | blank => rw [hcls] at h; cases h
  | comment => rw [hcls] at h; cases h
  | stray => rw [hcls] at h; cases h
  | openString => rw [hcls] at h; cases h
  | numeral =>
    rw [hcls] at h
    cases hread : Number.read s.bytes with
    | number x => simp only [hread] at h ⊢; cases h; exact ⟨rfl, fun _ => rfl⟩
    | outOfRange => simp only [hread] at h; cases h
    | malformed => simp only [hread] at h; cases h
  | _ => rw [hcls] at h; cases h; exact ⟨rfl, fun _ => rfl⟩

end Segment

open Segment

/-! ## Tokens from their lexemes -/

/-- The lexeme of the token matches a pattern, and a segment of that pattern gives the token. -/
structure Token.Alone (t : Token) (p : Pattern) : Prop where
  matched : t.lexeme ∈ p.language
  event : ∀ q, (⟨p.cls, t.lexeme⟩ : Segment).event? q = some (.token { t with position := q })

namespace Token.Alone

variable {t : Token} {p : Pattern}

theorem cls_ne_blank (h : t.Alone p) : p.cls ≠ .blank := by
  intro hcls
  have hevent := h.event .start
  rw [hcls] at hevent
  cases hevent

theorem cls_ne_comment (h : t.Alone p) : p.cls ≠ .comment := by
  intro hcls
  have hevent := h.event .start
  rw [hcls] at hevent
  cases hevent

/-- A lexeme that is all of a text is scanned as its token. -/
theorem events_self (h : t.Alone p) (q : Position) :
    events q (cut t.lexeme) = [.token { t with position := q }] := by
  have hmem := h.matched
  have hevent := h.event q
  cases hlexeme : t.lexeme with
  | nil => exact absurd (hlexeme ▸ hmem) p.nil_notMem
  | cons a w =>
    rw [hlexeme] at hmem hevent
    rw [cut_cons, front_of_mem hmem, List.take_length, List.drop_length, events, hevent]
    rfl

/-- A lexeme with a blank behind it is scanned as its token. -/
theorem events_append (h : t.Alone p) {b : UInt8} (hb : isBlank b = true) (u : Text)
    (q : Position) : events q (cut (t.lexeme ++ b :: u)) =
      .token { t with position := q } :: events (q.advance t.lexeme) (cut (b :: u)) := by
  have hmem := h.matched
  have hevent := h.event q
  cases hlexeme : t.lexeme with
  | nil => exact absurd (hlexeme ▸ hmem) p.nil_notMem
  | cons a w =>
    rw [hlexeme] at hmem hevent
    rw [List.cons_append, cut_cons,
      front_append_of_mem hmem h.cls_ne_blank h.cls_ne_comment hb, List.take_left, List.drop_left,
      events, hevent]
    rfl

end Token.Alone

/-- The tokens of a source are scanned from their lexemes. -/
theorem tokens_alone {source : Text} {t : Token} (h : t ∈ Event.tokens (scan source)) :
    ∃ p, t.Alone p := by
  obtain ⟨event, hmem, hevent⟩ := List.mem_filterMap.mp h
  cases event with
  | error e => cases hevent
  | token t' =>
    obtain rfl := Option.some.inj hevent
    rw [scan_eq_flatMap_placed] at hmem
    obtain ⟨⟨i, s⟩, hs, hsome⟩ := List.mem_flatMap.mp hmem
    obtain ⟨a, rest, -, rfl⟩ := exists_drop_of_mem_placed hs
    rw [Option.mem_toList] at hsome
    have hok : (front a rest).1.isError ≠ true := fun herror =>
      @errors_of_isError (first a rest) herror (positionAt source i) (by rw [hsome]; rfl)
    obtain ⟨p, hcls, hmatched⟩ := (front_fits a rest).2.resolve_left hok
    obtain ⟨hlexeme, hmoved⟩ := event?_moved hsome
    have hsegment : (⟨p.cls, t'.lexeme⟩ : Segment) = first a rest := by
      rw [hcls, hlexeme]
      rfl
    refine ⟨p, by rw [hlexeme]; exact hmatched, fun q => ?_⟩
    rw [hsegment]
    exact hmoved q

/-! ## Lexemes with blanks between them -/

/-- The events of lexemes with blanks between them are the tokens of the lexemes. -/
theorem events_spaced {ts : List Token} {text : Text} (h : Spaced (ts.map Token.lexeme) text)
    (halone : ∀ t ∈ ts, ∃ p, t.Alone p) (q : Position) :
    ∃ ts', events q (cut text) = ts'.map .token ∧ List.Forall₂ Token.Moved ts ts' := by
  induction ts generalizing text q with
  | nil =>
    cases h
    exact ⟨[], rfl, .nil⟩
  | cons t ts ih =>
    rw [List.forall_mem_cons] at halone
    obtain ⟨⟨p, ht⟩, hrest⟩ := halone
    cases ts with
    | nil =>
      cases h
      exact ⟨[_], ht.events_self q, .cons ⟨rfl, rfl, rfl⟩ .nil⟩
    | cons u ts =>
      cases h with
      | @cons _ _ blanks text _ hne hblanks h =>
        obtain ⟨ts', hevents, hmoved⟩ := ih h hrest ((q.advance t.lexeme).advance blanks)
        refine ⟨{ t with position := q } :: ts', ?_, .cons ⟨rfl, rfl, rfl⟩ hmoved⟩
        obtain ⟨b, blanks, rfl⟩ := List.exists_cons_of_ne_nil hne
        rw [List.cons_append, ht.events_append (hblanks b List.mem_cons_self), ← List.cons_append,
          events_blanks hblanks, hevents, List.map_cons]

/-- **Lexemes with blanks between them.** If the lexemes of a source are written one after the other
with one or more blanks between two of them, the text has no error, and its tokens are those of the
source, up to their positions, and the one for the end. -/
theorem tokenize_spaced {source text : Text} {ts : List Token} {last : Token}
    (h : (tokenize source).1 = ts ++ [last]) (hspaced : Spaced (ts.map Token.lexeme) text) :
    ∃ ts', tokenize text = (ts' ++ [endToken text], none) ∧ List.Forall₂ Token.Moved ts ts' := by
  obtain ⟨rfl, -⟩ := List.append_inj' h rfl
  obtain ⟨ts', hevents, hmoved⟩ := events_spaced hspaced (fun _ => tokens_alone) .start
  refine ⟨ts', ?_, hmoved⟩
  have htokens : Event.tokens (ts'.map .token) = ts' := by
    unfold Event.tokens
    rw [List.filterMap_map]
    exact List.filterMap_some
  have herrors : Event.errors (ts'.map .token) = [] := by
    unfold Event.errors
    rw [List.filterMap_map]
    exact List.filterMap_eq_nil_iff.mpr fun _ _ => rfl
  simp only [tokenize, scan, hevents, htokens, herrors, List.head?_nil]

/-- The opening of a comment that is not closed, a string with a blank and a comment. -/
theorem tokenize_spaced_openComment : ∃ ts', tokenize "/\t*\r\n\"a b\"" =
      (ts' ++ [endToken "/\t*\r\n\"a b\""], none) ∧
    List.Forall₂ Token.Moved (Event.tokens (scan "/*\"a b\"//c")) ts' := by
  have hlexemes : (Event.tokens (scan "/*\"a b\"//c")).map Token.lexeme =
      ["/", "*", "\"a b\""].map Text.ofString := by
    decide +kernel
  refine @tokenize_spaced "/*\"a b\"//c" _ _ _ rfl ?_
  rw [hlexemes]
  exact @Spaced.cons _ _ "\t" _ "/" (by decide +kernel) (by decide +kernel)
    (@Spaced.cons _ _ "\r\n" _ "*" (by decide +kernel) (by decide +kernel) (.single "\"a b\""))

end Dynascope
