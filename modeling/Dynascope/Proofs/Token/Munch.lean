import Dynascope.Proofs.Number.Numeral
import Dynascope.Proofs.Token.Front
import Dynascope.Token.Scan
import Mathlib.Data.List.DropRight

/-!
# Longest matches

A source is split into pieces from left to right. Each piece is the longest lexeme at its place;
where no lexeme stands, the scanner reads on as long as a lexeme may still come, and the piece is an
error.

* `positionAt`: row and column of an offset, from the newlines before it.
* `Munch`, `Blunder`: the longest lexeme at a place, and the piece where there is none.
* `Yields`: the events of a lexeme.
* `Scans source i pieces events`: from the offset `i` on, the source splits into pieces that yield
  events. The relation knows the patterns and nothing of how segments are measured.
* `Scans.unique`: there is one way to split a source.
* `scan_munches`: this is how a source is scanned, and what a scanner reports, however often it is
  asked.
-/

namespace Dynascope

/-! ## Positions -/

/-- The position of an offset: the row is one more than the number of newlines before it, the
column one more than the number of bytes since the last of them. -/
def positionAt (source : Text) (offset : Nat) : Position :=
  ⟨(source.take offset).count Text.newline + 1,
    ((source.take offset).rtakeWhile (· ≠ Text.newline)).length + 1⟩

theorem advance_append (p : Position) (t u : Text) :
    p.advance (t ++ u) = (p.advance t).advance u :=
  List.foldl_append

theorem advance_start (t : Text) : Position.start.advance t =
    ⟨t.count Text.newline + 1, (t.rtakeWhile (· ≠ Text.newline)).length + 1⟩ := by
  induction t using List.reverseRecOn with
  | nil => rfl
  | append_singleton t b ih =>
    rw [advance_append, ih]
    by_cases hb : b = Text.newline
    · subst hb
      rw [List.rtakeWhile_concat_neg _ _ _ (by simp)]
      simp [Position.advance, Position.step]
    · rw [List.rtakeWhile_concat_pos _ _ _ (by simpa using hb)]
      simp [Position.advance, Position.step, hb]

/-- The position of an offset is where the bytes before it lead. -/
theorem ofOffset_eq_positionAt (source : Text) (offset : Nat) :
    Position.ofOffset source offset = positionAt source offset :=
  advance_start _

/-- The position after a piece. -/
theorem advance_positionAt {source w : Text} {i : Nat} (h : w <+: source.drop i) :
    (positionAt source i).advance w = positionAt source (i + w.length) := by
  rw [← ofOffset_eq_positionAt, ← ofOffset_eq_positionAt, Position.ofOffset, Position.ofOffset,
    ← advance_append, List.take_add, ← List.prefix_iff_eq_take.mp h]

/-! ## Pieces of a source -/

/-- The word is the longest lexeme at the front of the text, and `p` is its pattern. -/
structure Munch (text w : Text) (p : Pattern) : Prop where
  isPrefix : w <+: text
  matched : w ∈ p.language
  longest : ∀ (q : Pattern) v, v <+: text → v ∈ q.language → v.length ≤ w.length

/-- Some lexeme starts with the word. -/
def Alive (w : Text) : Prop :=
  ∃ (p : Pattern) (u : Text), w ++ u ∈ p.language

/-- No lexeme stands at the front of the text. The word is the shortest one there with which no
lexeme starts, or all of the text if a lexeme might still come. -/
structure Blunder (text w : Text) : Prop where
  nonempty : w ≠ []
  isPrefix : w <+: text
  unmatched : ∀ (q : Pattern) v, v <+: text → v ∉ q.language
  alive : ∀ v, v <+: w → v ≠ w → Alive v
  dead : Alive w → w = text

/-- The events of a lexeme with a pattern at a position. -/
inductive Yields : Pattern → Text → Position → List Event → Prop where
  | lineComment {w : Text} {p : Position} : Yields .lineComment w p []
  | blockComment {w : Text} {p : Position} : Yields .blockComment w p []
  | blank {w : Text} {p : Position} : Yields .blank w p []
  | string {w content : Text} {p : Position} (h : w = Text.quote :: (content ++ [Text.quote])) :
    Yields .string w p [.token ⟨.string, w, some (.string content), p⟩]
  | keyword {k : Kind} {w : Text} {p : Position} (hk : k ∈ Kind.keywords) (h : k.name = w) :
    Yields .word w p [.token ⟨k, w, none, p⟩]
  | identifier {w : Text} {p : Position} (h : ∀ k ∈ Kind.keywords, k.name ≠ w) :
    Yields .word w p [.token ⟨.identifier, w, none, p⟩]
  | number {w : Text} {p : Position} {x : Float} (h : Number.read w = .number x) :
    Yields .numeral w p [.token ⟨.number, w, some (.number x), p⟩]
  | outOfRange {w : Text} {p : Position} (h : Number.read w = .outOfRange) :
    Yields .numeral w p [.error (.outOfRange w)]
  | operator {kind : { k : Kind // k ∈ Kind.operators }} {w : Text} {p : Position} :
    Yields (.operator kind) w p [.token ⟨kind, w, none, p⟩]

/-- From an offset on, a source splits into pieces, which yield events. -/
inductive Scans (source : Text) : (offset : Nat) → (pieces : List Text) → List Event → Prop where
  | ended : Scans source source.length [] []
  | lexeme {i : Nat} {w : Text} {p : Pattern} {pieces : List Text} {now later : List Event}
      (h : Munch (source.drop i) w p) (hnow : Yields p w (positionAt source i) now)
      (hlater : Scans source (i + w.length) pieces later) :
    Scans source i (w :: pieces) (now ++ later)
  | blunder {i : Nat} {w : Text} {b : UInt8} {pieces : List Text} {later : List Event}
      (h : Blunder (source.drop i) (w ++ [b]))
      (hlater : Scans source (i + (w.length + 1)) pieces later) :
    Scans source i ((w ++ [b]) :: pieces)
      (.error (.unexpected [b] (positionAt source (i + w.length))) :: later)

/-! ## There is one way to split a source -/

theorem Munch.ne_nil {text w : Text} {p : Pattern} (h : Munch text w p) : w ≠ [] := by
  rintro rfl
  exact p.nil_notMem h.matched

theorem Munch.text_ne_nil {text w : Text} {p : Pattern} (h : Munch text w p) : text ≠ [] := by
  rintro rfl
  exact h.ne_nil (List.prefix_nil.mp h.isPrefix)

theorem Blunder.text_ne_nil {text w : Text} (h : Blunder text w) : text ≠ [] := by
  rintro rfl
  exact h.nonempty (List.prefix_nil.mp h.isPrefix)

/-- The longest lexeme and its pattern are determined by the text. -/
theorem Munch.unique {text v w : Text} {p q : Pattern} (hv : Munch text v p)
    (hw : Munch text w q) : v = w ∧ p = q := by
  have hlength : v.length = w.length :=
    Nat.le_antisymm (hw.longest p v hv.isPrefix hv.matched) (hv.longest q w hw.isPrefix hw.matched)
  have heq : v = w := by
    rw [List.prefix_iff_eq_take.mp hv.isPrefix, List.prefix_iff_eq_take.mp hw.isPrefix, hlength]
  subst heq
  exact ⟨rfl, Pattern.language_disjoint hv.matched hw.matched⟩

theorem Munch.not_blunder {text v w : Text} {p : Pattern} (hv : Munch text v p) :
    ¬ Blunder text w :=
  fun hw => hw.unmatched p v hv.isPrefix hv.matched

/-- Of two error segments at a place, none is longer than the other. -/
theorem Blunder.length_le {text v w : Text} (hv : Blunder text v) (hw : Blunder text w) :
    v.length ≤ w.length := by
  by_contra hlt
  have hprefix : w <+: v := List.prefix_of_prefix_length_le hw.isPrefix hv.isPrefix (by omega)
  have hne : w ≠ v := fun h => hlt (by rw [h])
  have htext : w = text := hw.dead (hv.alive w hprefix hne)
  have hle := hv.isPrefix.length_le
  rw [← htext] at hle
  omega

theorem Blunder.unique {text v w : Text} (hv : Blunder text v) (hw : Blunder text w) : v = w := by
  have hlength : v.length = w.length := Nat.le_antisymm (hv.length_le hw) (hw.length_le hv)
  rw [List.prefix_iff_eq_take.mp hv.isPrefix, List.prefix_iff_eq_take.mp hw.isPrefix, hlength]

/-- The keywords have different names. -/
theorem keywords_inj {k l : Kind} (hk : k ∈ Kind.keywords) (hl : l ∈ Kind.keywords)
    (h : k.name = l.name) : k = l := by
  have hall : ∀ k ∈ Kind.keywords, ∀ l ∈ Kind.keywords, k.name = l.name → k = l := by
    decide +kernel
  exact hall k hk l hl h

theorem Yields.unique {p : Pattern} {w : Text} {pos : Position} {es fs : List Event}
    (h : Yields p w pos es) (k : Yields p w pos fs) : es = fs := by
  cases h with
  | lineComment => cases k; rfl
  | blockComment => cases k; rfl
  | blank => cases k; rfl
  | operator => cases k; rfl
  | @string _ content _ hw =>
    cases k with
    | @string _ content' _ hw' =>
      rw [hw, List.cons_eq_cons] at hw'
      rw [List.append_cancel_right hw'.2]
  | keyword hk hname =>
    cases k with
    | keyword hk' hname' => rw [keywords_inj hk hk' (hname.trans hname'.symm)]
    | identifier hne => exact absurd hname (hne _ hk)
  | identifier hne =>
    cases k with
    | keyword hk' hname' => exact absurd hname' (hne _ hk')
    | identifier => rfl
  | number hread =>
    cases k with
    | number hread' => rw [Number.Reading.number.inj (hread.symm.trans hread')]
    | outOfRange hread' => exact nomatch hread.symm.trans hread'
  | outOfRange hread =>
    cases k with
    | number hread' => exact nomatch hread.symm.trans hread'
    | outOfRange => rfl

/-- **One way to split.** The pieces and the events are determined by the source. -/
theorem Scans.unique {source : Text} {i : Nat} {pieces pieces' : List Text}
    {events events' : List Event} (h : Scans source i pieces events)
    (h' : Scans source i pieces' events') : pieces' = pieces ∧ events' = events := by
  induction h generalizing pieces' events' with
  | ended =>
    cases h' with
    | ended => exact ⟨rfl, rfl⟩
    | lexeme hm => exact absurd List.drop_length hm.text_ne_nil
    | blunder hb => exact absurd List.drop_length hb.text_ne_nil
  | lexeme hm hnow _ ih =>
    cases h' with
    | ended => exact absurd List.drop_length hm.text_ne_nil
    | lexeme hm' hnow' hlater' =>
      obtain ⟨rfl, rfl⟩ := hm.unique hm'
      obtain ⟨rfl, rfl⟩ := ih hlater'
      rw [hnow.unique hnow']
      exact ⟨rfl, rfl⟩
    | blunder hb => exact absurd hb hm.not_blunder
  | blunder hb _ ih =>
    cases h' with
    | ended => exact absurd List.drop_length hb.text_ne_nil
    | lexeme hm' => exact absurd hb hm'.not_blunder
    | blunder hb' hlater' =>
      obtain ⟨rfl, hbyte⟩ := List.append_inj' (hb.unique hb') rfl
      obtain rfl := List.singleton_inj.mp hbyte
      obtain ⟨rfl, rfl⟩ := ih hlater'
      exact ⟨rfl, rfl⟩

/-- The pieces are not empty, and one after the other they are the source. -/
theorem Scans.pieces_eq {source : Text} {i : Nat} {pieces : List Text} {events : List Event}
    (h : Scans source i pieces events) :
    pieces.flatten = source.drop i ∧ ∀ w ∈ pieces, w ≠ [] := by
  induction h with
  | ended => exact ⟨List.drop_length.symm, nofun⟩
  | lexeme hm _ _ ih =>
    refine ⟨?_, List.forall_mem_cons.mpr ⟨hm.ne_nil, ih.2⟩⟩
    rw [List.flatten_cons, ih.1, ← List.drop_drop]
    exact (List.prefix_append_drop hm.isPrefix).symm
  | blunder hb _ ih =>
    refine ⟨?_, List.forall_mem_cons.mpr ⟨hb.nonempty, ih.2⟩⟩
    rw [List.flatten_cons, ih.1, ← List.drop_drop]
    simpa using (List.prefix_append_drop hb.isPrefix).symm

/-- The error of a piece where no lexeme stands is at its last byte. -/
theorem Scans.of_blunder {source w : Text} {i : Nat} {pieces : List Text} {later : List Event}
    (h : Blunder (source.drop i) w) (hlater : Scans source (i + w.length) pieces later) :
    Scans source i (w :: pieces)
      (.error (.unexpected (w.drop (w.length - 1)) ((positionAt source i).advance w.dropLast)) ::
        later) := by
  obtain ⟨v, b, rfl⟩ : ∃ v b, w = v ++ [b] :=
    ⟨_, _, (List.dropLast_append_getLast h.nonempty).symm⟩
  have hprefix : v <+: source.drop i := (List.prefix_append v [b]).trans h.isPrefix
  rw [List.length_append, List.length_singleton] at hlater ⊢
  rw [List.dropLast_concat, Nat.add_sub_cancel, List.drop_left, advance_positionAt hprefix]
  exact .blunder h hlater

/-! ## Segments are pieces -/

namespace Segment

variable {a : UInt8} {rest : Text}

theorem cutAfter_eq (k : Nat) (t : Text) : cutAfter k t = cut (t.drop k) := by
  induction t generalizing k with
  | nil => cases k <;> rfl
  | cons a t ih =>
    cases k with
    | zero => rfl
    | succ k => exact ih k

theorem cut_cons (a : UInt8) (rest : Text) : cut (a :: rest) =
    ⟨(front a rest).1, a :: rest.take (front a rest).2⟩ :: cut (rest.drop (front a rest).2) := by
  rw [← cutAfter_eq]
  rfl

/-- The event of a lexeme is the one of its pattern. -/
theorem yields_event? {s : Segment} {p : Pattern} (hcls : p.cls = s.cls)
    (hmem : s.bytes ∈ p.language) (pos : Position) :
    Yields p s.bytes pos (s.event? pos).toList := by
  unfold event?
  cases p with
  | lineComment => rw [← hcls]; exact .lineComment
  | blockComment => rw [← hcls]; exact .blockComment
  | blank => rw [← hcls]; exact .blank
  | operator kind => rw [← hcls]; exact .operator
  | string =>
    rw [← hcls]
    refine .string ?_
    have hne : s.bytes ≠ [] := fun h => Pattern.nil_notMem _ (h ▸ hmem)
    obtain ⟨a, w, hbytes⟩ := List.exists_cons_of_ne_nil hne
    rw [hbytes] at hmem ⊢
    obtain ⟨rfl, hend⟩ := Pattern.mem_string.mp hmem
    obtain ⟨body, rfl, -⟩ := stringEnd?_eq_length.mp hend
    simp [unquote]
  | word =>
    rw [← hcls]
    cases hkind : Kind.keyword? s.bytes with
    | some k =>
      have hname : k.name = s.bytes := by simpa using List.find?_some hkind
      exact .keyword (List.mem_of_find?_eq_some hkind) hname
    | none =>
      have hne := List.find?_eq_none.mp hkind
      exact .identifier (by simpa using hne)
  | numeral =>
    rw [← hcls]
    cases hread : Number.read s.bytes with
    | number x => exact .number hread
    | outOfRange => exact .outOfRange hread
    | malformed => exact absurd hread (Number.read_ne_malformed hmem)

/-- The segment at the front, if it is a lexeme, is the longest one. -/
theorem munch_front {p : Pattern} (hmem : a :: rest.take (front a rest).2 ∈ p.language) :
    Munch (a :: rest) (a :: rest.take (front a rest).2) p where
  isPrefix := List.cons_prefix_cons.mpr ⟨rfl, List.take_prefix _ _⟩
  matched := hmem
  longest q v hv hq := by
    cases v with
    | nil => exact Nat.zero_le _
    | cons b v =>
      obtain ⟨rfl, htail⟩ := List.cons_prefix_cons.mp hv
      have hle := (front_covers hq htail).1
      rw [List.length_cons, List.length_cons, List.length_take_of_le (front_fits b rest).1]
      omega

/-- Where the segment at the front is an error, no lexeme stands. -/
theorem unmatched_of_front_error (h : (front a rest).1.isError = true) (q : Pattern) (v : Text)
    (hv : v <+: a :: rest) : v ∉ q.language := by
  intro hq
  cases v with
  | nil => exact q.nil_notMem hq
  | cons b v =>
    obtain ⟨rfl, htail⟩ := List.cons_prefix_cons.mp hv
    have hfound := (front_covers hq htail).2.1
    rw [h] at hfound
    cases hfound

theorem blunder_stray (h : StartsNothing a) (rest : Text) : Blunder (a :: rest) [a] where
  nonempty := List.cons_ne_nil _ _
  isPrefix := List.cons_prefix_cons.mpr ⟨rfl, List.nil_prefix⟩
  unmatched := unmatched_of_front_error (by rw [h.front_eq]; rfl)
  alive v hv hne := by
    cases v with
    | nil => exact ⟨.blank, [0x20], Pattern.mem_blank.mpr ⟨rfl, nofun⟩⟩
    | cons b v =>
      obtain ⟨rfl, htail⟩ := List.cons_prefix_cons.mp hv
      exact absurd (by rw [List.prefix_nil.mp htail]) hne
  dead := fun ⟨q, u, hq⟩ => absurd hq (h.notMem q u)

theorem stringEnd?_eq_none {t : Text} (h : stringEnd? t = none) : ∀ b ∈ t, b ≠ Text.quote := by
  induction t with
  | nil => nofun
  | cons b t ih =>
    rw [stringEnd?] at h
    split at h
    next => cases h
    next hb => exact List.forall_mem_cons.mpr ⟨hb, ih (Option.map_eq_none_iff.mp h)⟩

theorem blunder_openString (h : stringEnd? rest = none) :
    Blunder (Text.quote :: rest) (Text.quote :: rest) where
  nonempty := List.cons_ne_nil _ _
  isPrefix := List.prefix_refl _
  unmatched := unmatched_of_front_error (by rw [front_openString h]; rfl)
  alive v hv _ := by
    -- The quote that is missing would make a lexeme of it.
    cases v with
    | nil => exact ⟨.string, [Text.quote, Text.quote], Pattern.mem_string.mpr ⟨rfl, rfl⟩⟩
    | cons b v =>
      obtain ⟨rfl, htail⟩ := List.cons_prefix_cons.mp hv
      refine ⟨.string, [Text.quote], Pattern.mem_string.mpr ⟨rfl, ?_⟩⟩
      exact stringEnd?_eq_length.mpr
        ⟨v, rfl, fun b hb => stringEnd?_eq_none h b (htail.subset hb)⟩
  dead _ := rfl

/-- The segments from an offset on are the pieces there, and their events those of the pieces. -/
theorem scans_cut (source : Text) (i : Nat) (hi : i ≤ source.length) :
    Scans source i ((cut (source.drop i)).map bytes)
      (events (positionAt source i) (cut (source.drop i))) := by
  induction hn : source.length - i using Nat.strong_induction_on generalizing i with
  | _ n ih =>
  subst hn
  cases hrest : source.drop i with
  | nil =>
    obtain rfl : i = source.length := Nat.le_antisymm hi (List.drop_eq_nil_iff.mp hrest)
    exact .ended
  | cons a rest =>
    have hle := (front_fits a rest).1
    have hlength : source.length - i = rest.length + 1 := by
      rw [← List.length_drop, hrest, List.length_cons]
    have hpiece : a :: rest.take (front a rest).2 <+: source.drop i := by
      rw [hrest]
      exact List.cons_prefix_cons.mpr ⟨rfl, List.take_prefix _ _⟩
    have hnext : source.drop (i + ((front a rest).2 + 1)) = rest.drop (front a rest).2 := by
      rw [← List.drop_drop, hrest, List.drop_succ_cons]
    have hlater := ih _ (by omega) (i + ((front a rest).2 + 1)) (by omega) rfl
    have hposition := advance_positionAt hpiece
    rw [List.length_cons, List.length_take_of_le hle] at hposition
    rw [hnext, ← hposition] at hlater
    rw [cut_cons, List.map_cons, events]
    cases herror : (front a rest).1.isError with
    | false =>
      obtain ⟨p, hcls, hmem⟩ := (front_fits a rest).2.resolve_left (by rw [herror]; nofun)
      refine .lexeme (by rw [hrest]; exact munch_front hmem) (yields_event? hcls hmem _) ?_
      rw [List.length_cons, List.length_take_of_le hle]
      exact hlater
    | true =>
      rcases front_error herror with hnothing | ⟨rfl, hopen⟩
      · rw [hnothing.front_eq] at hlater ⊢
        exact .of_blunder (by rw [hrest]; exact blunder_stray hnothing rest) hlater
      · rw [front_openString hopen, List.take_length] at hlater ⊢
        exact .of_blunder (by rw [hrest]; exact blunder_openString hopen) hlater

end Segment

namespace Scanner

open Segment

variable {p : Position} {s : Segment} {rest : List Segment}

theorem reports_skip (h : s.event? p = none) (n : Nat) :
    reports n ⟨p, s :: rest⟩ = reports n ⟨p.advance s.bytes, rest⟩ := by
  cases n with
  | zero => rfl
  | succ n => simp only [reports, next, nextFrom, h]

theorem reports_token {t : Token} (h : s.event? p = some (.token t)) (n : Nat) :
    reports (n + 1) ⟨p, s :: rest⟩ = .token t :: reports n ⟨p.advance s.bytes, rest⟩ := by
  simp only [reports, next, nextFrom, h, List.map_nil, List.nil_append]

theorem reports_error {e : ScanError} (h : s.event? p = some (.error e)) (n : Nat) :
    reports (n + 1) ⟨p, s :: rest⟩ = .error e :: reports (n + 1) ⟨p.advance s.bytes, rest⟩ := by
  simp only [reports, next, nextFrom, h, List.map_cons, List.cons_append]

theorem reports_nil (p : Position) (n : Nat) :
    reports n ⟨p, []⟩ = List.replicate n (.token (.endOfInput p)) := by
  induction n with
  | zero => rfl
  | succ n ih =>
    simp only [reports, next, nextFrom, ih, List.map_nil, List.nil_append, List.replicate_succ]

/-- A scanner that is asked often enough reports the events of its segments, and then the end. -/
theorem reports_eq (p : Position) (segments : List Segment) (n : Nat) :
    reports ((Event.tokens (events p segments)).length + (n + 1)) ⟨p, segments⟩ =
      events p segments ++ List.replicate (n + 1)
        (.token (.endOfInput (p.advance (segments.map bytes).flatten))) := by
  induction segments generalizing p with
  | nil => exact (congrArg (reports · ⟨p, []⟩) (Nat.zero_add _)).trans (reports_nil p (n + 1))
  | cons s rest ih =>
    have hlater := ih (p.advance s.bytes)
    rw [← advance_append] at hlater
    rw [events, List.map_cons, List.flatten_cons]
    cases hevent : s.event? p with
    | none => exact (reports_skip hevent _).trans hlater
    | some event =>
      cases event with
      | token t =>
        have hcount : (Event.tokens ([.token t] ++ events (p.advance s.bytes) rest)).length +
            (n + 1) = (Event.tokens (events (p.advance s.bytes) rest)).length + (n + 1) + 1 := by
          simp only [Event.tokens, List.cons_append, List.nil_append, List.filterMap_cons,
            List.length_cons]
          omega
        rw [Option.toList_some, hcount, reports_token hevent, hlater]
        rfl
      | error e =>
        have hcount : Event.tokens ([.error e] ++ events (p.advance s.bytes) rest) =
            Event.tokens (events (p.advance s.bytes) rest) := rfl
        rw [Option.toList_some, hcount, ← Nat.add_assoc, reports_error hevent, Nat.add_assoc,
          hlater]
        rfl

end Scanner

/-- **Longest matches.** Every source splits into pieces that are not empty and cover it, and its
events are those of the pieces. There is one such split, and no word matches two patterns. A scanner
reports these events; from then on it reports the end of the source, however often it is asked. -/
theorem scan_munches (source : Text) :
    (∃ pieces, pieces.flatten = source ∧ (∀ w ∈ pieces, w ≠ []) ∧
      Scans source 0 pieces (scan source)) ∧
    (∀ pieces events, Scans source 0 pieces events → events = scan source) ∧
    (∀ (p q : Pattern) (w : Text), w ∈ p.language → w ∈ q.language → p = q) ∧
    ∀ n, Scanner.reports ((Event.tokens (scan source)).length + (n + 1)) (.ofSource source) =
      scan source ++
        List.replicate (n + 1) (.token (.endOfInput (positionAt source source.length))) := by
  have hscans : Scans source 0 ((Segment.cut source).map Segment.bytes) (scan source) :=
    Segment.scans_cut source 0 (Nat.zero_le _)
  obtain ⟨hflatten, hne⟩ := hscans.pieces_eq
  refine ⟨⟨_, hflatten, hne, hscans⟩, fun _ _ h => (hscans.unique h).2,
    fun _ _ _ => Pattern.language_disjoint, fun n => ?_⟩
  have hreports := Scanner.reports_eq .start (Segment.cut source) n
  have hend : Position.start.advance ((Segment.cut source).map Segment.bytes).flatten =
      positionAt source source.length := by
    rw [hflatten, List.drop_zero, ← ofOffset_eq_positionAt, Position.ofOffset, List.take_length]
  rw [hend] at hreports
  exact hreports

end Dynascope
