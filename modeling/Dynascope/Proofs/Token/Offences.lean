import Dynascope.Proofs.Token.Places

/-!
# Unexpected bytes

The scanner finds a byte unexpected for two reasons: no lexeme starts with it, or it is the last
byte of a source in which a string is not closed.

* `Offence source i k`: at the offset `i` stands what starts no lexeme, and the scanner notices it
  at the offset `k`.
* `byteError`: the error about the byte at an offset.
* `Segment.offences`: the places of the segments that are errors, with those where they are noticed.
* `scan_offences`: there is one error for each offence, in the order of the source; behind it the
  scanner goes on. A source has tokens only if there is no offence and no numeral is out of range.
-/

namespace Dynascope

/-- At the offset `i`, where a lexeme should start, the source is wrong, which is noticed at the
offset `k`: the byte there starts no lexeme, or it is a double quote and there is no other one up to
the end. -/
inductive Offence (source : Text) : (i k : Nat) → Prop where
  | stray {i : Nat} {b : UInt8} (h : source[i]? = some b) (hdead : ¬ Alive [b]) : Offence source i i
  | openString {i : Nat} (h : source[i]? = some Text.quote)
      (hopen : Text.quote ∉ source.drop (i + 1)) : Offence source i (source.length - 1)

/-- The error about the byte at an offset. -/
def byteError (source : Text) (k : Nat) : ScanError :=
  .unexpected (source.extract k (k + 1)) (positionAt source k)

/-- Whether the error is about an unexpected byte. -/
def ScanError.isUnexpected : ScanError → Bool
  | unexpected _ _ => true
  | outOfRange _ => false

/-- A lexeme has no error unless it is a numeral out of range. -/
theorem Yields.errors_eq_nil {p : Pattern} {w : Text} {pos : Position}
    {events : List Event} (h : Yields p w pos events) :
    Event.errors events = [] ↔ (p = .numeral → Number.read w ≠ .outOfRange) := by
  cases h with
  | number hread => exact ⟨fun _ _ => by rw [hread]; nofun, fun _ => rfl⟩
  | outOfRange hread => exact ⟨nofun, fun h => absurd hread (h rfl)⟩
  | _ => exact ⟨nofun, fun _ => rfl⟩

theorem alive_quote : Alive [Text.quote] :=
  ⟨.string, [Text.quote], Pattern.mem_string.mpr ⟨rfl, rfl⟩⟩

/-- A string that is not closed is noticed at the end of the source. -/
theorem Offence.at_quote {source : Text} {i k : Nat} (h : Offence source i k)
    (hquote : source[i]? = some Text.quote) : k + 1 = source.length := by
  have hpos : i < source.length := (List.getElem?_eq_some_iff.mp hquote).1
  cases h with
  | stray h hdead =>
    obtain rfl := Option.some.inj (h.symm.trans hquote)
    exact absurd alive_quote hdead
  | openString => omega

namespace Segment

variable {source rest : Text} {a : UInt8} {i i' k : Nat} {s : Segment}

/-! ## Where no lexeme starts -/

theorem startsNothing_iff : StartsNothing a ↔ ¬ Alive [a] := by
  constructor
  · rintro h ⟨p, u, hmem⟩
    exact h.notMem p u hmem
  · intro hdead
    have herror : (front a []).1.isError = true := by
      refine (front_fits a []).2.resolve_right ?_
      rintro ⟨p, -, hmem⟩
      exact hdead ⟨p, _, hmem⟩
    refine (front_error herror).resolve_right ?_
    rintro ⟨rfl, -⟩
    exact hdead alive_quote

theorem stringEnd?_eq_none_iff : stringEnd? rest = none ↔ Text.quote ∉ rest := by
  constructor
  · exact fun h hmem => stringEnd?_eq_none h _ hmem rfl
  · intro hmem
    induction rest with
    | nil => rfl
    | cons b rest ih =>
      rw [List.mem_cons, not_or] at hmem
      rw [stringEnd?, if_neg (Ne.symm hmem.1), ih hmem.2]
      rfl

theorem getElem?_of_drop (h : source.drop i = a :: rest) : source[i]? = some a := by
  rw [← List.head?_drop, h]
  rfl

theorem drop_succ (h : source.drop i = a :: rest) : source.drop (i + 1) = rest := by
  rw [← List.drop_drop, h]
  rfl

/-- A segment is an error if and only if there is an offence at its place, which is noticed at the
last byte of the segment. -/
theorem offence_iff (h : source.drop i = a :: rest) : Offence source i k ↔
    (first a rest).cls.isError = true ∧ k + 1 = i + (first a rest).bytes.length := by
  have hlength := congrArg List.length h
  rw [List.length_drop, List.length_cons] at hlength
  rw [first_bytes_length, first]
  constructor
  · rintro (⟨hbyte, hdead⟩ | ⟨hbyte, hopen⟩)
    · rw [getElem?_of_drop h, Option.some_inj] at hbyte
      subst hbyte
      rw [(startsNothing_iff.mpr hdead).front_eq]
      exact ⟨rfl, rfl⟩
    · rw [getElem?_of_drop h, Option.some_inj] at hbyte
      subst hbyte
      rw [drop_succ h] at hopen
      rw [front_openString (stringEnd?_eq_none_iff.mpr hopen)]
      exact ⟨rfl, by omega⟩
  · rintro ⟨herror, hk⟩
    rcases front_error herror with hnothing | ⟨rfl, hopen⟩
    · rw [hnothing.front_eq] at hk
      obtain rfl : k = i := Nat.succ.inj hk
      exact .stray (getElem?_of_drop h) (startsNothing_iff.mp hnothing)
    · rw [front_openString hopen] at hk
      obtain rfl : k = source.length - 1 := by omega
      refine .openString (getElem?_of_drop h) ?_
      rw [drop_succ h]
      exact stringEnd?_eq_none_iff.mp hopen

/-! ## The error of a segment -/

/-- The last byte of what follows an offset. -/
theorem byteError_last (h : source.drop i = a :: rest) : byteError source (i + rest.length) =
    .unexpected ((a :: rest).drop rest.length)
      ((positionAt source i).advance (a :: rest).dropLast) := by
  have hprefix : (a :: rest).dropLast <+: source.drop i := h ▸ List.dropLast_prefix _
  have hdrop : source.drop (i + rest.length) = (a :: rest).drop rest.length := by
    rw [← List.drop_drop, h]
  have hone : ((a :: rest).drop rest.length).length ≤ 1 := by
    rw [List.length_drop, List.length_cons]
    omega
  rw [byteError, List.extract_eq_take_drop, hdrop, Nat.add_sub_cancel_left,
    List.take_of_length_le hone, advance_positionAt hprefix, List.length_dropLast_cons]

/-- The error of a segment is about its last byte. -/
theorem event?_of_isError (h : source.drop i = a :: rest)
    (herror : (first a rest).cls.isError = true)
    (hk : k + 1 = i + (first a rest).bytes.length) :
    (first a rest).event? (positionAt source i) = some (.error (byteError source k)) := by
  rw [first_bytes_length] at hk
  rcases front_error herror with hnothing | ⟨rfl, hopen⟩
  · rw [hnothing.front_eq] at hk
    obtain rfl : k = i := Nat.succ.inj hk
    rw [first, hnothing.front_eq, byteError, List.extract_eq_take_drop, Nat.add_sub_cancel_left, h]
    rfl
  · rw [front_openString hopen] at hk
    obtain rfl : k = i + rest.length := Nat.succ.inj hk
    rw [byteError_last h, first, front_openString hopen, List.take_length]
    rfl

/-- A segment that is no error has no error about a byte. -/
theorem errors_event?_of_isError (herror : s.cls.isError = false) (pos : Position) :
    (Event.errors (s.event? pos).toList).filter ScanError.isUnexpected = [] := by
  unfold event?
  cases hcls : s.cls with
  | numeral => cases Number.read s.bytes <;> simp [Event.errors, ScanError.isUnexpected]
  | stray => rw [hcls] at herror; cases herror
  | openString => rw [hcls] at herror; cases herror
  | _ => rfl

/-! ## The offences of a source -/

/-- The place of a segment that is an error, with that of its last byte. -/
def offence? (x : Nat × Segment) : Option (Nat × Nat) :=
  if x.2.cls.isError then some (x.1, x.1 + (x.2.bytes.length - 1)) else none

/-- The places of the segments that are errors, each with that of its last byte. -/
def offences (source : Text) : List (Nat × Nat) :=
  (placed source).filterMap offence?

theorem offence?_eq_some : offence? (i, s) = some (i', k) ↔
    i' = i ∧ s.cls.isError = true ∧ k = i + (s.bytes.length - 1) := by
  constructor
  · intro h
    unfold offence? at h
    split at h
    next herror =>
      obtain ⟨rfl, rfl⟩ := Prod.mk.inj (Option.some.inj h)
      exact ⟨rfl, herror, rfl⟩
    next => cases h
  · rintro ⟨rfl, herror, rfl⟩
    exact if_pos herror

theorem mem_offences : (i, k) ∈ offences source ↔ Starts source i ∧ Offence source i k := by
  constructor
  · intro h
    obtain ⟨⟨j, s⟩, hs, hsome⟩ := List.mem_filterMap.mp h
    obtain ⟨rfl, herror, hk⟩ := offence?_eq_some.mp hsome
    obtain ⟨a, rest, hrest, rfl⟩ := exists_drop_of_mem_placed hs
    refine ⟨⟨_, hs⟩, (offence_iff hrest).mpr ⟨herror, ?_⟩⟩
    rw [first_bytes_length] at hk ⊢
    omega
  · rintro ⟨hstarts, hoffence⟩
    obtain ⟨a, rest, hrest, hs⟩ := hstarts.exists_front
    obtain ⟨herror, hk⟩ := (offence_iff hrest).mp hoffence
    refine List.mem_filterMap.mpr ⟨_, hs, offence?_eq_some.mpr ⟨rfl, herror, ?_⟩⟩
    rw [first_bytes_length] at hk ⊢
    omega

theorem offences_pairwise (source : Text) : (offences source).Pairwise (·.1 < ·.1) := by
  refine (placed_pairwise source).filterMap offence? ?_
  rintro ⟨i, s⟩ ⟨i', s'⟩ hlt ⟨j, k⟩ h ⟨j', k'⟩ h'
  rw [(offence?_eq_some.mp h).1, (offence?_eq_some.mp h').1]
  exact hlt

/-- The errors about bytes are those of the offences, one for each. -/
theorem errors_eq_map_offences (source : Text) :
    (Event.errors (scan source)).filter ScanError.isUnexpected =
      (offences source).map fun x => byteError source x.2 := by
  rw [scan_eq_flatMap_placed, Event.errors, List.filterMap_flatMap, List.filter_flatMap, offences,
    List.map_filterMap, List.filterMap_eq_flatMap_toList]
  refine List.flatMap_congr ?_
  rintro ⟨i, s⟩ hs
  obtain ⟨a, rest, hrest, rfl⟩ := exists_drop_of_mem_placed hs
  cases herror : (first a rest).cls.isError with
  | true =>
    have hk := first_bytes_length a rest
    rw [event?_of_isError hrest herror (k := i + ((first a rest).bytes.length - 1)) (by omega)]
    simp [offence?, herror, ScanError.isUnexpected, byteError]
  | false =>
    rw [show offence? (i, first a rest) = none by simp [offence?, herror]]
    exact errors_event?_of_isError herror _

/-- The scanner takes what offends up to where it notices, and reports it. -/
theorem takes_offence (hstarts : Starts source i) (h : Offence source i k) :
    Takes source i (k + 1) [.error (byteError source k)] := by
  obtain ⟨a, rest, hrest, hs⟩ := hstarts.exists_front
  obtain ⟨herror, hk⟩ := (offence_iff hrest).mp h
  exact ⟨_, hs, hk.symm, by rw [event?_of_isError hrest herror hk]; rfl⟩

/-! ## Sources without errors -/

/-- A segment has no error if there is no offence at its place and no numeral out of range. -/
theorem errors_event?_eq_nil_iff (h : source.drop i = a :: rest) :
    Event.errors ((first a rest).event? (positionAt source i)).toList = [] ↔
      (∀ k, ¬ Offence source i k) ∧
        ∀ w, Munch (source.drop i) w .numeral → Number.read w ≠ .outOfRange := by
  rw [h]
  cases herror : (first a rest).cls.isError with
  | true =>
    have hk : i + (front a rest).2 + 1 = i + (first a rest).bytes.length := by
      rw [first_bytes_length, Nat.add_assoc]
    have hoffence := (offence_iff h).mpr ⟨herror, hk⟩
    rw [event?_of_isError h herror hk]
    exact ⟨nofun, fun hnone => absurd hoffence (hnone.1 _)⟩
  | false =>
    obtain ⟨p, hcls, hmem⟩ := (front_fits a rest).2.resolve_left (by
      rw [show (front a rest).1.isError = false from herror]
      nofun)
    have hmunch : Munch (a :: rest) (first a rest).bytes p := munch_front hmem
    have hnone : ∀ k, ¬ Offence source i k := by
      intro k hoffence
      rw [((offence_iff h).mp hoffence).1] at herror
      cases herror
    rw [(yields_event? hcls hmem _).errors_eq_nil]
    constructor
    · intro hread
      refine ⟨hnone, fun w hw => ?_⟩
      obtain ⟨rfl, rfl⟩ := hmunch.unique hw
      exact hread rfl
    · rintro ⟨-, hread⟩ rfl
      exact hread _ hmunch

end Segment

open Segment

/-- A source has tokens if and only if nothing offends and no numeral is out of range. -/
theorem errors_scan_eq_nil_iff (source : Text) : Event.errors (scan source) = [] ↔
    ∀ i, Starts source i → (∀ k, ¬ Offence source i k) ∧
      ∀ w, Munch (source.drop i) w .numeral → Number.read w ≠ .outOfRange := by
  rw [scan_eq_flatMap_placed, Event.errors, List.filterMap_flatMap, List.flatMap_eq_nil_iff]
  constructor
  · intro h i hstarts
    obtain ⟨a, rest, hrest, hs⟩ := hstarts.exists_front
    exact (errors_event?_eq_nil_iff hrest).mp (h _ hs)
  · rintro h ⟨i, s⟩ hs
    obtain ⟨a, rest, hrest, rfl⟩ := exists_drop_of_mem_placed hs
    exact (errors_event?_eq_nil_iff hrest).mpr (h i ⟨_, hs⟩)

/-- **Unexpected bytes.** The errors about bytes are those of the offences, one for each and in the
order of the source: a byte at which no lexeme starts, where the scanner goes on with the next byte,
or the last byte of a source that opens a string there and does not close it, which is the last
event. There is no error at all if and only if nothing offends and no numeral is out of range. -/
theorem scan_offences (source : Text) :
    (∃ offences : List (Nat × Nat), offences.Pairwise (·.1 < ·.1) ∧
      (∀ i k, (i, k) ∈ offences ↔ Starts source i ∧ Offence source i k) ∧
      (Event.errors (scan source)).filter ScanError.isUnexpected =
        offences.map fun x => byteError source x.2) ∧
    (∀ i k, Starts source i → Offence source i k →
      Takes source i (k + 1) [.error (byteError source k)] ∧
      (source[i]? = some Text.quote → k + 1 = source.length ∧
        (scan source).getLast? = some (.error (byteError source k)))) ∧
    ((tokenize source).2 = none ↔ ∀ i, Starts source i → (∀ k, ¬ Offence source i k) ∧
      ∀ w, Munch (source.drop i) w .numeral → Number.read w ≠ .outOfRange) := by
  refine ⟨⟨offences source, offences_pairwise source, fun _ _ => mem_offences,
    errors_eq_map_offences source⟩, fun i k hstarts h => ?_, ?_⟩
  · have htakes := takes_offence hstarts h
    refine ⟨htakes, fun hquote => ?_⟩
    have hlast := h.at_quote hquote
    rw [hlast] at htakes
    refine ⟨hlast, ?_⟩
    obtain ⟨before, hbefore⟩ := htakes.suffix
    rw [← hbefore, List.getLast?_append]
    rfl
  · rw [← errors_scan_eq_nil_iff]
    exact List.head?_eq_none_iff

/-- A byte that starts no lexeme, and a string that is not closed. -/
theorem scan_offences_both :
    Takes "x@\"y" 1 2 [.error (.unexpected "@" ⟨1, 2⟩)] ∧
      Takes "x@\"y" 2 4 [.error (.unexpected "y" ⟨1, 4⟩)] ∧
      (scan "x@\"y").getLast? = some (.error (.unexpected "y" ⟨1, 4⟩)) := by
  have hat : Segment.StartsNothing 0x40 :=
    ⟨by decide, by decide, by decide, by decide, by decide, by decide +kernel⟩
  have hstray := (scan_offences "x@\"y").2.1 1 1 (by decide +kernel)
    (.stray (by decide +kernel) (startsNothing_iff.mp hat))
  have hopen := (scan_offences "x@\"y").2.1 2 3 (by decide +kernel)
    (.openString (by decide +kernel) (by decide +kernel))
  exact ⟨hstray.1, hopen.1, (hopen.2 (by decide +kernel)).2⟩

end Dynascope
