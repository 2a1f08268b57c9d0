import Dynascope.Proofs.Token.Offences
import Dynascope.Proofs.Token.Scanned

/-!
# Positions in order

Bytes that come later in a source have later positions, so a position tells its byte.

* `Position.Before p q`: the row is smaller, or the rows are the same and the column is smaller.
* `positionAt_before`: positions are in the order of the offsets.
* `offsetAt`: the offset of a position.
* `Event.position?`: where an event is. A numeral out of range is reported without a position.
* `Event.untilEnd`: what a scanner reports up to the first token for the end of the input.
* `positions_ascend`: whatever a scanner reports comes in the order of the positions.
-/

namespace Dynascope

/-! ## The order of positions -/

namespace Position

/-- Rows are compared first, and columns within a row. -/
def Before (p q : Position) : Prop :=
  p.row < q.row ∨ p.row = q.row ∧ p.column < q.column

theorem Before.trans {p q r : Position} (h : p.Before q) (k : q.Before r) : p.Before r := by
  unfold Before at *
  omega

theorem before_step (p : Position) (b : UInt8) : p.Before (p.step b) := by
  unfold step
  split
  · exact .inl (Int.lt_succ p.row)
  · exact .inr ⟨rfl, Int.lt_succ p.column⟩

/-- The position after some bytes is a later one. -/
theorem before_advance (p : Position) {t : Text} (h : t ≠ []) : p.Before (p.advance t) := by
  induction t generalizing p with
  | nil => exact absurd rfl h
  | cons b t ih =>
    have hstep := before_step p b
    cases t with
    | nil => exact hstep
    | cons c t => exact hstep.trans (ih (p.step b) (List.cons_ne_nil c t))

end Position

/-- **The order of offsets.** A later offset has a later position. -/
theorem positionAt_before {source : Text} {i j : Nat} (hij : i < j) (hj : j ≤ source.length) :
    (positionAt source i).Before (positionAt source j) := by
  have hlength : ((source.drop i).take (j - i)).length = j - i := by
    rw [List.length_take, List.length_drop]
    omega
  have hne : (source.drop i).take (j - i) ≠ [] := by
    refine List.ne_nil_of_length_pos ?_
    omega
  have hadvance := advance_positionAt (List.take_prefix (j - i) (source.drop i))
  rw [hlength, Nat.add_sub_cancel' (Nat.le_of_lt hij)] at hadvance
  rw [← hadvance]
  exact Position.before_advance _ hne

/-! ## The offset of a position -/

/-- The number of bytes before a row: those up to the newline that ends the row before it. -/
def rowStart : (rows : Nat) → Text → Nat
  | 0, _ => 0
  | _ + 1, [] => 0
  | n + 1, b :: rest => rowStart (if b = Text.newline then n else n + 1) rest + 1

/-- The offset of a position: the bytes before its row, and those before it in its row. -/
def offsetAt (source : Text) (p : Position) : Nat :=
  rowStart (p.row - 1).toNat source + (p.column - 1).toNat

/-- A row starts behind the newline before it. -/
theorem rowStart_newline (t rest : Text) :
    rowStart (t.count Text.newline + 1) (t ++ Text.newline :: rest) = t.length + 1 := by
  induction t with
  | nil =>
    rw [List.nil_append, List.count_nil, rowStart, if_pos rfl, rowStart, List.length_nil]
  | cons b t ih =>
    rw [List.cons_append, rowStart, List.length_cons]
    by_cases hb : b = Text.newline
    · rw [if_pos hb, hb, List.count_cons_self, ih]
    · rw [if_neg hb, List.count_cons_of_ne hb, ih]

/-- The bytes of a text are those before its last row and those in it. -/
theorem rowStart_add (t rest : Text) : rowStart (t.count Text.newline) (t ++ rest) +
    (t.rtakeWhile (· ≠ Text.newline)).length = t.length := by
  induction t using List.reverseRecOn generalizing rest with
  | nil =>
    rw [List.count_nil, rowStart]
    rfl
  | append_singleton t b ih =>
    rw [List.append_assoc, List.singleton_append, List.count_append, List.length_append]
    by_cases hb : b = Text.newline
    · subst hb
      rw [List.rtakeWhile_concat_neg _ _ _ (by simp), List.count_singleton_self, rowStart_newline]
      rfl
    · have hcount : [b].count Text.newline = 0 := List.count_eq_zero.mpr (by simpa using Ne.symm hb)
      rw [List.rtakeWhile_concat_pos _ _ _ (by simpa using hb), hcount, Nat.add_zero,
        List.length_append, ← Nat.add_assoc, ih]

/-- **Positions tell offsets.** The offset of the position of an offset is that offset. -/
theorem offsetAt_positionAt {source : Text} {i : Nat} (hi : i ≤ source.length) :
    offsetAt source (positionAt source i) = i := by
  have hsplit := rowStart_add (source.take i) (source.drop i)
  rw [List.take_append_drop, List.length_take_of_le hi] at hsplit
  simpa [offsetAt, positionAt] using hsplit

/-! ## The places of events -/

/-- Where an event is. A numeral out of range is reported without a position. -/
def Event.position? : Event → Option Position
  | .token t => some t.position
  | .error (.unexpected _ p) => some p
  | .error (.outOfRange _) => none

namespace Segment

variable {source rest : Text} {a : UInt8} {i : Nat}

/-- The event of a segment is at one of its bytes: a token or a stray byte at the first one, a
string that is not closed at the last one. -/
theorem exists_offset_of_event (h : source.drop i = a :: rest) {event : Event}
    (hevent : (first a rest).event? (positionAt source i) = some event) {p : Position}
    (hp : event.position? = some p) :
    ∃ k, i ≤ k ∧ k < i + (first a rest).bytes.length ∧ p = positionAt source k := by
  have hpos := first_bytes_length a rest
  cases herror : (first a rest).cls.isError with
  | true =>
    rw [event?_of_isError h herror (k := i + (front a rest).2) (by omega)] at hevent
    obtain rfl := Option.some.inj hevent
    exact ⟨i + (front a rest).2, by omega, by omega, (Option.some.inj hp).symm⟩
  | false =>
    refine ⟨i, Nat.le_refl i, by omega, ?_⟩
    unfold event? at hevent
    split at hevent
    next => cases hevent
    next => cases hevent
    next => obtain rfl := Option.some.inj hevent; exact (Option.some.inj hp).symm
    next => obtain rfl := Option.some.inj hevent; exact (Option.some.inj hp).symm
    next =>
      split at hevent
      next => obtain rfl := Option.some.inj hevent; exact (Option.some.inj hp).symm
      next => obtain rfl := Option.some.inj hevent; cases hp
    next => obtain rfl := Option.some.inj hevent; exact (Option.some.inj hp).symm
    next hcls => rw [hcls] at herror; cases herror
    next hcls => rw [hcls] at herror; cases herror

/-- From an offset on, the events are at increasing offsets of the source. -/
theorem exists_offsets_from (source : Text) (i : Nat) (hi : i ≤ source.length) :
    ∃ offsets : List Nat, offsets.Pairwise (· < ·) ∧
      (∀ k ∈ offsets, i ≤ k ∧ k < source.length) ∧
      (events (positionAt source i) (cut (source.drop i))).filterMap Event.position? =
        offsets.map (positionAt source) := by
  refine at_induction ?ended ?segment i hi
  case ended =>
    rw [List.drop_length]
    exact ⟨[], .nil, nofun, rfl⟩
  case segment =>
    rintro i a rest h ⟨offsets, hsorted, hbounds, hevents⟩
    have hpos := first_bytes_length a rest
    have hle := add_first_le h
    have hprefix : (first a rest).bytes <+: source.drop i := h ▸ first_bytes_at_front a rest
    rw [cut_drop h, events, advance_positionAt hprefix, List.filterMap_append, hevents]
    cases hevent : (first a rest).event? (positionAt source i) with
    | none => exact ⟨offsets, hsorted, fun k hk => ⟨by have := hbounds k hk; omega,
        (hbounds k hk).2⟩, rfl⟩
    | some event =>
      cases hp : event.position? with
      | none =>
        refine ⟨offsets, hsorted, fun k hk => ⟨by have := hbounds k hk; omega,
          (hbounds k hk).2⟩, ?_⟩
        rw [Option.toList_some, List.filterMap_cons_none hp]
        rfl
      | some p =>
        obtain ⟨k, hik, hk, rfl⟩ := exists_offset_of_event h hevent hp
        refine ⟨k :: offsets, hsorted.cons fun j hj => ?_, ?_, ?_⟩
        · have := hbounds j hj
          omega
        · rintro j hj
          rcases List.mem_cons.mp hj with rfl | hj
          · exact ⟨hik, by omega⟩
          · have := hbounds j hj
            exact ⟨by omega, this.2⟩
        · rw [Option.toList_some, List.filterMap_cons_some hp]
          rfl

end Segment

/-! ## What a scanner reports -/

/-- The events of a source, and its end. -/
def scanWithEnd (source : Text) : List Event :=
  scan source ++ [.token (endToken source)]

/-- The events up to the first token for the end of the input. -/
def Event.untilEnd : List Event → List Event
  | [] => []
  | .error e :: rest => .error e :: untilEnd rest
  | .token t :: rest => if t.kind = .endOfInput then [.token t] else .token t :: untilEnd rest

namespace Event

theorem untilEnd_mono {es fs : List Event} (h : es <+: fs) : untilEnd es <+: untilEnd fs := by
  induction es generalizing fs with
  | nil => exact List.nil_prefix
  | cons e es ih =>
    obtain ⟨fs, rfl, hfs⟩ := List.cons_prefix_iff.mp h
    cases e with
    | error e => exact List.cons_prefix_cons.mpr ⟨rfl, ih hfs⟩
    | token t =>
      unfold untilEnd
      split
      · exact List.prefix_refl _
      · exact List.cons_prefix_cons.mpr ⟨rfl, ih hfs⟩

/-- The first token for the end ends the events. -/
theorem untilEnd_append {es rest : List Event} {t : Token}
    (h : ∀ u ∈ tokens es, u.kind ≠ .endOfInput) (ht : t.kind = .endOfInput) :
    untilEnd (es ++ .token t :: rest) = es ++ [.token t] := by
  induction es with
  | nil => exact if_pos ht
  | cons e es ih =>
    cases e with
    | error e => exact congrArg _ (ih h)
    | token u =>
      have hu : ∀ v ∈ u :: tokens es, v.kind ≠ .endOfInput := h
      rw [List.forall_mem_cons] at hu
      rw [List.cons_append, untilEnd, if_neg hu.1, ih hu.2, List.cons_append]

end Event

namespace Scanner

/-- A scanner that is asked more often reports the same first. -/
theorem reports_mono {m n : Nat} (h : m ≤ n) (s : Scanner) : reports m s <+: reports n s := by
  induction m generalizing n s with
  | zero => exact List.nil_prefix
  | succ m ih =>
    obtain ⟨n, rfl⟩ : ∃ k, n = k + 1 := ⟨n - 1, by omega⟩
    unfold reports
    exact (List.prefix_append_right_inj _).mpr
      (List.cons_prefix_cons.mpr ⟨rfl, ih (by omega) _⟩)

/-- A scanner that is asked once more than there are tokens reports the events of the source and
then its end. -/
theorem reports_ofSource (source : Text) :
    reports ((Event.tokens (scan source)).length + 1) (.ofSource source) =
      scanWithEnd source := by
  have hreports := reports_eq .start (Segment.cut source) 0
  have hflatten := (Segment.scans_cut source 0 (Nat.zero_le _)).pieces_eq.1
  rw [List.drop_zero] at hflatten
  rw [hflatten] at hreports
  exact hreports

/-- Up to the first end, a scanner that is asked often enough reports the events of the source and
its end. -/
theorem untilEnd_reports {source : Text} {n : Nat}
    (hn : (Event.tokens (scan source)).length < n) :
    Event.untilEnd (reports n (.ofSource source)) = scanWithEnd source := by
  obtain ⟨rest, hrest⟩ := reports_mono hn (.ofSource source)
  rw [reports_ofSource, scanWithEnd, List.append_assoc] at hrest
  rw [← hrest]
  exact Event.untilEnd_append (fun _ => scan_kind) rfl

/-- A scanner that is asked less often reports a part of this. -/
theorem untilEnd_reports_mono (source : Text) (n : Nat) :
    Event.untilEnd (reports n (.ofSource source)) <+: scanWithEnd source := by
  have hle := Nat.le_max_left n ((Event.tokens (scan source)).length + 1)
  have henough : Event.untilEnd (reports (max n _) (.ofSource source)) = scanWithEnd source :=
    untilEnd_reports (Nat.le_max_right n _)
  rw [← henough]
  exact Event.untilEnd_mono (reports_mono hle _)

end Scanner

/-- The events of a source and its end are at increasing offsets. -/
theorem exists_offsets (source : Text) :
    ∃ offsets : List Nat, offsets.Pairwise (· < ·) ∧ (∀ k ∈ offsets, k ≤ source.length) ∧
      (scanWithEnd source).filterMap Event.position? = offsets.map (positionAt source) := by
  obtain ⟨offsets, hsorted, hbounds, hevents⟩ :=
    Segment.exists_offsets_from source 0 (Nat.zero_le _)
  have hscan : (scan source).filterMap Event.position? = offsets.map (positionAt source) := hevents
  have hend : (endToken source).position = positionAt source source.length := by
    rw [← ofOffset_eq_positionAt, Position.ofOffset, List.take_length]
    rfl
  refine ⟨offsets ++ [source.length], ?_, ?_, ?_⟩
  · refine List.pairwise_append.mpr ⟨hsorted, List.pairwise_singleton _ _, fun k hk j hj => ?_⟩
    rw [List.mem_singleton.mp hj]
    exact (hbounds k hk).2
  · intro k hk
    rcases List.mem_append.mp hk with hk | hk
    · exact Nat.le_of_lt (hbounds k hk).2
    · exact Nat.le_of_eq (List.mem_singleton.mp hk)
  · rw [scanWithEnd, List.filterMap_append, List.map_append, hscan, List.map_singleton, ← hend]
    rfl

/-- **Positions in order.** A later offset has a later position, rows and columns count from one,
and the offset can be told from the position. However often a scanner is asked, the tokens and
errors that it reports up to the first end of the input come in the order of their positions; if it
is asked often enough, these are all events of the source and then its end. -/
theorem positions_ascend (source : Text) :
    (∀ i j, i < j → j ≤ source.length →
      (positionAt source i).Before (positionAt source j)) ∧
    (∀ i, 1 ≤ (positionAt source i).row ∧ 1 ≤ (positionAt source i).column) ∧
    (∀ i, i ≤ source.length → offsetAt source (positionAt source i) = i) ∧
    (∀ n, ((Event.untilEnd (Scanner.reports n (.ofSource source))).filterMap
      Event.position?).Pairwise Position.Before) ∧
    ∀ n, (Event.tokens (scan source)).length < n →
      Event.untilEnd (Scanner.reports n (.ofSource source)) = scanWithEnd source := by
  refine ⟨fun _ _ => positionAt_before, fun i => ?_, fun _ => offsetAt_positionAt, fun n => ?_,
    fun _ => Scanner.untilEnd_reports⟩
  · simp only [positionAt]
    omega
  · obtain ⟨offsets, hsorted, hbounds, hevents⟩ := exists_offsets source
    have hall : ((scanWithEnd source).filterMap Event.position?).Pairwise Position.Before := by
      rw [hevents, List.pairwise_map]
      exact hsorted.imp_of_mem fun _ hj hij => positionAt_before hij (hbounds _ hj)
    exact hall.sublist ((Scanner.untilEnd_reports_mono source n).sublist.filterMap _)

/-- Both sides of a newline in a string that is not closed. -/
theorem positions_ascend_openString :
    let source : Text := "x\n \"y\n"
    (4 < 5 ∧ 5 ≤ source.length) ∧ (positionAt source 4).Before (positionAt source 5) ∧
      (Event.tokens (scan source)).length < 3 ∧
      Event.untilEnd (Scanner.reports 3 (.ofSource source)) = scanWithEnd source := by
  intro source
  have hshort : (Event.tokens (scan source)).length < 3 := by decide +kernel
  obtain ⟨hbefore, -, -, -, hall⟩ := positions_ascend source
  exact ⟨by decide, hbefore 4 5 (by decide) (by decide), hshort, hall 3 hshort⟩

/-- An error at the newline that ends the source, in a string that is not closed. -/
example : (scanWithEnd "x\n \"y\n").filterMap Event.position? = [⟨1, 1⟩, ⟨2, 4⟩, ⟨3, 1⟩] := by
  decide +kernel

end Dynascope
