import Dynascope.Proofs.Token.Munch

/-!
# The places of segments

* `Segment.at_induction`: induction on an offset, from the end of a source to its front, segment by
  segment.
* `Segment.placed`: the segments of a source with the offsets at which they start. The offsets
  increase (`placed_pairwise`), and the events of the source are those of the segments at their
  places (`scan_eq_flatMap_placed`).
* `Starts`: a segment starts at an offset; there `Segment.front` finds it (`Starts.exists_front`).
* `Takes`: at an offset the scanner takes the bytes up to another offset, and reports some events.
  The next segment starts where one ends (`Takes.next`).
-/

namespace Dynascope

namespace Segment

variable {source : Text} {i j : Nat} {a : UInt8} {rest : Text} {s : Segment}

/-! ## One segment after the other -/

/-- The segment at the front of `a :: rest`. -/
def first (a : UInt8) (rest : Text) : Segment :=
  ⟨(front a rest).1, a :: rest.take (front a rest).2⟩

theorem first_bytes_length (a : UInt8) (rest : Text) :
    (first a rest).bytes.length = (front a rest).2 + 1 := by
  rw [first, List.length_cons, List.length_take_of_le (front_fits a rest).1]

theorem first_bytes_at_front (a : UInt8) (rest : Text) : (first a rest).bytes <+: a :: rest :=
  List.cons_prefix_cons.mpr ⟨rfl, List.take_prefix _ _⟩

/-- The offset at which the first segment from an offset on ends. -/
theorem add_first_le (h : source.drop i = a :: rest) :
    i + (first a rest).bytes.length ≤ source.length := by
  have hle := (first_bytes_at_front a rest).length_le
  have hlength := congrArg List.length h
  rw [List.length_drop] at hlength
  rw [List.length_cons] at hle hlength
  omega

theorem cut_drop (h : source.drop i = a :: rest) : cut (source.drop i) =
    first a rest :: cut (source.drop (i + (first a rest).bytes.length)) := by
  rw [h, cut_cons, first_bytes_length, ← List.drop_drop, h, List.drop_succ_cons]
  rfl

/-- What holds at the end of a source, and at the front of a segment if it holds behind it, holds
at every offset. -/
@[elab_as_elim]
theorem at_induction {motive : Nat → Prop} (ended : motive source.length)
    (segment : ∀ i a rest, source.drop i = a :: rest →
      motive (i + (first a rest).bytes.length) → motive i)
    (i : Nat) (hi : i ≤ source.length) : motive i := by
  induction hn : source.length - i using Nat.strong_induction_on generalizing i with
  | _ n ih =>
  subst hn
  cases hrest : source.drop i with
  | nil =>
    obtain rfl : i = source.length := Nat.le_antisymm hi (List.drop_eq_nil_iff.mp hrest)
    exact ended
  | cons a rest =>
    have hle := add_first_le hrest
    have hpos := first_bytes_length a rest
    exact segment i a rest hrest (ih _ (by omega) _ hle rfl)

/-! ## Segments with their offsets -/

/-- Consecutive segments with the offsets at which they start, the first one at the given offset. -/
def placedFrom : (offset : Nat) → List Segment → List (Nat × Segment)
  | _, [] => []
  | i, s :: rest => (i, s) :: placedFrom (i + s.bytes.length) rest

/-- The segments of a source with the offsets at which they start. -/
def placed (source : Text) : List (Nat × Segment) :=
  placedFrom 0 (cut source)

theorem le_of_mem_placedFrom {segments : List Segment} (h : (j, s) ∈ placedFrom i segments) :
    i ≤ j := by
  induction segments generalizing i with
  | nil => cases h
  | cons s' segments ih =>
    rcases List.mem_cons.mp h with h | h
    · rw [(Prod.mk.inj h).1]
    · exact Nat.le_trans (Nat.le_add_right _ _) (ih h)

theorem placedFrom_pairwise {segments : List Segment} (h : ∀ s ∈ segments, s.bytes ≠ []) :
    (placedFrom i segments).Pairwise (·.1 < ·.1) := by
  induction segments generalizing i with
  | nil => exact .nil
  | cons s segments ih =>
    rw [List.forall_mem_cons] at h
    refine .cons (fun x hx => ?_) (ih h.2)
    have hpos := List.length_pos_iff.mpr h.1
    exact Nat.lt_of_lt_of_le (Nat.lt_add_of_pos_right hpos) (le_of_mem_placedFrom hx)

/-- The offsets of the segments increase. -/
theorem placed_pairwise (source : Text) : (placed source).Pairwise (·.1 < ·.1) :=
  placedFrom_pairwise fun _ h => (Segment.scans_cut source 0 (Nat.zero_le _)).pieces_eq.2 _
    (List.mem_map_of_mem h)

/-- From an offset on, the events are those of the segments at their places. -/
theorem events_eq_flatMap_placedFrom (source : Text) (i : Nat) (hi : i ≤ source.length) :
    events (positionAt source i) (cut (source.drop i)) =
      (placedFrom i (cut (source.drop i))).flatMap fun x =>
        (x.2.event? (positionAt source x.1)).toList := by
  refine at_induction ?ended ?segment i hi
  case ended =>
    rw [List.drop_length]
    rfl
  case segment =>
    intro i a rest h ih
    have hprefix : (first a rest).bytes <+: source.drop i := h ▸ first_bytes_at_front a rest
    rw [cut_drop h, events, placedFrom, List.flatMap_cons, ← ih, advance_positionAt hprefix]

/-- The events of a source are those of its segments at their places. -/
theorem scan_eq_flatMap_placed (source : Text) : scan source =
    (placed source).flatMap fun x => (x.2.event? (positionAt source x.1)).toList :=
  events_eq_flatMap_placedFrom source 0 (Nat.zero_le _)

/-- A segment is the one at the front of the source from its place on, and the segments behind it
are those of the rest. -/
theorem placedFrom_split (hi : i ≤ source.length)
    (h : (j, s) ∈ placedFrom i (cut (source.drop i))) :
    ∃ a rest before, source.drop j = a :: rest ∧ s = first a rest ∧
      placedFrom i (cut (source.drop i)) = before ++ (j, s) ::
        placedFrom (j + s.bytes.length) (cut (source.drop (j + s.bytes.length))) := by
  revert h
  refine at_induction ?ended ?segment i hi
  case ended =>
    intro h
    rw [List.drop_length] at h
    cases h
  case segment =>
    intro i a rest hrest ih h
    rw [cut_drop hrest, placedFrom] at h
    rcases List.mem_cons.mp h with h | h
    · obtain ⟨rfl, rfl⟩ := Prod.mk.inj h
      exact ⟨a, rest, [], hrest, rfl, by rw [cut_drop hrest, placedFrom]; rfl⟩
    · obtain ⟨a', rest', before, hrest', hs, hsplit⟩ := ih h
      refine ⟨a', rest', (i, first a rest) :: before, hrest', hs, ?_⟩
      rw [cut_drop hrest, placedFrom, hsplit]
      rfl

/-- A segment with its offset is the one at the front there. -/
theorem exists_drop_of_mem_placed (h : (i, s) ∈ placed source) :
    ∃ a rest, source.drop i = a :: rest ∧ s = first a rest := by
  obtain ⟨a, rest, -, hrest, hs, -⟩ := placedFrom_split (Nat.zero_le _) h
  exact ⟨a, rest, hrest, hs⟩

end Segment

open Segment

/-! ## What is taken at an offset -/

/-- A segment of the source starts at the offset. -/
def Starts (source : Text) (i : Nat) : Prop :=
  ∃ s, (i, s) ∈ placed source

instance (source : Text) (i : Nat) : Decidable (Starts source i) :=
  decidable_of_iff (∃ x ∈ placed source, x.1 = i)
    ⟨fun ⟨x, hx, h⟩ => ⟨x.2, h ▸ hx⟩, fun ⟨s, hs⟩ => ⟨(i, s), hs, rfl⟩⟩

/-- A segment of the source starts at the offset `i` and ends before the offset `j`, and the events
are reported for it. -/
def Takes (source : Text) (i j : Nat) (events : List Event) : Prop :=
  ∃ s, (i, s) ∈ placed source ∧ i + s.bytes.length = j ∧
    (s.event? (positionAt source i)).toList = events

variable {source : Text} {i j : Nat} {now : List Event}

/-- The segment that starts at an offset is the one at the front of what follows. -/
theorem Starts.exists_front (h : Starts source i) :
    ∃ a rest, source.drop i = a :: rest ∧ (i, first a rest) ∈ placed source := by
  obtain ⟨s, hs⟩ := h
  obtain ⟨a, rest, hrest, rfl⟩ := exists_drop_of_mem_placed hs
  exact ⟨a, rest, hrest, hs⟩

/-- What is taken where a segment starts, by the class and length of the segment. -/
theorem Starts.takes {a : UInt8} {rest : Text} {cls : SegmentClass} {n : Nat}
    (h : Starts source i) (hrest : source.drop i = a :: rest) (hfront : front a rest = (cls, n)) :
    Takes source i (i + (n + 1))
      ((⟨cls, a :: rest.take n⟩ : Segment).event? (positionAt source i)).toList := by
  obtain ⟨a', rest', hrest', hs⟩ := h.exists_front
  obtain ⟨rfl, rfl⟩ := List.cons.inj (hrest.symm.trans hrest')
  refine ⟨_, hs, ?_, ?_⟩
  · rw [first_bytes_length, hfront]
  · rw [first, hfront]

/-- What is taken where a lexeme starts. -/
theorem Starts.takes_lexeme {a : UInt8} {rest : Text} {p : Pattern} {n : Nat}
    (h : Starts source i) (hrest : source.drop i = a :: rest) (hfront : front a rest = (p.cls, n))
    (hmem : a :: rest.take n ∈ p.language) :
    Takes source i (i + (n + 1))
      ((⟨p.cls, source.extract i (i + (n + 1))⟩ : Segment).event? (positionAt source i)).toList ∧
      Munch (source.drop i) (source.extract i (i + (n + 1))) p := by
  have hn : (front a rest).2 = n := congrArg Prod.snd hfront
  have hextract : source.extract i (i + (n + 1)) = a :: rest.take n := by
    rw [List.extract_eq_take_drop, Nat.add_sub_cancel_left, hrest, List.take_succ_cons]
  rw [hextract]
  refine ⟨h.takes hrest hfront, ?_⟩
  rw [hrest, ← hn]
  rw [← hn] at hmem
  exact munch_front hmem

/-- Behind a segment the source ends or the next segment starts. -/
theorem Takes.next (h : Takes source i j now) : j = source.length ∨ Starts source j := by
  obtain ⟨s, hs, rfl, -⟩ := h
  obtain ⟨a, rest, before, hrest, rfl, hsplit⟩ := placedFrom_split (Nat.zero_le _) hs
  cases hnext : source.drop (i + (first a rest).bytes.length) with
  | nil => exact .inl (Nat.le_antisymm (add_first_le hrest) (List.drop_eq_nil_iff.mp hnext))
  | cons b tail =>
    refine .inr ⟨first b tail, ?_⟩
    rw [cut_drop hnext, placedFrom] at hsplit
    have hplaced : placed source = before ++ (i, first a rest) :: (_, first b tail) :: _ := hsplit
    rw [hplaced]
    exact List.mem_append_right before (List.mem_cons_of_mem _ List.mem_cons_self)

/-- The events for the last segment are the last ones. -/
theorem Takes.suffix (h : Takes source i source.length now) : now <:+ scan source := by
  obtain ⟨s, hs, hend, rfl⟩ := h
  obtain ⟨a, rest, before, -, -, hsplit⟩ := placedFrom_split (Nat.zero_le _) hs
  rw [hend, List.drop_length] at hsplit
  have hplaced : placed source = before ++ [(i, s)] := hsplit
  rw [scan_eq_flatMap_placed, hplaced, List.flatMap_append, List.flatMap_singleton]
  exact List.suffix_append _ _

end Dynascope
