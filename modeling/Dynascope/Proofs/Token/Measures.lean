import Dynascope.Token.Segment
import Mathlib.Data.List.TakeWhile

/-!
# Measures of segments

How the functions that measure a segment depend on what follows it. Each of them finds the same
length in the bytes that it measures off, and in any text that starts with them.

* `Segment.run`: `run_eq_length`, `length_le_run`, `run_append_cons`.
* `Segment.stringEnd?`: `stringEnd?_eq_length`, `stringEnd?_take`, `stringEnd?_append`.
* `Segment.commentEnd?`: `commentEnd?_cons`, `commentEnd?_take`, `commentEnd?_append`.
* `Segment.numeralRun`: `numeralRun_append_cons`, `numeralRun_eq_length`, `numeralRun_take`,
  `length_le_numeralRun`.
-/

namespace Dynascope.Segment

variable {p : UInt8 → Bool} {t u w : Text} {n : Nat}

/-! ## Runs -/

theorem run_le_length (p : UInt8 → Bool) (t : Text) : run p t ≤ t.length :=
  (List.takeWhile_prefix p).length_le

theorem run_eq_length : run p w = w.length ↔ ∀ b ∈ w, p b = true := by
  rw [← List.takeWhile_eq_self_iff]
  exact ⟨(List.takeWhile_prefix p).eq_of_length, congrArg List.length⟩

theorem take_run (p : UInt8 → Bool) (t : Text) : t.take (run p t) = t.takeWhile p :=
  (List.prefix_iff_eq_take.mp (List.takeWhile_prefix p)).symm

theorem drop_run (p : UInt8 → Bool) (t : Text) : t.drop (run p t) = t.dropWhile p := by
  have h : t.take (run p t) ++ t.drop (run p t) = t.takeWhile p ++ t.dropWhile p := by
    rw [List.take_append_drop, List.takeWhile_append_dropWhile]
  rw [take_run] at h
  exact List.append_cancel_left h

/-- A byte without the property ends a run. -/
theorem run_append_cons {b : UInt8} (hb : p b = false) (t u : Text) :
    run p (t ++ b :: u) = run p t := by
  unfold run
  rw [List.takeWhile_append, List.takeWhile_cons_of_neg (by simp [hb])]
  split
  next h => simp [h]
  next => rfl

/-- A run is at least as long as every run that the text starts with. -/
theorem length_le_run (hw : w <+: t) (h : ∀ b ∈ w, p b = true) : w.length ≤ run p t := by
  obtain ⟨u, rfl⟩ := hw
  unfold run
  rw [List.takeWhile_append_of_pos h, List.length_append]
  omega

/-! ## Strings -/

/-- The first double quote of the word is its last byte. -/
theorem stringEnd?_eq_length : stringEnd? w = some w.length ↔
    ∃ body, w = body ++ [Text.quote] ∧ ∀ b ∈ body, b ≠ Text.quote := by
  induction w with
  | nil => simp [stringEnd?]
  | cons b w ih =>
    rw [stringEnd?]
    split
    next hb =>
      subst hb
      constructor
      · intro h
        have hw : w = [] := by simpa using h.symm
        exact ⟨[], by simp [hw], nofun⟩
      · rintro ⟨body, hbody, hne⟩
        cases body with
        | nil => simp_all
        | cons c body => exact absurd (List.cons.inj hbody).1.symm (hne c List.mem_cons_self)
    next hb =>
      have hmap : (stringEnd? w).map (· + 1) = some (b :: w).length ↔
          stringEnd? w = some w.length := by
        simp
      rw [hmap, ih]
      constructor
      · rintro ⟨body, rfl, hne⟩
        exact ⟨b :: body, rfl, List.forall_mem_cons.mpr ⟨hb, hne⟩⟩
      · rintro ⟨body, hbody, hne⟩
        cases body with
        | nil => exact absurd (List.cons.inj hbody).1 hb
        | cons c body =>
          obtain ⟨rfl, rfl⟩ := List.cons.inj hbody
          exact ⟨body, rfl, (List.forall_mem_cons.mp hne).2⟩

theorem stringEnd?_append (h : stringEnd? t = some n) (u : Text) :
    stringEnd? (t ++ u) = some n := by
  induction t generalizing n with
  | nil => cases h
  | cons b t ih =>
    rw [List.cons_append]
    rw [stringEnd?] at h ⊢
    split at h
    next hb => rw [if_pos hb, h]
    next hb =>
      obtain ⟨k, hk, rfl⟩ := Option.map_eq_some_iff.mp h
      rw [if_neg hb, ih hk]
      rfl

theorem stringEnd?_take (h : stringEnd? t = some n) :
    n ≤ t.length ∧ stringEnd? (t.take n) = some n := by
  induction t generalizing n with
  | nil => cases h
  | cons b t ih =>
    rw [stringEnd?] at h
    split at h
    next hb =>
      obtain rfl := Option.some.inj h
      exact ⟨Nat.le_add_left 1 _, by simp [stringEnd?, hb]⟩
    next hb =>
      obtain ⟨k, hk, rfl⟩ := Option.map_eq_some_iff.mp h
      obtain ⟨hle, htake⟩ := ih hk
      exact ⟨Nat.succ_le_succ hle, by simp [stringEnd?, hb, htake]⟩

/-! ## Block comments -/

/-- Where no end of a comment starts, it is looked for from the next byte on. -/
theorem commentEnd?_cons {a : UInt8} (h : a ≠ 0x2a ∨ w.head? ≠ some 0x2f) :
    commentEnd? (a :: w) = (commentEnd? w).map (· + 1) := by
  cases w with
  | nil => rfl
  | cons b w =>
    rw [commentEnd?, if_neg]
    intro hab
    rw [Bool.and_eq_true, decide_eq_true_eq, decide_eq_true_eq] at hab
    rcases h with h | h
    · exact h hab.1
    · exact h (by rw [hab.2]; rfl)

theorem commentEnd?_append (h : commentEnd? t = some n) (u : Text) :
    commentEnd? (t ++ u) = some n := by
  fun_induction commentEnd? t generalizing n with
  | case1 => cases h
  | case2 => cases h
  | case3 a b rest hab =>
    rw [← h]
    simp only [List.cons_append, commentEnd?, if_pos hab]
  | case4 a b rest hab ih =>
    obtain ⟨k, hk, rfl⟩ := Option.map_eq_some_iff.mp h
    have hrest : commentEnd? (b :: (rest ++ u)) = some k := ih hk
    simp only [List.cons_append, commentEnd?, if_neg hab, hrest, Option.map_some]

theorem commentEnd?_take (h : commentEnd? t = some n) :
    n ≤ t.length ∧ commentEnd? (t.take n) = some n := by
  fun_induction commentEnd? t generalizing n with
  | case1 => cases h
  | case2 => cases h
  | case3 a b rest hab =>
    obtain rfl := Option.some.inj h
    exact ⟨Nat.le_add_left 2 _, by simp only [List.take, commentEnd?, if_pos hab]⟩
  | case4 a b rest hab ih =>
    obtain ⟨k, hk, rfl⟩ := Option.map_eq_some_iff.mp h
    obtain ⟨hle, htake⟩ := ih hk
    refine ⟨Nat.succ_le_succ hle, ?_⟩
    cases k with
    | zero => cases htake
    | succ k =>
      rw [List.take_succ_cons] at htake
      simp only [List.take_succ_cons, commentEnd?, if_neg hab, htake, Option.map_some]

/-! ## Numerals -/

/-- A numeral goes on with a fraction, or it ends with its digits. -/
theorem numeralRun_cases (t : Text) : numeralRun t = run Text.isDigit t ∨
    ∃ rest, t.drop (run Text.isDigit t) = 0x2e :: rest ∧ run Text.isDigit rest ≠ 0 ∧
      numeralRun t = run Text.isDigit t + (run Text.isDigit rest + 1) := by
  unfold numeralRun
  dsimp only
  split
  next rest hrest =>
    split
    next => exact .inl rfl
    next hne => exact .inr ⟨rest, hrest, hne, by omega⟩
  next => exact .inl rfl

/-- Digits, a point and digits are taken, with all digits that follow. -/
theorem numeralRun_fraction {ds fs : Text} (hds : ∀ d ∈ ds, Text.isDigit d = true)
    (hfs : run Text.isDigit fs ≠ 0) :
    numeralRun (ds ++ 0x2e :: fs) = ds.length + (run Text.isDigit fs + 1) := by
  have hpoint : Text.isDigit 0x2e = false := by decide
  have hrun : run Text.isDigit (ds ++ 0x2e :: fs) = ds.length := by
    rw [run_append_cons hpoint]
    exact run_eq_length.mpr hds
  unfold numeralRun
  simp only [hrun, List.drop_left, if_neg hfs]
  omega

/-- A byte that is neither a digit nor a point ends a numeral. -/
theorem numeralRun_append_cons {b : UInt8} (hd : Text.isDigit b = false) (hp : b ≠ 0x2e)
    (t u : Text) : numeralRun (t ++ b :: u) = numeralRun t := by
  have hdrop : (t ++ b :: u).drop (run Text.isDigit t) = t.drop (run Text.isDigit t) ++ b :: u :=
    List.drop_append_of_le_length (run_le_length _ t)
  unfold numeralRun
  simp only [run_append_cons hd, hdrop]
  cases t.drop (run Text.isDigit t) with
  | nil => simp [hp]
  | cons c rest =>
    by_cases hc : c = 0x2e
    · subst hc
      simp only [List.cons_append, run_append_cons hd]
    · simp [hc]

/-- The rest of a numeral takes the whole word if the word has digits only, or digits on both sides
of a point. -/
theorem numeralRun_eq_length : numeralRun w = w.length ↔
    (∀ b ∈ w, Text.isDigit b = true) ∨ ∃ ds fs, w = ds ++ 0x2e :: fs ∧
      (∀ d ∈ ds, Text.isDigit d = true) ∧ fs ≠ [] ∧ ∀ d ∈ fs, Text.isDigit d = true := by
  constructor
  · intro h
    rcases numeralRun_cases w with hcase | ⟨rest, hdrop, hne, hcase⟩
    · exact .inl (run_eq_length.mp (hcase.symm.trans h))
    · have hlength := congrArg List.length hdrop
      rw [List.length_drop, List.length_cons] at hlength
      have hall : run Text.isDigit rest = rest.length := by omega
      have hnil : rest ≠ [] := fun hnil => hne (by rw [hnil]; rfl)
      refine .inr ⟨w.takeWhile Text.isDigit, rest, ?_, ?_, hnil, run_eq_length.mp hall⟩
      · rw [← hdrop, drop_run, List.takeWhile_append_dropWhile]
      · exact fun d hd => List.mem_takeWhile_imp hd
  · rintro (hall | ⟨ds, fs, rfl, hds, hne, hfs⟩)
    · have hrun : run Text.isDigit w = w.length := run_eq_length.mpr hall
      simp [numeralRun, hrun]
    · have hfraction : run Text.isDigit fs = fs.length := run_eq_length.mpr hfs
      have hpos : fs.length ≠ 0 := fun h => hne (List.eq_nil_of_length_eq_zero h)
      rw [numeralRun_fraction hds (by omega), hfraction, List.length_append, List.length_cons]

theorem numeralRun_le_length (t : Text) : numeralRun t ≤ t.length := by
  rcases numeralRun_cases t with h | ⟨rest, hdrop, -, h⟩
  · rw [h]
    exact run_le_length _ _
  · have hle := run_le_length Text.isDigit t
    have hrest := run_le_length Text.isDigit rest
    have hlength := congrArg List.length hdrop
    rw [List.length_drop, List.length_cons] at hlength
    omega

/-- The bytes of a numeral after the first are those of a numeral again. -/
theorem numeralRun_take (t : Text) : numeralRun (t.take (numeralRun t)) = numeralRun t := by
  have hdigits : ∀ s : Text, ∀ b ∈ s.takeWhile Text.isDigit, Text.isDigit b = true :=
    fun s b hb => List.mem_takeWhile_imp hb
  have hall : numeralRun (t.take (numeralRun t)) = (t.take (numeralRun t)).length := by
    refine numeralRun_eq_length.mpr ?_
    rcases numeralRun_cases t with h | ⟨rest, hdrop, hne, h⟩
    · rw [h, take_run]
      exact .inl (hdigits t)
    · refine .inr ⟨t.takeWhile Text.isDigit, rest.takeWhile Text.isDigit, ?_, hdigits t, ?_,
        hdigits rest⟩
      · rw [h, List.take_add, hdrop, take_run, List.take_succ_cons, take_run]
      · exact fun hnil => hne (congrArg List.length hnil)
  rw [hall, List.length_take_of_le (numeralRun_le_length t)]

/-- A numeral is at least as long as every numeral that the text starts with. -/
theorem length_le_numeralRun (hw : w <+: t) (h : numeralRun w = w.length) :
    w.length ≤ numeralRun t := by
  obtain ⟨u, rfl⟩ := hw
  rcases numeralRun_eq_length.mp h with hall | ⟨ds, fs, rfl, hds, hne, hfs⟩
  · have hle : w.length ≤ run Text.isDigit (w ++ u) := length_le_run (List.prefix_append w u) hall
    rcases numeralRun_cases (w ++ u) with h | ⟨rest, -, -, h⟩ <;> omega
  · have hle : fs.length ≤ run Text.isDigit (fs ++ u) := length_le_run (List.prefix_append fs u) hfs
    have hpos : fs.length ≠ 0 := fun h => hne (List.eq_nil_of_length_eq_zero h)
    rw [List.append_assoc, List.cons_append, numeralRun_fraction hds (by omega),
      List.length_append, List.length_cons]
    omega

end Dynascope.Segment
