import Dynascope.Proofs.Tree.Boundaries
import Mathlib.Data.List.TakeWhile
import Mathlib.Order.Bounds.Defs

/-!
# Recovery

Reading cuts the tokens before the end into passages, one after the other: each was read as one
declaration, or it holds a failure with all that recovery dropped after it.

* `declaration_fuel`: any fuel that is enough reads the same declaration.
* `inputLength`: the number of tokens before the end of the input.
* `StopsAt`, `synchronize_drop`: recovery stops at the first place where it may.
* `Passage`, `Passage.Sound`: a passage of the tokens, and that it is what it says.
* `Consecutive`: passages that follow each other without a gap, none of them empty.
* `exists_passages`: what `parseProgram` gives comes from such passages.
* `parseProgram_accounts`: no token is lost or read twice, and errors come in the order of the
  tokens.
* `parseProgram_drops_starter`: what recovery drops, and when a declaration is lost.
-/

namespace Dynascope

open Dynascope.Parser

/-! ## Fuel for one declaration -/

theorem Abreast.eq_of_ends {last : List Token} {h : atEnd last = true} {k : Nat}
    {ts ts' : List Token} (hts : Abreast (.ends h h) k ts ts') : ts' = ts := by
  induction hts with
  | ended => rfl
  | cons hs _ _ ih => rw [show _ = _ from hs, ih]

/-- Fuel is no limit for a declaration. -/
theorem declaration_fuel {ts : List Token} {n n' : Nat} (hn : fuelFor ts.length ≤ n)
    (hn' : fuelFor ts.length ≤ n') : declaration n ts = declaration n' ts := by
  obtain ⟨us, last, rfl, hus, hlast⟩ := exists_noEnd_append ts
  have habreast := Abreast.ends us hlast hlast hus
  have hlength := habreast.le_length.1
  unfold fuelFor at hn hn'
  have hread := (statementsInStep (.ends hlast hlast) n n').declaration (by omega) habreast
  unfold InStep at hread
  generalize declaration n (us ++ last) = r at hread
  generalize declaration n' (us ++ last) = r' at hread
  cases hread with
  | ok hs _ hrest => rw [hs.1.eq, hrest.eq_of_ends]
  | error he _ hrest =>
    rw [hrest.eq_of_ends]
    cases he with
    | passed hs _ _ => rw [show _ = _ from hs]
    | ended _ => rfl

/-- What a declaration does with the tokens, whatever the fuel: it takes some of them, or it fails
for a cause. -/
theorem declaration_parses {ts : List Token} {fuel : Nat} (hfuel : fuelFor ts.length ≤ fuel) :
    Parses (declaration fuel) [] ts (StmtRule.Spec .declaration) :=
  StmtRule.parses fuel .declaration ts
    (by unfold fuelFor at hfuel; simp only [StmtRule.rank]; omega)

/-! ## One declaration of a program -/

theorem parseProgram_of_atEnd {ts : List Token} (h : atEnd ts = true) :
    parseProgram ts = ⟨[], []⟩ :=
  parseFrom_ended _ h

/-- After a declaration that was read, reading goes on with what it left. -/
theorem parseProgram_of_ok {ts rest : List Token} {s : Stmt} {fuel : Nat}
    (hleft : atEnd ts = false) (hfuel : fuelFor ts.length ≤ fuel)
    (h : declaration fuel ts = .ok s rest) :
    parseProgram ts = ⟨s :: (parseProgram rest).statements, (parseProgram rest).errors⟩ := by
  have hspec := declaration_parses hfuel
  rw [Parses, Ends, h] at hspec
  obtain ⟨used, rfl, -, dangling, hs, -⟩ := hspec
  have hpos := hs.length_pos rfl
  simp only [List.nil_append] at hpos
  rw [declaration_fuel hfuel (Nat.le_refl _)] at h
  rw [parseProgram, parseFrom, if_neg (Bool.eq_false_iff.mp hleft), h]
  have hrest : parseFrom (used ++ rest).length rest = parseProgram rest :=
    parseFrom_eq (by rw [List.length_append]; omega)
  simp only [hrest]

/-- After a declaration that failed, reading goes on where recovery stops. -/
theorem parseProgram_of_error {ts rest : List Token} {e : ParseError} {fuel : Nat}
    (hleft : atEnd ts = false) (hfuel : fuelFor ts.length ≤ fuel)
    (h : declaration fuel ts = .error e rest) :
    parseProgram ts = ⟨(parseProgram (synchronize rest)).statements,
      e :: (parseProgram (synchronize rest)).errors⟩ := by
  have hspec := declaration_parses hfuel
  rw [Parses, Ends, h] at hspec
  obtain ⟨passed, rfl, -, -⟩ := hspec
  rw [declaration_fuel hfuel (Nat.le_refl _)] at h
  rw [parseProgram, parseFrom, if_neg (Bool.eq_false_iff.mp hleft), h]
  have hrest : parseFrom (passed ++ rest).length (synchronize rest) =
      parseProgram (synchronize rest) := parseFrom_eq (length_recover_lt hleft)
  simp only [hrest]

/-! ## Places among the tokens -/

/-- The number of tokens before the end of the input. -/
def inputLength (ts : List Token) : Nat :=
  (ts.takeWhile fun t => t.kind ≠ .endOfInput).length

theorem inputLength_le (ts : List Token) : inputLength ts ≤ ts.length :=
  (List.takeWhile_prefix _).length_le

/-- The token at a place before the end, and what follows it. -/
theorem exists_of_lt_inputLength {ts : List Token} {i : Nat} (h : i < inputLength ts) :
    ∃ t, ts[i]? = some t ∧ t.kind ≠ .endOfInput ∧ ts.drop i = t :: ts.drop (i + 1) := by
  have hlt : i < ts.length := Nat.lt_of_lt_of_le h (inputLength_le ts)
  refine ⟨ts[i], List.getElem?_eq_getElem hlt, ?_, List.drop_eq_getElem_cons hlt⟩
  have hmem : ts[i] ∈ ts.takeWhile fun t => t.kind ≠ .endOfInput := by
    rw [← (List.takeWhile_prefix _).getElem h]
    exact List.getElem_mem h
  simpa using List.mem_takeWhile_imp hmem

/-- From the end on, no token is left. -/
theorem atEnd_drop_inputLength (ts : List Token) : atEnd (ts.drop (inputLength ts)) = true := by
  induction ts with
  | nil => rfl
  | cons t ts ih =>
    by_cases ht : t.kind = .endOfInput
    · simpa [inputLength, ht] using atEnd_cons.mpr ht
    · simpa [inputLength, ht] using ih

theorem atEnd_drop_of_lt {ts : List Token} {i : Nat} (h : i < inputLength ts) :
    atEnd (ts.drop i) = false := by
  obtain ⟨t, -, ht, hdrop⟩ := exists_of_lt_inputLength h
  rw [hdrop]
  exact Bool.eq_false_iff.mpr fun he => ht (atEnd_cons.mp he)

/-- Tokens without an end that stand at a place before the end lead to a place before the end. -/
theorem drop_of_append {ts used rest : List Token} {i : Nat} (hi : i ≤ inputLength ts)
    (hused : NoEnd used) (h : ts.drop i = used ++ rest) :
    rest = ts.drop (i + used.length) ∧ i + used.length ≤ inputLength ts ∧
      used = (ts.take (i + used.length)).drop i := by
  have hrest : rest = ts.drop (i + used.length) := by
    rw [← List.drop_drop, h, List.drop_left]
  refine ⟨hrest, ?_, ?_⟩
  · by_contra hgt
    have hlt : inputLength ts - i < used.length := by omega
    have hend := atEnd_drop_inputLength ts
    have hdrop : ts.drop (inputLength ts) = (used ++ rest).drop (inputLength ts - i) := by
      rw [← h, List.drop_drop, Nat.add_sub_cancel' hi]
    rw [hdrop, List.drop_append_of_le_length (Nat.le_of_lt hlt), List.drop_eq_getElem_cons hlt]
      at hend
    exact hused _ (List.getElem_mem hlt) (atEnd_cons.mp hend)
  · rw [List.drop_take, Nat.add_sub_cancel_left, h, List.take_left]

/-! ## Where recovery stops -/

/-- A place before the end that follows a semicolon, or whose token starts a declaration or
statement. -/
def Boundary (ts : List Token) (j : Nat) : Prop :=
  (∃ t, ts[j - 1]? = some t ∧ t.kind = .semicolon) ∨ ∃ t, ts[j]? = some t ∧ t.kind ∈ starters

/-- Where recovery from a failure at the place `i` may stop: at the end, or at a boundary after
`i`. -/
def StopsAt (ts : List Token) (i j : Nat) : Prop :=
  j = inputLength ts ∨ (i < j ∧ j < inputLength ts ∧ Boundary ts j)

theorem StopsAt.le {ts : List Token} {i j : Nat} (h : StopsAt ts i j) : j ≤ inputLength ts := by
  rcases h with rfl | ⟨-, hlt, -⟩
  · exact Nat.le_refl _
  · exact Nat.le_of_lt hlt

/-- Tokens are skipped up to the first place where recovery may stop. -/
theorem skipTo_drop {ts : List Token} {i j : Nat} (hij : i < j) (hj : j ≤ inputLength ts)
    {previous : Token} (hprevious : ts[j - 1]? = some previous)
    (hbefore : ∀ k, StopsAt ts i k → j ≤ k) :
    ∃ k, skipTo previous (ts.drop j) = ts.drop k ∧ IsLeast {k | StopsAt ts i k} k := by
  induction hn : inputLength ts - j generalizing j previous with
  | zero =>
    have hend : j = inputLength ts := by omega
    refine ⟨j, ?_, .inl hend, hbefore⟩
    have hended := atEnd_drop_inputLength ts
    rw [← hend] at hended
    cases hdrop : ts.drop j with
    | nil => rfl
    | cons t rest =>
      rw [hdrop] at hended
      simp [skipTo, atEnd_cons.mp hended]
  | succ n ih =>
    obtain ⟨t, ht, hkind, hdrop⟩ := exists_of_lt_inputLength (by omega : j < inputLength ts)
    by_cases hstop : previous.kind = .semicolon ∨ t.kind ∈ starters
    · have hboundary : Boundary ts j :=
        hstop.imp (fun h => ⟨previous, hprevious, h⟩) fun h => ⟨t, ht, h⟩
      refine ⟨j, ?_, .inr ⟨hij, by omega, hboundary⟩, hbefore⟩
      rw [hdrop, skipTo, if_pos (by simpa [or_assoc] using .inr hstop)]
    · rw [hdrop, skipTo, if_neg (by simpa [hkind] using hstop)]
      refine ih (by omega) (by omega) ht (fun k hk => ?_) (by omega)
      have hle := hbefore k hk
      refine Nat.lt_of_le_of_ne hle ?_
      -- Recovery may not stop at `j`: no semicolon is before it, and its token starts nothing.
      rintro rfl
      rcases hk with rfl | ⟨-, -, ⟨u, hu, hsemi⟩ | ⟨u, hu, hstarts⟩⟩
      · omega
      · exact hstop (.inl (Option.some.inj (hprevious.symm.trans hu) ▸ hsemi))
      · exact hstop (.inr (Option.some.inj (ht.symm.trans hu) ▸ hstarts))

/-- **Recovery.** After a failure, recovery stops at the end or at the first boundary after the
place of the failure, whichever comes first. -/
theorem synchronize_drop {ts : List Token} {i : Nat} (hi : i ≤ inputLength ts) :
    ∃ j, synchronize (ts.drop i) = ts.drop j ∧ IsLeast {j | StopsAt ts i j} j := by
  rcases Nat.lt_or_eq_of_le hi with hlt | rfl
  · obtain ⟨t, ht, hkind, hdrop⟩ := exists_of_lt_inputLength hlt
    rw [hdrop, synchronize, if_neg hkind]
    refine skipTo_drop (Nat.lt_succ_self i) hlt (by simpa using ht) fun k hk => ?_
    rcases hk with rfl | ⟨hik, -⟩
    · exact hlt
    · exact hik
  · refine ⟨inputLength ts, ?_, .inl rfl, fun k hk => ?_⟩
    · have hended := atEnd_drop_inputLength ts
      cases hdrop : ts.drop (inputLength ts) with
      | nil => rfl
      | cons t rest =>
        rw [hdrop] at hended
        rw [synchronize, if_pos (atEnd_cons.mp hended)]
    · rcases hk with rfl | ⟨hik, hlt, -⟩
      · exact Nat.le_refl _
      · omega

/-! ## Passages -/

/-- What became of some of the tokens, from the place `start` up to the place `stop`. -/
inductive Passage where
  /-- They are a declaration. -/
  | read (start stop : Nat) (s : Stmt)
  /-- A declaration failed at a place among them, and recovery stopped after them. The error may be
  at one of the tokens. -/
  | failed (start place stop : Nat) (e : ParseError) (tokenAt : Option Nat)

namespace Passage

/-- Where a passage starts. -/
def start : Passage → Nat
  | read start _ _ => start
  | failed start _ _ _ _ => start

/-- Where a passage stops. -/
def stop : Passage → Nat
  | read _ stop _ => stop
  | failed _ _ stop _ _ => stop

/-- The declaration of a passage. -/
def statement? : Passage → Option Stmt
  | read _ _ s => some s
  | failed .. => none

/-- The error of a passage. -/
def error? : Passage → Option ParseError
  | read .. => none
  | failed _ _ _ e _ => some e

/-- The place of the token at which the error of a passage is. -/
def tokenAt? : Passage → Option Nat
  | read .. => none
  | failed _ _ _ _ tokenAt => tokenAt

end Passage

/-- The error of a declaration that started at one place and failed at another, and the place of its
token: the place of the failure, or a place that was passed. -/
inductive ErrorAt (ts : List Token) (start place : Nat) : ParseError → Option Nat → Prop where
  | unexpected {t : Token} (h : ts[place]? = some t) :
    ErrorAt ts start place ⟨.unexpectedToken, some t⟩ (some place)
  | expected {t : Token} {kind : Kind} (h : ts[place]? = some t) (hk : t.kind ≠ kind) :
    ErrorAt ts start place ⟨.expected kind, some t⟩ (some place)
  | ended (h : place = ts.length) : ErrorAt ts start place ⟨.noToken, none⟩ none
  | noValue {t : Token} {k : Nat} (hstart : start ≤ k) (hplace : k < place) (h : ts[k]? = some t)
      (hk : t.kind = .number ∨ t.kind = .string) (hv : t.value = none) :
    ErrorAt ts start place ⟨.literalWithoutValue, some t⟩ (some k)
  | target {t : Token} {k : Nat} (hstart : start ≤ k) (hplace : k < place) (h : ts[k]? = some t)
      (hk : t.kind = .equal) : ErrorAt ts start place ⟨.invalidTarget, some t⟩ (some k)

/-- A passage is what it says: a declaration was read there, or one failed, and recovery stopped as
soon as it could. Any fuel that is enough for all tokens shows it. -/
inductive Passage.Sound (ts : List Token) : Passage → Prop where
  | read {start stop : Nat} {s : Stmt}
      (h : ∀ fuel, fuelFor ts.length ≤ fuel →
        declaration fuel (ts.drop start) = .ok s (ts.drop stop)) :
    Sound ts (.read start stop s)
  | failed {start place stop : Nat} {e : ParseError} {tokenAt : Option Nat}
      (hstart : start ≤ place) (hplace : place ≤ inputLength ts)
      (h : ∀ fuel, fuelFor ts.length ≤ fuel →
        declaration fuel (ts.drop start) = .error e (ts.drop place))
      (he : ErrorAt ts start place e tokenAt) (hstop : IsLeast {j | StopsAt ts place j} stop) :
    Sound ts (.failed start place stop e tokenAt)

/-- Passages that follow each other without a gap, none of them empty, from one place to another. -/
inductive Consecutive : Nat → List Passage → Nat → Prop where
  | nil {i : Nat} : Consecutive i [] i
  | cons {p : Passage} {ps : List Passage} {n : Nat} (hp : p.start < p.stop)
      (h : Consecutive p.stop ps n) : Consecutive p.start (p :: ps) n

/-- A cause of failure, seen by the places of the tokens. -/
theorem Cause.errorAt {ts passed : List Token} {e : ParseError} {start : Nat}
    (hpassed : passed = (ts.take (start + passed.length)).drop start)
    (hle : start + passed.length ≤ ts.length)
    (h : Cause e passed (ts.drop (start + passed.length))) :
    ∃ tokenAt, ErrorAt ts start (start + passed.length) e tokenAt := by
  have hhead : (ts.drop (start + passed.length)).head? = ts[start + passed.length]? := by
    rw [List.head?_drop]
  have hat : ∀ t ∈ passed, ∃ k, start ≤ k ∧ k < start + passed.length ∧ ts[k]? = some t := by
    intro t ht
    obtain ⟨k, hk, rfl⟩ := List.getElem_of_mem ht
    refine ⟨start + k, Nat.le_add_right _ _, by omega, ?_⟩
    have hget : passed[k]? = ((ts.take (start + passed.length)).drop start)[k]? :=
      congrArg (·[k]?) hpassed
    rw [List.getElem?_drop, List.getElem?_take_of_lt (by omega)] at hget
    rw [← hget, List.getElem?_eq_getElem hk]
  generalize hrest : ts.drop (start + passed.length) = rest at h hhead
  cases h with
  | unexpected => exact ⟨_, .unexpected hhead.symm⟩
  | expected hk => exact ⟨_, .expected hhead.symm hk⟩
  | ended => exact ⟨none, .ended (Nat.le_antisymm hle (List.drop_eq_nil_iff.mp hrest))⟩
  | noValue ht hk hv =>
    obtain ⟨k, hstart, hlt, hget⟩ := hat _ ht
    exact ⟨some k, .noValue hstart hlt hget hk hv⟩
  | target ht hk =>
    obtain ⟨k, hstart, hlt, hget⟩ := hat _ ht
    exact ⟨some k, .target hstart hlt hget hk⟩

/-- One passage: what the declaration at a place before the end comes to, and what is left of the
program after it. -/
theorem exists_passage {ts : List Token} {i : Nat} (hi : i < inputLength ts) :
    ∃ p : Passage, p.start = i ∧ i < p.stop ∧ p.stop ≤ inputLength ts ∧ p.Sound ts ∧
      parseProgram (ts.drop i) =
        ⟨p.statement?.toList ++ (parseProgram (ts.drop p.stop)).statements,
          p.error?.toList ++ (parseProgram (ts.drop p.stop)).errors⟩ := by
  have hleft := atEnd_drop_of_lt hi
  have henough : fuelFor (ts.drop i).length ≤ fuelFor ts.length := by
    unfold fuelFor
    rw [List.length_drop]
    omega
  have hspec := declaration_parses henough
  have hfuel : ∀ fuel, fuelFor ts.length ≤ fuel → declaration fuel (ts.drop i) =
      declaration (fuelFor ts.length) (ts.drop i) :=
    fun fuel hle => declaration_fuel (Nat.le_trans henough hle) henough
  unfold Parses Ends at hspec
  split at hspec
  next s rest hrun =>
    obtain ⟨used, hts, hused, dangling, hs, -⟩ := hspec
    have hpos := hs.length_pos rfl
    simp only [List.nil_append] at hpos
    obtain ⟨rfl, hle, -⟩ := drop_of_append (Nat.le_of_lt hi) hused hts
    refine ⟨.read i (i + used.length) s, rfl, ?_, hle, .read fun fuel hle => ?_, ?_⟩
    · exact Nat.lt_add_of_pos_right hpos
    · rw [hfuel fuel hle, hrun]
    · exact parseProgram_of_ok hleft henough hrun
  next e rest hrun =>
    obtain ⟨passed, hts, hpassed, hc⟩ := hspec
    rw [List.nil_append] at hc
    obtain ⟨rfl, hle, heq⟩ := drop_of_append (Nat.le_of_lt hi) hpassed hts
    obtain ⟨stop, hsync, hstop⟩ := synchronize_drop hle
    obtain ⟨tokenAt, he⟩ := hc.errorAt heq (Nat.le_trans hle (inputLength_le ts))
    refine ⟨.failed i (i + passed.length) stop e tokenAt, rfl, ?_, hstop.1.le,
      .failed (Nat.le_add_right _ _) hle (fun fuel hle => ?_) he hstop, ?_⟩
    · rcases hstop.1 with rfl | ⟨hlt, -⟩
      · exact hi
      · exact Nat.lt_of_le_of_lt (Nat.le_add_right _ _) hlt
    · rw [hfuel fuel hle, hrun]
    · rw [parseProgram_of_error hleft henough hrun, hsync]
      rfl

/-- All passages: the tokens from a place on are cut into passages up to the end. -/
theorem exists_passages {ts : List Token} {i : Nat} (hi : i ≤ inputLength ts) :
    ∃ ps : List Passage, Consecutive i ps (inputLength ts) ∧ (∀ p ∈ ps, p.Sound ts) ∧
      parseProgram (ts.drop i) =
        ⟨ps.filterMap Passage.statement?, ps.filterMap Passage.error?⟩ := by
  induction hn : inputLength ts - i using Nat.strong_induction_on generalizing i with
  | _ n ih =>
    rcases Nat.lt_or_eq_of_le hi with hlt | rfl
    · obtain ⟨p, rfl, hstop, hle, hsound, hparse⟩ := exists_passage hlt
      obtain ⟨ps, hps, hall, hrest⟩ := ih (inputLength ts - p.stop) (by omega) hle rfl
      refine ⟨p :: ps, .cons hstop hps, List.forall_mem_cons.mpr ⟨hsound, hall⟩, ?_⟩
      rw [hparse, hrest]
      cases p <;> rfl
    · exact ⟨[], .nil, List.forall_mem_nil _, parseProgram_of_atEnd (atEnd_drop_inputLength ts)⟩

namespace Consecutive

variable {i n : Nat} {ps : List Passage} {ts : List Token}

/-- There are no more passages than places. -/
theorem length_le (h : Consecutive i ps n) : i + ps.length ≤ n := by
  induction h with
  | nil => exact Nat.le_refl _
  | cons hp _ ih =>
    rw [List.length_cons]
    omega

theorem start_ge (h : Consecutive i ps n) : ∀ p ∈ ps, i ≤ p.start := by
  induction h with
  | nil => exact List.forall_mem_nil _
  | cons hp _ ih =>
    refine List.forall_mem_cons.mpr ⟨Nat.le_refl _, fun q hq => ?_⟩
    exact Nat.le_trans (Nat.le_of_lt hp) (ih q hq)

/-- Every place before the end is in one passage only. -/
theorem pairwise_disjoint (h : Consecutive i ps n) : ps.Pairwise fun p q => p.stop ≤ q.start := by
  induction h with
  | nil => exact .nil
  | cons _ h ih => exact .cons h.start_ge ih

end Consecutive

/-- The token of an error stands in its passage, at the place of the failure at the latest. -/
theorem ErrorAt.bounds {ts : List Token} {start place k : Nat} {e : ParseError}
    {tokenAt : Option Nat} (h : ErrorAt ts start place e tokenAt) (hstart : start ≤ place)
    (hk : tokenAt = some k) : start ≤ k ∧ k ≤ place := by
  cases h with
  | unexpected => exact Option.some.inj hk ▸ ⟨hstart, Nat.le_refl _⟩
  | expected => exact Option.some.inj hk ▸ ⟨hstart, Nat.le_refl _⟩
  | ended => cases hk
  | noValue hs hp => exact Option.some.inj hk ▸ ⟨hs, Nat.le_of_lt hp⟩
  | target hs hp => exact Option.some.inj hk ▸ ⟨hs, Nat.le_of_lt hp⟩

theorem Passage.Sound.start_le_tokenAt {ts : List Token} {p : Passage} (h : p.Sound ts) {k : Nat}
    (hk : p.tokenAt? = some k) : p.start ≤ k := by
  cases h with
  | read => cases hk
  | failed hstart _ _ he _ => exact (he.bounds hstart hk).1

/-- Unless its passage is the last, the token of an error stands before the stop of recovery. -/
theorem Passage.Sound.tokenAt_lt_stop {ts : List Token} {p : Passage} (h : p.Sound ts) {k : Nat}
    (hk : p.tokenAt? = some k) (hstop : p.stop < inputLength ts) : k < p.stop := by
  cases h with
  | read => cases hk
  | failed hstart _ _ he hleast =>
    have hle := (he.bounds hstart hk).2
    rcases hleast.1 with rfl | ⟨hlt, -⟩
    · exact absurd hstop (Nat.lt_irrefl _)
    · exact Nat.lt_of_le_of_lt hle hlt

/-- The tokens of the errors stand in the order of the errors. -/
theorem Consecutive.pairwise_tokenAt {ts : List Token} {i : Nat} {ps : List Passage}
    (h : Consecutive i ps (inputLength ts)) (hps : ∀ p ∈ ps, p.Sound ts) :
    (ps.filterMap Passage.tokenAt?).Pairwise (· < ·) := by
  generalize hn : inputLength ts = n at h
  induction h with
  | nil => exact .nil
  | @cons p ps n hp h ih =>
    obtain ⟨hsound, hrest⟩ := List.forall_mem_cons.mp hps
    have hlater := ih hrest hn
    cases hk : p.tokenAt? with
    | none => rwa [List.filterMap_cons_none hk]
    | some k =>
      rw [List.filterMap_cons_some hk]
      refine .cons (fun k' hk' => ?_) hlater
      obtain ⟨q, hq, hq'⟩ := List.mem_filterMap.mp hk'
      have hge := (hrest q hq).start_le_tokenAt hq'
      have hstart := h.start_ge q hq
      have hlength := h.length_le
      have hpos := List.length_pos_of_mem hq
      have hlt := hsound.tokenAt_lt_stop hk (by omega)
      omega

/-- The place that is named is the place of the token of the error. -/
theorem ErrorAt.token {ts : List Token} {start place : Nat} {e : ParseError}
    {tokenAt : Option Nat} (h : ErrorAt ts start place e tokenAt) :
    tokenAt.map (ts[·]?) = e.token.map some := by
  cases h with
  | unexpected h => exact congrArg some h
  | expected h _ => exact congrArg some h
  | ended => rfl
  | noValue _ _ h _ _ => exact congrArg some h
  | target _ _ h _ => exact congrArg some h

/-- The places that passages name are those of the tokens of their errors. -/
theorem map_tokenAt {ts : List Token} {ps : List Passage} (hps : ∀ p ∈ ps, p.Sound ts) :
    (ps.filterMap Passage.tokenAt?).map (ts[·]?) =
      ((ps.filterMap Passage.error?).filterMap ParseError.token).map some := by
  induction ps with
  | nil => rfl
  | cons p ps ih =>
    obtain ⟨hp, hps⟩ := List.forall_mem_cons.mp hps
    have hrest := ih hps
    cases hp with
    | read => exact hrest
    | @failed start place stop e tokenAt _ _ _ he _ =>
      have htoken := he.token
      rw [List.filterMap_cons_some (rfl : (Passage.failed start place stop e tokenAt).error? = e)]
      cases tokenAt with
      | none =>
        have hnone : e.token = none := by simpa using htoken.symm
        rwa [List.filterMap_cons_none rfl, List.filterMap_cons_none hnone]
      | some k =>
        obtain ⟨t, ht⟩ : ∃ t, e.token = some t := by
          cases het : e.token with
          | none => simp [het] at htoken
          | some t => exact ⟨t, rfl⟩
        have hk : ts[k]? = some t := by simpa [ht] using htoken
        have hplace : (Passage.failed start place stop e (some k)).tokenAt? = some k := rfl
        rw [List.filterMap_cons_some hplace, List.filterMap_cons_some ht, List.map_cons,
          List.map_cons, hk, hrest]

/-- Every passage gives a declaration or an error. -/
theorem length_passages (ps : List Passage) :
    (ps.filterMap Passage.statement?).length + (ps.filterMap Passage.error?).length =
      ps.length := by
  induction ps with
  | nil => rfl
  | cons p ps ih =>
    cases p with
    | read start stop s =>
      simp only [List.filterMap_cons, Passage.statement?, Passage.error?, List.length_cons]
      omega
    | failed start place stop e tokenAt =>
      simp only [List.filterMap_cons, Passage.statement?, Passage.error?, List.length_cons]
      omega

/-- **Every token is accounted for.** The tokens before the end are cut into passages that follow
each other without a gap, none of them empty. Each was read as one declaration, the next statement
of the program; or a declaration failed in it, with the next error, and it reaches up to where
recovery stopped. So there are no more statements and errors than tokens, no token is in two
passages, and the tokens of the errors stand at places that increase strictly. More fuel changes
nothing. -/
theorem parseProgram_accounts (ts : List Token) :
    ∃ ps : List Passage,
      (Consecutive 0 ps (inputLength ts) ∧ (∀ p ∈ ps, p.Sound ts) ∧
        (parseProgram ts).statements = ps.filterMap Passage.statement? ∧
        (parseProgram ts).errors = ps.filterMap Passage.error?) ∧
      (∀ fuel, ts.length < fuel → parseFrom fuel ts = parseProgram ts) ∧
      (parseProgram ts).statements.length + (parseProgram ts).errors.length ≤ inputLength ts ∧
      ps.Pairwise (fun p q => p.stop ≤ q.start) ∧
      (ps.filterMap Passage.tokenAt?).Pairwise (· < ·) ∧
      (ps.filterMap Passage.tokenAt?).map (ts[·]?) =
        ((parseProgram ts).errors.filterMap ParseError.token).map some := by
  obtain ⟨ps, hcut, hsound, hparse⟩ := exists_passages (Nat.zero_le (inputLength ts))
  rw [List.drop_zero] at hparse
  refine ⟨ps, ⟨hcut, hsound, congrArg Parsed.statements hparse, congrArg Parsed.errors hparse⟩,
    fun _ => parseFrom_eq, ?_, hcut.pairwise_disjoint, hcut.pairwise_tokenAt hsound, ?_⟩
  · rw [hparse, length_passages]
    simpa using hcut.length_le
  · rw [hparse, map_tokenAt hsound]

/-! ## What recovery drops -/

/-- The tokens that are skipped start nothing. -/
theorem skipTo_dropped (previous : Token) (ts : List Token) :
    ∃ dropped, ts = dropped ++ skipTo previous ts ∧ ∀ t ∈ dropped, t.kind ∉ starters := by
  induction ts generalizing previous with
  | nil => exact ⟨[], rfl, List.forall_mem_nil _⟩
  | cons t ts ih =>
    rw [skipTo]
    split
    next => exact ⟨[], rfl, List.forall_mem_nil _⟩
    next hskip =>
      obtain ⟨dropped, hts, hdropped⟩ := ih t
      simp only [Bool.or_eq_true, decide_eq_true_eq, not_or] at hskip
      have ht : t.kind ∉ starters := hskip.2
      refine ⟨t :: dropped, ?_, List.forall_mem_cons.mpr ⟨ht, hdropped⟩⟩
      rw [List.cons_append, ← hts]

/-- Recovery drops the token of the failure, if one is left, and after it only tokens that start
nothing. -/
theorem synchronize_dropped {ts : List Token} (h : atEnd ts = false) :
    ∃ t dropped, ts = t :: dropped ++ synchronize ts ∧ ∀ u ∈ dropped, u.kind ∉ starters := by
  cases ts with
  | nil => cases h
  | cons t ts =>
    have ht : t.kind ≠ .endOfInput := fun he => Bool.eq_false_iff.mp h (atEnd_cons.mpr he)
    obtain ⟨dropped, hts, hdropped⟩ := skipTo_dropped t ts
    rw [synchronize, if_neg ht]
    exact ⟨t, dropped, by rw [List.cons_append, ← hts], hdropped⟩

/-- **What recovery drops.** When a declaration fails, recovery drops a token that starts a
declaration or statement if and only if the failure is at such a token, and then only this one;
reading goes on behind what was dropped. -/
theorem parseProgram_drops_starter {ts rest : List Token} {e : ParseError} {fuel : Nat}
    (hleft : atEnd ts = false) (hfuel : fuelFor ts.length ≤ fuel)
    (h : declaration fuel ts = .error e rest) :
    ∃ dropped, rest = dropped ++ synchronize rest ∧
      parseProgram ts = ⟨(parseProgram (synchronize rest)).statements,
        e :: (parseProgram (synchronize rest)).errors⟩ ∧
      ((∃ t ∈ dropped, t.kind ∈ starters) ↔ ∃ t, rest.head? = some t ∧ t.kind ∈ starters) ∧
      ∀ t ∈ dropped.tail, t.kind ∉ starters := by
  have hparse := parseProgram_of_error hleft hfuel h
  cases hend : atEnd rest with
  | false =>
    obtain ⟨t, dropped, hrest, hdropped⟩ := synchronize_dropped hend
    refine ⟨t :: dropped, hrest, hparse, ?_, hdropped⟩
    have hhead : rest.head? = some t := by rw [hrest]; rfl
    constructor
    · rintro ⟨u, hu, hstarts⟩
      rcases List.mem_cons.mp hu with rfl | hu
      · exact ⟨u, hhead, hstarts⟩
      · exact absurd hstarts (hdropped u hu)
    · rintro ⟨u, hu, hstarts⟩
      obtain rfl := Option.some.inj (hhead.symm.trans hu)
      exact ⟨t, List.mem_cons_self, hstarts⟩
  | true =>
    -- Nothing is dropped at the end, and the end starts nothing.
    have hsame : synchronize rest = rest := by
      cases rest with
      | nil => rfl
      | cons t rest => rw [synchronize, if_pos (atEnd_cons.mp hend)]
    refine ⟨[], by rw [hsame]; rfl, hparse, ⟨by simp, ?_⟩, List.forall_mem_nil _⟩
    rintro ⟨t, ht, hstarts⟩
    exact absurd hstarts (stops_of_atEnd hend (by decide) t ht)

/-- The tokens of two declarations of variables, the first without its semicolon. -/
def unfinished : List Token :=
  tokensOf [.kwVar, .identifier, .kwVar, .identifier, .semicolon]

theorem unfinished_fails : declaration (fuelFor 5) unfinished =
    .error ⟨.expected .semicolon, unfinished[2]?⟩ (unfinished.drop 2) := rfl

/-- The second declaration is at the place of the failure, where recovery drops its first token. -/
theorem parseProgram_drops_starter_var :
    atEnd unfinished = false ∧
      (∃ e, declaration (fuelFor 5) unfinished = .error e (unfinished.drop 2)) ∧
      ∃ dropped, unfinished.drop 2 = dropped ++ synchronize (unfinished.drop 2) ∧
        ∃ t ∈ dropped, t.kind ∈ starters := by
  have hleft : atEnd unfinished = false := rfl
  have hfuel : fuelFor unfinished.length ≤ fuelFor 5 := Nat.le_refl _
  obtain ⟨dropped, hrest, -, hiff, -⟩ := parseProgram_drops_starter hleft hfuel unfinished_fails
  exact ⟨hleft, ⟨_, unfinished_fails⟩, dropped, hrest, hiff.mpr ⟨_, rfl, by decide⟩⟩

/-- A declaration is lost that would be read from the place of the failure. -/
theorem parseProgram_loses_declaration :
    (∃ e, declaration (fuelFor 5) unfinished = .error e (unfinished.drop 2)) ∧
      (∃ t, (unfinished.drop 2).head? = some t ∧ t.kind ∈ starters) ∧
      (parseProgram (unfinished.drop 2)).statements.length = 1 ∧
      (parseProgram (unfinished.drop 2)).errors = [] ∧
      (parseProgram unfinished).statements.length = 0 := by
  refine ⟨⟨_, unfinished_fails⟩, ⟨_, rfl, by decide⟩, ?_, ?_, ?_⟩
  · rfl
  · rfl
  · rfl

end Dynascope
