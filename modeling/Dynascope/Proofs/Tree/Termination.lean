import Dynascope.Proofs.Tree.Progress
import Mathlib.Logic.Relation

/-!
# The descent ends

* `Rule.reader_eq_run`: with fuel that is not below the size of a reading, a function does what its
  actions say, and so do the functions that it calls.
* `Rule.eq_read`: only one way of reading does what the actions of all functions say.
* `Descent.moments`, `Descent.readings`: the tokens that are left at the moments of a run, and the
  readings that it calls for.
* `Forward`: moments whose place among the tokens does not go back and does not pass the end.
* `Rule.Orderly`: what holds of the reading of some tokens by a function.
* **`descent_terminates`**: all readings are orderly, and no chain of calls is endless.
-/

namespace Dynascope

open Dynascope.Parser Descent Rule

variable {ts us : List Token}

/-! ## Without fuel -/

namespace Descent

variable {α : Type} {bound : Nat} {Q : α → List Token → Prop} {answers : Answers}

/-- Answers that are the same for all smaller readings are the same for the actions. -/
theorem Within.run_congr {p : Descent α} (h : p.Within bound Q ts)
    (hsame : ∀ (rule : Rule) us, rule.size us < bound → answers rule us = rule.read us) :
    p.run answers ts = p.run read ts := by
  induction p generalizing ts with
  | ends a => rfl
  | fails e => rfl
  | looks next ih => exact ih ts h
  | takes next ih => exact ih h.2
  | calls rule next ih =>
    have hanswer := hsame rule ts h.1
    simp only [run, hanswer]
    exact ih _ h.2

end Descent

theorem inputLength_of_atEnd (h : atEnd ts = true) : inputLength ts = 0 := by
  cases ts with
  | nil => rfl
  | cons t ts => simp [inputLength, atEnd_cons.mp h]

theorem read_program (ts : List Token) :
    program.read ts = .ok (parseProgram ts) (ts.drop (inputLength ts)) := by
  have hparse : parseFrom (program.size ts) ts = parseProgram ts :=
    parseFrom_eq (by simp only [Rule.size, Rule.rank]; omega)
  rw [← hparse]
  rfl

/-- What becomes of a program that is read. -/
theorem run_program_map (f : Parsed → Parsed) (ts : List Token) :
    (descend program >>= fun later => pure (f later)).run read ts =
      .ok (f (parseProgram ts)) (ts.drop (inputLength ts)) := by
  rw [run_bind (run_descend program) fun _ => rfl, ok_bind (read_program ts)]
  rfl

/-- The loop over the declarations of a program, for a reader of declarations with enough fuel. -/
theorem program_run
    (hdeclaration : declaration (fuelFor ts.length) ts = (stmt .declaration).read ts) :
    program.body.run read ts = .ok (parseProgram ts) (ts.drop (inputLength ts)) := by
  change (if atEnd ts then _ else _ : Descent Parsed).run read ts = _
  split
  next hend =>
    rw [parseProgram_of_atEnd hend, inputLength_of_atEnd hend]
    rfl
  next hend =>
    have hleft := Bool.eq_false_iff.mpr hend
    cases hread : (stmt .declaration).read ts with
    | ok s us =>
      rw [hread] at hdeclaration
      rw [parseProgram_of_ok hleft (Nat.le_refl _) hdeclaration,
        (leaves_of_ok hread).onward.drop_inputLength]
      simp only [run, hread, answer, finalState]
      exact run_program_map (fun later => ⟨s :: later.statements, later.errors⟩) us
    | error e us =>
      rw [hread] at hdeclaration
      rw [parseProgram_of_error hleft (Nat.le_refl _) hdeclaration,
        ((onward_of_error hread).trans (.synchronize us)).drop_inputLength]
      simp only [run, hread, answer, finalState]
      exact run_program_map (fun later => ⟨later.statements, e :: later.errors⟩)
        (Dynascope.synchronize us)

namespace Rule

theorem skip_run (previous : Token) (ts : List Token) :
    (skip previous).body.run read ts = .ok () (skipTo previous ts) := by
  cases ts with
  | nil => rfl
  | cons t us =>
    change (if t.kind = .endOfInput || previous.kind = .semicolon || t.kind ∈ starters then _
      else _ : Descent Unit).run read (t :: us) = _
    rw [skipTo]
    split <;> rfl

theorem synchronize_run (ts : List Token) :
    synchronize.body.run read ts = .ok () (Dynascope.synchronize ts) := by
  cases ts with
  | nil => rfl
  | cons t us =>
    change (if t.kind = .endOfInput then _ else _ : Descent Unit).run read (t :: us) = _
    rw [Dynascope.synchronize]
    split <;> rfl

/-- **The descent needs no fuel.** With enough fuel, a function does what its actions say, and so do
the functions that it calls. -/
theorem reader_eq_run (rule : Rule) (ts : List Token) {n : Nat} (hn : rule.size ts ≤ n) :
    rule.reader n ts = rule.body.run read ts := by
  induction hsize : rule.size ts using Nat.strong_induction_on generalizing rule ts n with
  | _ size ih =>
    subst hsize
    have hsame : ∀ k, n ≤ k + 1 → ∀ (rule' : Rule) us, rule'.size us < rule.size ts →
        rule'.reader k us = rule'.read us := by
      intro k hk rule' us hlt
      rw [ih _ hlt rule' us (by omega) rfl, read, ih _ hlt rule' us (Nat.le_refl _) rfl]
    have hwithin := rule.body_within ts
    have hpos := rule.rank_bounds.1
    unfold Rule.size at hn
    cases rule with
    | expr rule =>
      obtain ⟨k, rfl⟩ : ∃ k, n = k + 1 := ⟨n - 1, by omega⟩
      have hrun : rule.body.run (fun rule => rule.reader k) = rule.parser (k + 1) :=
        ExprRule.run_body (fun _ => rfl) rule
      exact (congrFun hrun ts).symm.trans (hwithin.run_congr (hsame k (Nat.le_refl _)))
    | stmt rule =>
      have hcost : rule.cost ≤ 1 := by cases rule <;> simp [StmtRule.cost]
      obtain ⟨k, rfl⟩ : ∃ k, n = k + rule.cost := ⟨n - rule.cost, by omega⟩
      have hrun : rule.body.run (fun rule => rule.reader k) = rule.parser (k + rule.cost) :=
        StmtRule.run_body rfl (fun _ => rfl) rule
      exact (congrFun hrun ts).symm.trans (hwithin.run_congr (hsame k (by omega)))
    | program =>
      have hdeclaration : declaration (fuelFor ts.length) ts = (stmt .declaration).read ts := by
        have hlt : (stmt .declaration).size ts < program.size ts := size_lt_of_rank (by decide)
        have hfuel : (stmt .declaration).size ts ≤ fuelFor ts.length := by
          simp only [Rule.size, Rule.rank, fuelFor]
          omega
        exact (ih _ hlt (stmt .declaration) ts hfuel rfl).trans
          (ih _ hlt (stmt .declaration) ts (Nat.le_refl _) rfl).symm
      have hparse : parseFrom n ts = parseProgram ts := parseFrom_eq (by omega)
      rw [program_run hdeclaration, ← hparse]
      rfl
    | synchronize => exact (synchronize_run ts).symm
    | skip previous => exact (skip_run previous ts).symm

theorem read_eq_run (rule : Rule) (ts : List Token) : rule.read ts = rule.body.run read ts :=
  rule.reader_eq_run ts (Nat.le_refl _)

theorem reader_eq_read (rule : Rule) (ts : List Token) {n : Nat} (hn : rule.size ts ≤ n) :
    rule.reader n ts = rule.read ts :=
  (rule.reader_eq_run ts hn).trans (rule.read_eq_run ts).symm

/-- Only one way of reading does what the actions of all functions say. -/
theorem eq_read {answers : Answers} (h : ∀ rule : Rule, answers rule = rule.body.run answers) :
    answers = read := by
  funext rule ts
  induction hsize : rule.size ts using Nat.strong_induction_on generalizing rule ts with
  | _ size ih =>
    subst hsize
    rw [h rule, rule.read_eq_run ts]
    exact (rule.body_within ts).run_congr fun rule' us hlt => ih _ hlt rule' us rfl

end Rule

/-! ## The moments of a reading -/

namespace Descent

variable {α : Type} {bound k : Nat} {Q : α → List Token → Prop}

/-- The tokens that are left at the moments of a run: at first, and after every token that is taken
and every call. -/
def moments : Descent α → List Token → List (List Token)
  | ends _, ts => [ts]
  | fails _, ts => [ts]
  | looks next, ts => (next ts).moments ts
  | takes next, ts => ts :: next.moments ts.tail
  | calls rule next, ts =>
    ts :: (next (answer (rule.read ts))).moments (finalState (rule.read ts))

/-- The readings that a run calls for. -/
def readings : Descent α → List Token → List (Rule × List Token)
  | ends _, _ => []
  | fails _, _ => []
  | looks next, ts => (next ts).readings ts
  | takes next, ts => next.readings ts.tail
  | calls rule next, ts =>
    (rule, ts) :: (next (answer (rule.read ts))).readings (finalState (rule.read ts))

theorem getLast?_moments (p : Descent α) (ts : List Token) :
    (p.moments ts).getLast? = some (finalState (p.run read ts)) := by
  induction p generalizing ts with
  | ends a => rfl
  | fails e => rfl
  | looks next ih => exact ih ts ts
  | takes next ih =>
    rw [moments, List.getLast?_cons, ih]
    rfl
  | calls rule next ih =>
    rw [moments, List.getLast?_cons, ih]
    rfl

/-- A function is called with the tokens that are left at a moment. -/
theorem mem_moments_of_readings {p : Descent α} {x : Rule × List Token} (h : x ∈ p.readings ts) :
    x.2 ∈ p.moments ts := by
  induction p generalizing ts with
  | ends a => cases h
  | fails e => cases h
  | looks next ih => exact ih ts h
  | takes next ih => exact List.mem_cons_of_mem _ (ih h)
  | calls rule next ih =>
    rcases List.mem_cons.mp h with rfl | h
    · exact List.mem_cons_self ..
    · exact List.mem_cons_of_mem _ (ih _ h)

theorem Within.size_lt {p : Descent α} (h : p.Within bound Q ts) :
    ∀ x ∈ p.readings ts, x.1.size x.2 < bound := by
  induction p generalizing ts with
  | ends a => exact List.forall_mem_nil _
  | fails e => exact List.forall_mem_nil _
  | looks next ih => exact ih ts h
  | takes next ih => exact ih h.2
  | calls rule next ih => exact List.forall_mem_cons.mpr ⟨h.1, ih _ h.2⟩

theorem onward_finalState (rule : Rule) (ts : List Token) :
    Onward ts (finalState (rule.read ts)) := by
  cases hread : rule.read ts with
  | ok a us => exact (leaves_of_ok hread).onward
  | error e us => exact onward_of_error hread

/-- Moments of a run that is at the place `k` among the tokens: from one to the next, the place does
not go back, and it never passes the end. -/
def Forward (ts : List Token) (k : Nat) (moments : List (List Token)) : Prop :=
  ∃ places, moments = (k :: places).map ts.drop ∧ (k :: places).IsChain (· ≤ ·) ∧
    ∀ j ∈ k :: places, j ≤ inputLength ts

theorem Forward.one (hk : k ≤ inputLength ts) : Forward ts k [ts.drop k] :=
  ⟨[], rfl, .singleton k, by simpa using hk⟩

theorem Forward.cons {j : Nat} {moments : List (List Token)} (h : Forward ts j moments)
    (hkj : k ≤ j) (hk : k ≤ inputLength ts) : Forward ts k (ts.drop k :: moments) := by
  obtain ⟨places, hmoments, hchain, hbound⟩ := h
  exact ⟨j :: places, congrArg _ hmoments, .cons_cons hkj hchain,
    List.forall_mem_cons.mpr ⟨hk, hbound⟩⟩

theorem Within.forward {p : Descent α} (h : p.Within bound Q (ts.drop k))
    (hk : k ≤ inputLength ts) : Forward ts k (p.moments (ts.drop k)) := by
  induction p generalizing k with
  | ends a => exact .one hk
  | fails e => exact .one hk
  | looks next ih => exact ih _ h hk
  | takes next ih =>
    obtain ⟨hleft, h⟩ := h
    have hlt : k < inputLength ts := by
      refine Nat.lt_of_le_of_ne hk fun heq => ?_
      rw [heq, atEnd_drop_inputLength] at hleft
      cases hleft
    rw [List.tail_drop] at h
    rw [moments, List.tail_drop]
    exact (ih h hlt).cons (Nat.le_succ k) hk
  | calls rule next ih =>
    obtain ⟨used, hdrop, hused⟩ := onward_finalState rule (ts.drop k)
    obtain ⟨hrest, hle, -⟩ := drop_of_append hk hused hdrop
    have hnext := h.2
    rw [hrest] at hnext
    rw [moments, hrest]
    exact (ih _ hnext hle).cons (Nat.le_add_right _ _) hk

end Descent

/-! ## The end of the descent -/

/-- A reading by a function calls for another one. -/
def Calls (x y : Rule × List Token) : Prop :=
  y ∈ x.1.body.readings x.2

/-- What holds of the reading of some tokens by a function. -/
structure Rule.Orderly (rule : Rule) (ts : List Token) : Prop where
  /-- The function does what its actions say, and so do those that it calls. -/
  unfolds : rule.read ts = rule.body.run read ts
  /-- So does its reader with any fuel that is not below the size. -/
  fuel : ∀ n, rule.size ts ≤ n → rule.reader n ts = rule.read ts
  /-- The functions that it calls have smaller readings to do. -/
  smaller : ∀ x ∈ rule.body.readings ts, x.1.size x.2 < rule.size ts
  /-- A function that reads a declaration, a statement or an expression takes a token if it
  succeeds. -/
  consumes : rule.takes = true → ∀ a us, rule.read ts = .ok a us → us.length < ts.length
  /-- The place among the tokens never goes back and never passes the end: not when a token is
  taken, and not by a call. -/
  forward : Forward ts 0 (rule.body.moments ts)
  /-- The calls are made at such moments, -/
  calls : ∀ x ∈ rule.body.readings ts, x.2 ∈ rule.body.moments ts
  /-- and the last one is the end of the reading. -/
  last : (rule.body.moments ts).getLast? = some (finalState (rule.read ts))

theorem Rule.orderly (rule : Rule) (ts : List Token) : rule.Orderly ts where
  unfolds := rule.read_eq_run ts
  fuel _ hn := rule.reader_eq_read ts hn
  smaller := (rule.body_within ts).size_lt
  consumes htakes _ _ hread := (leaves_of_ok hread).lt htakes
  forward := (rule.body_within (ts.drop 0)).forward (Nat.zero_le _)
  calls _ := mem_moments_of_readings
  last := by rw [rule.read_eq_run ts, getLast?_moments]

/-- A reading goes on from where it was called, and not beyond the end. -/
theorem Calls.onward {x y : Rule × List Token} (h : Calls x y) : Onward x.2 y.2 := by
  obtain ⟨places, hmoments, -, hbound⟩ := (x.1.orderly x.2).forward
  have hmem := mem_moments_of_readings h
  rw [hmoments] at hmem
  obtain ⟨k, hk, hdrop⟩ := List.mem_map.mp hmem
  exact hdrop ▸ .drop (hbound k hk)

theorem onward_of_calls {x y : Rule × List Token} (h : Relation.ReflTransGen Calls x y) :
    Onward x.2 y.2 := by
  induction h with
  | refl => exact .refl _
  | tail _ hcall ih => exact ih.trans hcall.onward

/-- **The descent ends.** On any tokens, with or without a token for the end, the readings that a
function calls for are smaller than its own, so that calls and loops come to an end. They never go
back and never pass the end, however deep they are, and what takes part in a declaration, a
statement or an expression takes a token if it succeeds. So what the functions say of each other
determines what they read, and for a whole program that is its statements and errors. -/
theorem descent_terminates :
    (∀ (rule : Rule) (ts : List Token), rule.Orderly ts) ∧
    (WellFounded fun y x : Rule × List Token => Calls x y) ∧
    (∀ x y, Relation.ReflTransGen Calls x y → ∃ k ≤ inputLength x.2, y.2 = x.2.drop k) ∧
    (∀ answers : Answers, (∀ rule : Rule, answers rule = rule.body.run answers) →
      answers = read) ∧
    ∀ ts, program.read ts = .ok (parseProgram ts) (ts.drop (inputLength ts)) := by
  refine ⟨Rule.orderly, ?_, fun x y h => (onward_of_calls h).exists_drop, fun _ => eq_read,
    read_program⟩
  refine Subrelation.wf ?_ (measure fun x : Rule × List Token => x.1.size x.2).wf
  exact fun {y x} h => (x.1.orderly x.2).smaller y h

/-- A statement before a token of a kind outside the language, without an end. -/
theorem descent_terminates_noEnd :
    let t : Token := ⟨.other 99, "?", none, .start⟩
    let ts : List Token := [⟨.kwTrue, "true", none, .start⟩, ⟨.semicolon, ";", none, .start⟩, t]
    ((stmt .declaration).takes = true ∧
      (stmt .declaration).read ts = .ok (.expr (.literal (.bool true))) [t] ∧
      [t].length < ts.length) ∧
    (stmt .declaration, ts) ∈ program.body.readings ts ∧
      (stmt .declaration).size ts < program.size ts := by
  intro t ts
  have hread : (stmt .declaration).read ts = .ok (.expr (.literal (.bool true))) [t] := rfl
  have hcall : (stmt .declaration, ts) ∈ program.body.readings ts := List.mem_cons_self ..
  obtain ⟨horderly, -⟩ := descent_terminates
  exact ⟨⟨rfl, hread, (horderly _ ts).consumes rfl _ _ hread⟩, hcall,
    (horderly program ts).smaller _ hcall⟩

end Dynascope
