import Dynascope.Proofs.Eval.Twin
import Dynascope.Proofs.Tree.Joined

/-!
# Line by line

A source may be run as a whole or in parts, one run after the other on the same machine. Parts that
are read without errors and that run to their end, the last one apart, do what the whole does.

* `Machine.completes`: whether all statements of a program end normally.
* `Machine.interpretWith_append`: a program in two parts, the first of which completes. The second
  part goes on from the machine and from the value of the first.
* `Machine.interpretWith_like`: programs that are alike, on machines that are alike.
* `Likeness.lowered`: how tokens move if a source is run after another one. Those of code that is
  there already stay, those of the source stand further down.
* `Machine.lineByLine_agrees`: a source, a newline and a second source do what the two sources do
  one after the other.
-/

namespace Dynascope

/-! ## Programs in two parts -/

namespace Eval

variable {fuel : Nat} {program : List Stmt} {m : Machine}

/-- Whether all statements end normally: none fails, and none returns. -/
def completes (fuel : Nat) : List Stmt → Machine → Bool
  | [], _ => true
  | s :: rest, m =>
    match s with
    | .expr e =>
      match eval fuel e m with
      | .ok _ m => completes fuel rest m
      | .error _ _ => false
    | s =>
      match exec fuel s m with
      | .ok .normal m => completes fuel rest m
      | _ => false

/-- A statement that is not an expression is executed. -/
theorem interpret_cons {s : Stmt} (hs : ∀ e, s ≠ .expr e) (rest : List Stmt) (last : Held) :
    interpret fuel (s :: rest) last = (do
      match ← exec fuel s with
      | .normal => interpret fuel rest last
      | .returned v => return some v) := by
  cases s with
  | expr e => exact absurd rfl (hs e)
  | _ => rfl

/-- What follows a program that completes goes on from its machine and its value. -/
theorem interpret_append (h : completes fuel program m = true) (last : Held) :
    ∃ value m', interpret fuel program last m = .ok value m' ∧
      ∀ later, interpret fuel (program ++ later) last m = interpret fuel later value m' := by
  fun_induction completes fuel program m generalizing last with
  | case1 m => exact ⟨last, m, rfl, fun _ => rfl⟩
  | case2 rest m e v m₁ hrun ih =>
    obtain ⟨value, m', hvalue, hlater⟩ := ih h (some v)
    exact ⟨value, m', (ok_bind hrun).trans hvalue,
      fun later => (ok_bind hrun).trans (hlater later)⟩
  | case3 => cases h
  | case4 rest m s hs m₁ hrun ih =>
    obtain ⟨value, m', hvalue, hlater⟩ := ih h last
    refine ⟨value, m', ?_, fun later => ?_⟩
    · rw [interpret_cons hs]
      exact (ok_bind hrun).trans hvalue
    · rw [List.cons_append, interpret_cons hs]
      exact (ok_bind hrun).trans (hlater later)
  | case5 => cases h

/-- The value from before counts only if the program has none. -/
theorem interpret_last (fuel : Nat) (program : List Stmt) (last : Held) (m : Machine) :
    interpret fuel program last m =
      mapEnd (·.or last) id id (interpret fuel program none m) := by
  induction program generalizing m last with
  | nil => rfl
  | cons s rest ih =>
    by_cases hs : ∀ e, s ≠ .expr e
    · rw [interpret_cons hs, interpret_cons hs]
      cases hrun : exec fuel s m with
      | ok flow m₁ =>
        rw [ok_bind hrun, ok_bind hrun]
        cases flow with
        | normal => exact ih last m₁
        | returned v => rfl
      | error stop m₁ =>
        rw [error_bind hrun, error_bind hrun]
        rfl
    · obtain ⟨e, rfl⟩ : ∃ e, s = .expr e := by simpa using hs
      rw [interpret, interpret]
      cases hrun : eval fuel e m with
      | ok v m₁ =>
        rw [ok_bind hrun, ih (some v) m₁]
        cases interpret fuel rest none m₁ with
        | ok w m' => simp only [mapEnd, Option.or_assoc, Option.some_or, id]
        | error stop m' => rfl
      | error stop m₁ =>
        rw [error_bind hrun]
        rfl

/-- Evaluation does not use the number for the next function declaration. -/
theorem interpret_site (fuel : Nat) (program : List Stmt) (last : Held) (m : Machine)
    (site : Nat) :
    interpret fuel program last { m with nextSite := site } =
      mapEnd id id (fun m' => { m' with nextSite := site }) (interpret fuel program last m) := by
  have hwider : m.maxDepth = 0 ∨ 0 < m.maxDepth ∧ m.maxDepth ≤ m.maxDepth := by omega
  have hlike : m.Like ⟨.exact, m.maxDepth, m.maxDepth, hwider, m.nextSite, site⟩
      { m with nextSite := site } :=
    ⟨rfl, rfl, Store.like_self fun _ _ _ _ _ => rfl, rfl, rfl, rfl, rfl, rfl, rfl, rfl⟩
  have htwins := interpret_twin fuel (likeStmts_self program fun _ _ => rfl) last _ _ hlike
  generalize interpret fuel program last m = r at htwins
  generalize interpret fuel program last { m with nextSite := site } = r' at htwins
  cases htwins with
  | @ok v m₁ m₂ hm =>
    have hlimit : m₁.maxDepth = m.maxDepth := hm.limit
    rw [hm.eq, ← hlimit]
    rfl
  | @error stop stop' m₁ m₂ hs hm =>
    have hlimit : m₁.maxDepth = m.maxDepth := hm.limit
    rw [hm.eq, hs.eq, ← hlimit]
    rfl
  | refused _ hlimit => exact absurd rfl hlimit

end Eval

theorem numberedAll_append (p q : List Stmt) (n : Nat) :
    numberedAll (p ++ q) n =
      ((numberedAll p n).1 ++ (numberedAll q (numberedAll p n).2).1,
        (numberedAll q (numberedAll p n).2).2) := by
  induction p generalizing n with
  | nil => rfl
  | cons s p ih => simp only [List.cons_append, numberedAll, ih]

namespace Report

/-- The report of a program that ended, with the machine. -/
def ofEnd (diagnostics : List ParseError) : EStateM.Result Stop Machine Held → Report × Machine
  | .ok value m => (⟨value, none, diagnostics⟩, m)
  | .error stop m => (⟨none, some (.stop stop), diagnostics⟩, m)

/-- A report that goes on from a value: the value counts if the report has none. -/
def after (value : Held) (r : Report) : Report :=
  match r.error with
  | none => { r with value := r.value.or value }
  | some _ => r

theorem ofEnd_or (diagnostics : List ParseError) (last : Held)
    (r : EStateM.Result Stop Machine Held) :
    ofEnd diagnostics (mapEnd (·.or last) id id r) =
      ((ofEnd diagnostics r).1.after last, (ofEnd diagnostics r).2) := by
  cases r <;> rfl

end Report

namespace Machine

variable {fuel : Nat} {m m' : Machine} {program program' : List Stmt}

theorem interpretWith_eq (fuel : Nat) (m : Machine) (program : List Stmt)
    (diagnostics : List ParseError) :
    m.interpretWith fuel program diagnostics = Report.ofEnd diagnostics
      (Eval.interpret fuel (m.load program).1 none (m.load program).2) := by
  unfold interpretWith Report.ofEnd
  rfl

/-- Whether all statements of a program end normally: none fails, and none returns. -/
def completes (fuel : Nat) (m : Machine) (program : List Stmt) : Bool :=
  Eval.completes fuel (m.load program).1 (m.load program).2

theorem load_append (m : Machine) (program later : List Stmt) :
    m.load (program ++ later) =
      ((m.load program).1 ++ ((m.load program).2.load later).1,
        ((m.load program).2.load later).2) := by
  simp only [load, numberedAll_append]

/-- **Programs in two parts.** If the first part completes, the second one goes on from its machine
and from its value. -/
theorem interpretWith_append (h : m.completes fuel program = true) :
    ∃ value m', m.interpretWith fuel program [] = (⟨value, none, []⟩, m') ∧
      ∀ later, m.interpretWith fuel (program ++ later) [] =
        ((m'.interpretWith fuel later []).1.after value, (m'.interpretWith fuel later []).2) := by
  obtain ⟨value, m', hfirst, hlater⟩ := Eval.interpret_append h none
  refine ⟨value, m', by rw [interpretWith_eq, hfirst]; rfl, fun later => ?_⟩
  have hsite : m'.nextSite = (m.load program).2.nextSite := by
    have hkept : Eval.interpret fuel (m.load program).1 none (m.load program).2 = _ :=
      Eval.interpret_site fuel _ none (m.load program).2 (m.load program).2.nextSite
    rw [hfirst] at hkept
    injection hkept with _ hm
    rw [hm]
  have hlast : ((m.load program).2.load later).2.nextSite = (m'.load later).2.nextSite := by
    simp only [load, hsite]
  have hlater' : ((m.load program).2.load later).1 = (m'.load later).1 := by
    simp only [load, hsite]
  rw [interpretWith_eq, interpretWith_eq, ← Report.ofEnd_or, ← Eval.interpret_last, load_append]
  congr 1
  -- In one run, the number that follows both parts is set before the first part starts.
  calc Eval.interpret fuel ((m.load program).1 ++ ((m.load program).2.load later).1) none
        { (m.load program).2 with nextSite := ((m.load program).2.load later).2.nextSite }
      = mapEnd id id (fun m => { m with nextSite := (m'.load later).2.nextSite })
          (Eval.interpret fuel (m'.load later).1 value m') := by
        rw [Eval.interpret_site, hlater, hlast, hlater']
    _ = Eval.interpret fuel (m'.load later).1 value
          { m' with nextSite := (m'.load later).2.nextSite } :=
        (Eval.interpret_site ..).symm

end Machine

/-! ## Runs that are alike -/

/-- Failures for the same reason whose tokens stand for each other. -/
inductive RunError.Like (L : Likeness) : RunError → RunError → Prop where
  | scan {error : ScanError} : Like L (.scan error) (.scan error)
  | parse {errors : List ParseError} : Like L (.parse errors) (.parse errors)
  | stop {stop stop' : Stop} (h : stop.Like L stop') : Like L (.stop stop) (.stop stop')

/-- Reports of the same value, or of failures that are alike. -/
structure Report.Like (L : Likeness) (r r' : Report) : Prop where
  value : r'.value = r.value
  error : Option.Rel (RunError.Like L) r.error r'.error
  diagnostics : r'.diagnostics = r.diagnostics

theorem Report.Like.after {L : Likeness} {r r' : Report} (h : r.Like L r') (last : Held) :
    (r.after last).Like L (r'.after last) := by
  obtain ⟨value, error, diagnostics⟩ := r
  obtain ⟨value', error', diagnostics'⟩ := r'
  obtain ⟨hvalue, herror, hdiagnostics⟩ := h
  cases herror with
  | none => exact ⟨congrArg (·.or last) hvalue, .none, hdiagnostics⟩
  | some h => exact ⟨hvalue, .some h, hdiagnostics⟩

/-- What is compared if only the tokens differ. -/
def Pairing.tokensOnly (L : Likeness) (m : Machine) : Pairing :=
  ⟨L, m.maxDepth, m.maxDepth, by omega, m.nextSite, m.nextSite⟩

namespace Machine

variable {fuel : Nat} {m m' : Machine} {program program' : List Stmt} {L : Likeness}

/-- Machines that differ in the tokens of their function bodies only. -/
def Alike (L : Likeness) (m m' : Machine) : Prop :=
  m.Like (.tokensOnly L m) m'

theorem Alike.load (h : m.Alike L m') (hp : LikeStmts L program program') :
    LikeStmts L (m.load program).1 (m'.load program').1 ∧
      (m.load program).2.Alike L (m'.load program').2 := by
  have hsite : m'.nextSite = m.nextSite := h.site'
  obtain ⟨hlike, hnext⟩ := likeStmts_numbered m.nextSite hp
  unfold Machine.load
  rw [hsite]
  exact ⟨hlike, { h with site := rfl, site' := hnext }⟩

/-- Programs that are alike, on machines that are alike, are reported alike. -/
theorem interpretWith_like (fuel : Nat) (h : m.Alike L m') (hp : LikeStmts L program program')
    (diagnostics : List ParseError) :
    (m.interpretWith fuel program diagnostics).1.Like L
        (m'.interpretWith fuel program' diagnostics).1 ∧
      (m.interpretWith fuel program diagnostics).2.Alike L
        (m'.interpretWith fuel program' diagnostics).2 := by
  obtain ⟨hlike, hload⟩ := h.load hp
  have htwins := Eval.interpret_twin fuel hlike none _ _ hload
  rw [interpretWith_eq, interpretWith_eq]
  generalize Eval.interpret fuel (m.load program).1 none (m.load program).2 = r at htwins
  generalize Eval.interpret fuel (m'.load program').1 none (m'.load program').2 = r' at htwins
  have hsame : ∀ {a a' : Machine}, a.Like (.tokensOnly L (m.load program).2) a' → a.Alike L a' := by
    intro a a' ha
    have hlimit : a.maxDepth = (m.load program).2.maxDepth := ha.limit
    have hsite : a.nextSite = (m.load program).2.nextSite := ha.site
    unfold Alike Pairing.tokensOnly
    simp only [hlimit, hsite]
    exact ha
  cases htwins with
  | ok hm => exact ⟨⟨rfl, .none, rfl⟩, hsame hm⟩
  | error hs hm => exact ⟨⟨rfl, .some (.stop hs), rfl⟩, hsame hm⟩
  | refused _ hlimit => exact absurd rfl hlimit

end Machine

/-! ## Two sources, one after the other -/

theorem Accepted.runWith {source : Text} {program : List Stmt} (h : Accepted source program)
    (fuel : Nat) (m : Machine) : m.runWith fuel source = m.interpretWith fuel program [] := by
  have htokens : tokenize source = ((tokenize source).1, none) := Prod.ext rfl h.scanned
  unfold Machine.runWith
  rw [htokens]
  simp only [h.parsed, List.isEmpty_nil, Bool.not_true, Bool.and_false, Bool.false_eq_true,
    if_false]

/-- How tokens move if a source is run after another one: those of code that is in the store already
stay where they are, those of the source stand further down. -/
def Likeness.lowered (store : Store) (source : Text) (rows : Nat) : Likeness where
  Same t t' :=
    (∃ id f, store.function? id = some f ∧ t ∈ f.code.tokens) ∧ t' = t ∨
      t ∈ Event.tokens (scan source) ∧ t' = t.down rows
  kind := by
    rintro t t' (⟨-, rfl⟩ | ⟨-, rfl⟩) <;> rfl
  lexeme := by
    rintro t t' (⟨-, rfl⟩ | ⟨-, rfl⟩) <;> rfl
  value := by
    rintro t t' (⟨-, rfl⟩ | ⟨-, rfl⟩) <;> rfl

theorem Machine.alike_lowered (m : Machine) (source : Text) (rows : Nat) :
    m.Alike (.lowered m.store source rows) m :=
  ⟨rfl, rfl, Store.like_self fun id f hf _ ht => .inl ⟨⟨id, f, hf, ht⟩, rfl⟩, rfl, rfl, rfl, rfl,
    rfl, rfl, rfl⟩

/-- All tokens stand further down. -/
def Likeness.moved (rows : Nat) : Likeness where
  Same t t' := t' = t.down rows
  kind h := by rw [h]; rfl
  lexeme h := by rw [h]; rfl
  value h := by rw [h]; rfl

/-- **Line by line.** Let two sources be read without errors, and let the statements of the first
end normally. Then the source that has both, with a newline between them, does what the second
source does after the first: it leaves the same frames, heap and output, and it reports the same
failure, or the value of the second source if there is one and else that of the first. Only tokens
of the second source stand further down, in function bodies and in the failure; tokens of code that
was there before stay. So the whole ends exactly as the second source would after the first if it
were read with all its tokens further down. -/
theorem Machine.lineByLine_agrees {fuel : Nat} {m : Machine} {source source' : Text}
    {program program' : List Stmt} (h : Accepted source program) (h' : Accepted source' program')
    (hcompletes : m.completes fuel program = true) :
    let rows := source.count Text.newline + 1
    let first := m.runWith fuel source
    let second := first.2.runWith fuel source'
    let whole := m.runWith fuel (source ++ Text.newline :: source')
    let L := Likeness.lowered first.2.store source' rows
    first.1.error = none ∧ (second.1.after first.1.value).Like L whole.1 ∧
      second.2.Alike L whole.2 ∧
      ∃ program'', LikeStmts (.moved rows) program' program'' ∧
        let resumed := first.2.interpretWith fuel program'' []
        whole = (resumed.1.after first.1.value, resumed.2) := by
  intro rows first second whole L
  obtain ⟨value, m₁, hrun, hlater⟩ := interpretWith_append hcompletes
  have hfirst : first = (⟨value, none, []⟩, m₁) := (h.runWith fuel m).trans hrun
  have hsecond : second = first.2.interpretWith fuel program' [] := h'.runWith fuel first.2
  obtain ⟨program'', hboth, hmoved⟩ := h.append_newline (L := .moved rows) h' fun _ _ => rfl
  have hwhole : whole = ((first.2.interpretWith fuel program'' []).1.after first.1.value,
      (first.2.interpretWith fuel program'' []).2) := by
    rw [hfirst]
    exact (hboth.runWith fuel m).trans (hlater program'')
  have hlike : LikeStmts L program' program'' := by
    obtain ⟨_, hboth', hlike⟩ := h.append_newline (L := L) h' fun t ht => .inr ⟨ht, rfl⟩
    rwa [List.append_cancel_left (hboth'.unique hboth)] at hlike
  obtain ⟨hreport, hmachine⟩ := interpretWith_like fuel (first.2.alike_lowered source' _) hlike []
  rw [hsecond]
  refine ⟨by rw [hfirst], ?_, ?_, program'', hmoved, hwhole⟩
  · rw [hwhole]
    exact hreport.after _
  · rw [hwhole]
    exact hmachine

/-- The token of a failure. -/
def Report.token? (r : Report) : Option Token :=
  match r.error with
  | some (.stop (.fault e)) => e.token
  | _ => none

/-- A function of the first source is called by the second one, and its argument is undefined: the
failure is reported two rows further down. -/
theorem Machine.lineByLine_agrees_undefined :
    let source : Text := "fun f(x) \x7b return x; \x7d\n\"v\";"
    let source' : Text := "print(f(\"w\")); /* 1 */\nf(nope);"
    let program := (parseProgram (tokenize source).1).statements
    let program' := (parseProgram (tokenize source').1).statements
    let rows := source.count Text.newline + 1
    let first := new.runWith 20 source
    let second := first.2.runWith 20 source'
    let whole := new.runWith 20 (source ++ Text.newline :: source')
    Accepted source program ∧ Accepted source' program' ∧ new.completes 20 program = true ∧
      second.1.token?.map Token.position = some ⟨2, 3⟩ ∧
      whole.1.token?.map Token.position = some ⟨4, 3⟩ ∧
      (second.1.after first.1.value).Like (.lowered first.2.store source' rows) whole.1 := by
  intro source source' program program' rows first second whole
  have h : Accepted source program := .of_isEmpty (by decide +kernel) (by decide +kernel)
  have h' : Accepted source' program' := .of_isEmpty (by decide +kernel) (by decide +kernel)
  have hcompletes : new.completes 20 program = true := by decide +kernel
  refine ⟨h, h', hcompletes, by decide +kernel, by decide +kernel, ?_⟩
  exact (lineByLine_agrees h h' hcompletes).2.1

/-- Not every failure is reported further down: a token of the first source stays where it is, also
if the second source calls the function in which it stands. -/
theorem Machine.row_kept_in_earlier_code :
    let source : Text := "fun f() \x7b return nope; \x7d"
    let source' : Text := "f();"
    let program := (parseProgram (tokenize source).1).statements
    let program' := (parseProgram (tokenize source').1).statements
    let second := (new.run source).2.run source'
    let whole := new.run (source ++ Text.newline :: source')
    Accepted source program ∧ Accepted source' program' ∧
      new.completes ampleFuel program = true ∧
      second.1.token?.map Token.position = some ⟨1, 18⟩ ∧
      whole.1.token? ≠ second.1.token?.map (Token.down (source.count Text.newline + 1)) := by
  intro source source' program program' second whole
  have h : Accepted source program := .of_isEmpty (by decide +kernel) (by decide +kernel)
  have h' : Accepted source' program' := .of_isEmpty (by decide +kernel) (by decide +kernel)
  exact ⟨h, h', by decide +kernel, by decide +kernel, by decide +kernel⟩

end Dynascope
