import Dynascope.Proofs.Eval.LineByLine
import Dynascope.Proofs.Tree.StmtInStep

/-!
# Layout

Blanks and comments decide where tokens stand and nothing else. Two sources with the same tokens, up
to their positions, do the same on machines that are the same, up to positions.

* `Likeness.layout`: tokens that differ at most in their positions stand for each other.
* `ParseError.Like`, `Report.Matches`: errors and reports that are the same up to tokens.
* `parseProgram_like`: lists of tokens that stand for each other give programs that are alike, also
  after errors.
* `Machine.runWith_layout`: runs of two sources that differ in their layout.
-/

namespace Dynascope

open Dynascope.Parser

/-- Tokens that differ at most in their positions stand for each other. -/
def Likeness.layout : Likeness where
  Same t t' := t'.kind = t.kind ∧ t'.lexeme = t.lexeme ∧ t'.value = t.value
  kind h := h.1
  lexeme h := h.2.1
  value h := h.2.2

instance : DecidableRel Likeness.layout.Same := fun t t' =>
  inferInstanceAs (Decidable (t'.kind = t.kind ∧ t'.lexeme = t.lexeme ∧ t'.value = t.value))

/-! ## Programs -/

/-- Parse errors of the same fault whose tokens stand for each other. -/
structure ParseError.Like (L : Likeness) (e e' : ParseError) : Prop where
  fault : e'.fault = e.fault
  token : L.SameIfAny e.token e'.token

/-- Parse errors that are alike, one by one. -/
abbrev LikeErrors (L : Likeness) : List ParseError → List ParseError → Prop :=
  List.Forall₂ (ParseError.Like L)

theorem Failures.like {C : Comparison} (hlast : C.tokens.SameAll C.last C.last')
    {es es' : List ParseError} (h : Failures C es es') : LikeErrors C.tokens es es' := by
  induction h with
  | nil => exact .nil
  | passed hs _ _ _ ih => exact .cons ⟨rfl, .some hs⟩ ih
  | @ended fault _ =>
    have hbefore : ParseError.Like C.tokens (fault.before C.last) (fault.before C.last') := by
      revert hlast
      generalize C.last = last
      generalize C.last' = last'
      intro hlast
      cases hlast with
      | nil => exact ⟨rfl, .none⟩
      | cons hs _ => exact ⟨rfl, .some hs⟩
    exact .cons hbefore .nil

/-- Lists of tokens that stand for each other end at the same place. -/
theorem exists_abreast {L : Likeness} {ts ts' : List Token} (h : L.SameAll ts ts') :
    ∃ C : Comparison, C.tokens = L ∧ C.tokens.SameAll C.last C.last' ∧ ∃ k, Abreast C k ts ts' := by
  induction h with
  | nil => exact ⟨⟨L, [], [], rfl, rfl⟩, rfl, .nil, 0, .ended⟩
  | @cons t t' ts ts' hs h ih =>
    by_cases ht : t.kind = .endOfInput
    · have hend : atEnd (t :: ts) = true := atEnd_cons.mpr ht
      have hend' : atEnd (t' :: ts') = true := atEnd_cons.mpr ((L.kind hs).trans ht)
      exact ⟨⟨L, t :: ts, t' :: ts', hend, hend'⟩, rfl, .cons hs h, 0, .ended⟩
    · obtain ⟨C, rfl, hlast, k, habreast⟩ := ih
      exact ⟨C, rfl, hlast, k + 1, .cons hs ht habreast⟩

/-- **Programs up to tokens.** Lists of tokens that stand for each other give statements and errors
that are alike. -/
theorem parseProgram_like {L : Likeness} {ts ts' : List Token} (h : L.SameAll ts ts') :
    LikeStmts L (parseProgram ts).statements (parseProgram ts').statements ∧
      LikeErrors L (parseProgram ts).errors (parseProgram ts').errors := by
  obtain ⟨C, rfl, hlast, k, habreast⟩ := exists_abreast h
  have hparsed := parseProgram_abreast habreast
  exact ⟨hparsed.statements, hparsed.errors.like hlast⟩

/-! ## Runs -/

/-- Failures for the same reason, at tokens that stand for each other. -/
inductive RunError.Matches (L : Likeness) : RunError → RunError → Prop where
  | scan {error : ScanError} : Matches L (.scan error) (.scan error)
  | parse {errors errors' : List ParseError} (h : LikeErrors L errors errors') :
    Matches L (.parse errors) (.parse errors')
  | stop {stop stop' : Stop} (h : stop.Like L stop') : Matches L (.stop stop) (.stop stop')

/-- Reports of the same value, or of failures that match, with errors met on the way that are
alike. -/
structure Report.Matches (L : Likeness) (r r' : Report) : Prop where
  value : r'.value = r.value
  error : Option.Rel (RunError.Matches L) r.error r'.error
  diagnostics : LikeErrors L r.diagnostics r'.diagnostics

namespace Machine

variable {L : Likeness} {m m' : Machine}

/-- Parse errors that were met before are only handed on. -/
theorem interpretWith_matches (fuel : Nat) (h : m.Alike L m') {program program' : List Stmt}
    (hp : LikeStmts L program program') {es es' : List ParseError} (hes : LikeErrors L es es') :
    (m.interpretWith fuel program es).1.Matches L (m'.interpretWith fuel program' es').1 ∧
      (m.interpretWith fuel program es).2.Alike L (m'.interpretWith fuel program' es').2 := by
  obtain ⟨hreport, hmachine⟩ := interpretWith_like fuel h hp []
  rw [interpretWith_eq, interpretWith_eq] at hreport hmachine ⊢
  generalize Eval.interpret fuel (m.load program).1 none (m.load program).2 = r at *
  generalize Eval.interpret fuel (m'.load program').1 none (m'.load program').2 = r' at *
  obtain ⟨hvalue, herror, -⟩ := hreport
  cases r with
  | ok value m₁ =>
    cases r' with
    | ok value' m₁' => exact ⟨⟨hvalue, .none, hes⟩, hmachine⟩
    | error stop' m₁' => cases herror
  | error stop m₁ =>
    cases r' with
    | ok value' m₁' => cases herror
    | error stop' m₁' =>
      cases herror with
      | some hs =>
        cases hs with
        | stop hs => exact ⟨⟨rfl, .some (.stop hs), hes⟩, hmachine⟩

/-- A machine is the same as itself up to positions. -/
theorem alike_layout (m : Machine) : m.Alike .layout m :=
  ⟨rfl, rfl, Store.like_self fun _ _ _ _ _ => ⟨rfl, rfl, rfl⟩, rfl, rfl, rfl, rfl, rfl, rfl, rfl⟩

/-- **Layout has no meaning.** Two sources are scanned into tokens that differ at most in their
positions. On machines that differ at most in the positions of tokens, both report the same value or
failure and the same errors met on the way, write the same and leave the same frames and the same
heap. Only positions may differ, in what is reported and in the functions that are left. -/
theorem runWith_layout (fuel : Nat) {source source' : Text} (hscan : (tokenize source).2 = none)
    (hscan' : (tokenize source').2 = none)
    (htokens : Likeness.layout.SameAll (tokenize source).1 (tokenize source').1)
    (hm : m.Alike .layout m') :
    (m.runWith fuel source).1.Matches .layout (m'.runWith fuel source').1 ∧
      (m.runWith fuel source).2.Alike .layout (m'.runWith fuel source').2 := by
  obtain ⟨hstatements, herrors⟩ := parseProgram_like htokens
  have hempty : ∀ {α : Type} {R : α → α → Prop} {as as' : List α}, List.Forall₂ R as as' →
      as'.isEmpty = as.isEmpty := by
    intro α R as as' h
    cases h <;> rfl
  unfold runWith
  rw [show tokenize source = (_, none) from Prod.ext rfl hscan,
    show tokenize source' = (_, none) from Prod.ext rfl hscan']
  dsimp only
  rw [hempty hstatements, hempty herrors]
  split
  · exact ⟨⟨rfl, .some (.parse herrors), herrors⟩, hm⟩
  · exact interpretWith_matches fuel hm hstatements herrors

/-- A function that compares itself, a statement that cannot be read and an undefined name, laid out
in two ways. -/
theorem runWith_layout_undefined :
    let source : Text := "fun f(x) \x7b print(x == f); \x7d = ; f(f); nope;"
    let source' : Text := "fun f (\n x) \x7b print(x==f); \x7d // one\n= ;\n /* two */ f(f);nope;"
    let first := new.runWith 20 source
    let second := new.runWith 20 source'
    (tokenize source).2 = none ∧ (tokenize source').2 = none ∧
      Likeness.layout.SameAll (tokenize source).1 (tokenize source').1 ∧
      first.1.token?.map Token.position = some ⟨1, 39⟩ ∧
      second.1.token?.map Token.position = some ⟨4, 17⟩ ∧
      first.2.output = "true\n" ∧ first.1.Matches .layout second.1 ∧
      first.2.Alike .layout second.2 := by
  intro source source' first second
  have hscan : (tokenize source).2 = none := by decide +kernel
  have hscan' : (tokenize source').2 = none := by decide +kernel
  have htokens : Likeness.layout.SameAll (tokenize source).1 (tokenize source').1 := by
    decide +kernel
  refine ⟨hscan, hscan', htokens, by decide +kernel, by decide +kernel, by decide +kernel, ?_⟩
  exact runWith_layout 20 hscan hscan' htokens new.alike_layout

end Machine

end Dynascope
