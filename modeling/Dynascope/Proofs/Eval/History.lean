import Dynascope.Eval.Run
import Dynascope.Proofs.Outcome

/-!
# Histories of a machine

A machine is set up once and then runs sources and programs, one after the other. Between two runs
the output may change: a run ends at its first write that fails, so the number of writes that
succeed from its start on says all about the output that matters to it.

* `Machine.configured`: a new machine with limits for the calls, set one after the other.
* `Turn`, `Machine.perform`, `Machine.after`: the turns of a history and where they lead.
* `Machine.runWith_cases`: what becomes of a source.
* `Machine.rel_perform`: what every interpretation keeps, every turn keeps.
-/

namespace Dynascope

/-- A turn in the history of a machine, with the fuel for its run. -/
inductive Turn where
  /-- A source is run. -/
  | run (fuel : Nat) (source : Text)
  /-- A program is run that may be made by hand. -/
  | interpret (fuel : Nat) (program : List Stmt)
  /-- From now on so many writes succeed; none for all. -/
  | output (writesLeft : Option Nat)

namespace Machine

/-- A new machine on which limits for the active calls are set, one after the other. -/
def configured (limits : List Int) : Machine :=
  limits.foldl limitDepth new

/-- The machine after a turn. -/
def perform (m : Machine) : Turn → Machine
  | .run fuel source => (m.runWith fuel source).2
  | .interpret fuel program => (m.interpretWith fuel program []).2
  | .output writesLeft => { m with writesLeft := writesLeft }

/-- The machine after some turns. -/
def after (m : Machine) (turns : List Turn) : Machine :=
  turns.foldl perform m

theorem after_append (m : Machine) (turns later : List Turn) :
    m.after (turns ++ later) = (m.after turns).after later :=
  List.foldl_append ..

/-- A source that cannot be read leaves the machine alone; else its program is run. -/
theorem runWith_cases (fuel : Nat) (m : Machine) (source : Text) :
    (∃ report, m.runWith fuel source = (report, m) ∧ ∀ stop, report.error ≠ some (.stop stop)) ∨
      m.runWith fuel source = m.interpretWith fuel (parseProgram (tokenize source).1).statements
        (parseProgram (tokenize source).1).errors := by
  unfold runWith
  split
  next tokens e _ => exact .inl ⟨⟨none, some (.scan e), []⟩, rfl, fun stop => by simp⟩
  next tokens ht =>
    rw [ht]
    simp only
    split
    · exact .inl ⟨_, rfl, fun stop => by simp⟩
    · exact .inr rfl

/-- A relation between machines that numbering a program, interpreting it and a change of the output
keep is kept by every turn. -/
theorem rel_perform {R : Machine → Machine → Prop} [Std.Refl R] [Trans R R R]
    (hload : ∀ m next, R m { m with nextSite := next })
    (houtput : ∀ m writesLeft, R m { m with writesLeft := writesLeft })
    (hinterpret : ∀ fuel program, Along R (Eval.interpret fuel program none))
    (m : Machine) (turn : Turn) : R m (m.perform turn) := by
  have hprogram : ∀ fuel program diagnostics,
      R m (m.interpretWith fuel program diagnostics).2 := by
    intro fuel program diagnostics
    have hrun := hinterpret fuel (m.load program).1 (m.load program).2
    have hfirst : R m (m.load program).2 := hload m _
    unfold interpretWith
    simp only
    split
    next value m' hr => rw [hr] at hrun; exact Trans.trans hfirst hrun
    next stop m' hr => rw [hr] at hrun; exact Trans.trans hfirst hrun
  cases turn with
  | run fuel source =>
    show R m (m.runWith fuel source).2
    rcases runWith_cases fuel m source with ⟨report, hr, -⟩ | hr
    · rw [hr]
      exact Std.Refl.refl m
    · rw [hr]
      exact hprogram _ _ _
  | interpret fuel program => exact hprogram _ _ _
  | output writesLeft => exact houtput m writesLeft

/-- Setting limits changes nothing else. -/
theorem configured_eq (limits : List Int) :
    ∃ maxDepth, configured limits = { new with maxDepth := maxDepth } := by
  have h : ∀ maxDepth : Nat, ∃ k, limits.foldl limitDepth { new with maxDepth := maxDepth } =
      { new with maxDepth := k } := by
    induction limits with
    | nil => exact fun maxDepth => ⟨maxDepth, rfl⟩
    | cons limit rest ih =>
      intro maxDepth
      rw [List.foldl_cons]
      unfold limitDepth
      split
      · exact ih _
      · exact ih maxDepth
  exact h new.maxDepth

end Machine

end Dynascope
