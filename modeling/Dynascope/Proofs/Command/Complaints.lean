import Dynascope.Command.Script
import Dynascope.Proofs.Eval.Safety
import Dynascope.Proofs.Eval.Writes

/-!
# What a script is told

* `Report.Of source report`: what a run of a source can come to.
* `scriptMachine`: the machine on which a script is run, with an output that takes so many writes.
* `Report.occurred`: the texts about all errors of a run, in the order in which they occurred.
* `runScriptOn_tells`: how the exit code and the messages depend on the run. All errors are told
  once and in their order, and an exit code that blames the source is right about it, as long as no
  write fails.
* `runScriptOn_blames_source`: after a failed write the source is blamed, or nothing is said.
-/

namespace Dynascope

/-- The source cannot be scanned, or a part of it cannot be parsed. -/
def Misspelled (source : Text) : Prop :=
  (tokenize source).2 ≠ none ∨ (parseProgram (tokenize source).1).errors ≠ []

/-- What a run of a source can come to: it cannot be scanned, nothing of it can be parsed, or what
can be parsed is run. -/
inductive Report.Of (source : Text) : Report → Prop where
  | scanned {e : ScanError} (hscan : (tokenize source).2 = some e) :
    Of source ⟨none, some (.scan e), []⟩
  | parsed {errors : List ParseError} (h : (parseProgram (tokenize source).1).errors = errors)
      (hne : errors ≠ []) :
    Of source ⟨none, some (.parse errors), errors⟩
  | ended {errors : List ParseError} (value : Held) (hscan : (tokenize source).2 = none)
      (h : (parseProgram (tokenize source).1).errors = errors) :
    Of source ⟨value, none, errors⟩
  | stopped {errors : List ParseError} (stop : Stop) (hscan : (tokenize source).2 = none)
      (h : (parseProgram (tokenize source).1).errors = errors) :
    Of source ⟨none, some (.stop stop), errors⟩

theorem Machine.runWith_of (fuel : Nat) (m : Machine) (source : Text) :
    Report.Of source (m.runWith fuel source).1 := by
  unfold runWith
  split
  next tokens e ht =>
    have herror : (tokenize source).2 = some e := by rw [ht]
    exact .scanned herror
  next tokens ht =>
    have hscan : (tokenize source).2 = none := by rw [ht]
    obtain rfl : (tokenize source).1 = tokens := by rw [ht]
    dsimp only
    split
    next hparse =>
      rw [Bool.and_eq_true] at hparse
      exact .parsed rfl (by simpa using hparse.2)
    next =>
      unfold interpretWith
      dsimp only
      split
      next value m' _ => exact .ended value hscan rfl
      next stop m' _ => exact .stopped stop hscan rfl

/-- The texts about all errors of a run, in the order in which they occurred: those about the parse
errors, and the one about the error that ended it. If nothing could be parsed, the parse errors are
what ended the run. -/
def Report.occurred (s : Store) (r : Report) : List Text :=
  r.diagnostics.map ParseError.message ++
    match r.error with
    | some (.scan e) => [e.message]
    | some (.stop stop) => [(RunError.stop stop).message s]
    | _ => []

/-- Whether the run ended with a failed write. -/
def Report.failedToWrite (r : Report) : Bool :=
  match r.error with
  | some (.stop .writeFailed) => true
  | _ => false

theorem Report.failedToWrite_iff {r : Report} :
    r.failedToWrite = true ↔ r.error = some (.stop .writeFailed) := by
  unfold failedToWrite
  split
  next h => exact ⟨fun _ => h, fun _ => rfl⟩
  next h => exact ⟨nofun, fun hfailed => absurd hfailed h⟩

/-! ## Exit codes and messages of a report -/

theorem ExitCode.number_inj {c d : ExitCode} : c.number = d.number ↔ c = d := by
  cases c <;> cases d <;> decide

namespace Report

variable {source : Text} {r : Report}

theorem exitCode_eq_success : r.exitCode = .success ↔ r.error = none ∧ r.diagnostics = [] := by
  unfold exitCode
  split
  next he => simp [he]
  next he => simp [he]
  next he => simp [he]

theorem exitCode_eq_software : r.exitCode = .software ↔ ∃ e, r.error = some (.stop (.fault e)) := by
  unfold exitCode
  split
  next e he => exact ⟨fun _ => ⟨e, he⟩, fun _ => rfl⟩
  next e hne he =>
    refine ⟨nofun, ?_⟩
    rintro ⟨fault, hfault⟩
    exact (hne fault (Option.some.inj (he.symm.trans hfault))).elim
  next he =>
    refine ⟨fun h => ?_, fun ⟨fault, hfault⟩ => nomatch he.symm.trans hfault⟩
    split at h <;> cases h

/-- The source is blamed if there is no fault, and it is misspelled or a write failed. -/
theorem Of.exitCode_eq_dataError (h : Of source r) (hproper : r.Proper)
    (hends : r.error ≠ some (.stop .outOfFuel)) : r.exitCode = .dataError ↔
      (∀ e, r.error ≠ some (.stop (.fault e))) ∧
        (Misspelled source ∨ r.error = some (.stop .writeFailed)) := by
  cases h with
  | scanned hscan =>
    have hmisspelled : Misspelled source := .inl (by rw [hscan]; nofun)
    exact ⟨fun _ => ⟨fun _ h => (nomatch h), .inl hmisspelled⟩, fun _ => rfl⟩
  | parsed h hne =>
    have hmisspelled : Misspelled source := .inr (by rw [h]; exact hne)
    exact ⟨fun _ => ⟨fun _ h => (nomatch h), .inl hmisspelled⟩, fun _ => rfl⟩
  | @ended errors value hscan h =>
    have hmisspelled : Misspelled source ↔ errors ≠ [] := by
      rw [Misspelled, hscan, h]
      exact ⟨fun hor => hor.resolve_left (· rfl), .inr⟩
    rw [hmisspelled]
    cases errors with
    | nil => exact ⟨nofun, fun ⟨_, hor⟩ => hor.elim (absurd rfl) nofun⟩
    | cons e errors =>
      exact ⟨fun _ => ⟨fun _ h => (nomatch h), .inl (List.cons_ne_nil _ _)⟩, fun _ => rfl⟩
  | stopped stop hscan h =>
    cases stop with
    | fault e => exact ⟨nofun, fun hnone => absurd rfl (hnone.1 e)⟩
    | writeFailed => exact ⟨fun _ => ⟨fun _ h => (nomatch h), .inr rfl⟩, fun _ => rfl⟩
    | outOfFuel => exact absurd rfl hends
    | emptyName => exact hproper.elim
    | missingArgument => exact hproper.elim
    | missingPart => exact hproper.elim

/-- All errors are told, once and in their order, unless a write failed after a parse error. -/
theorem Of.complaints_eq_occurred (h : Of source r) (hproper : r.Proper)
    (hends : r.error ≠ some (.stop .outOfFuel))
    (htold : r.error ≠ some (.stop .writeFailed) ∨ r.diagnostics = []) (s : Store) :
    r.complaints s = r.occurred s := by
  cases h with
  | scanned hscan => rfl
  | @parsed errors h hne =>
    have hempty : errors.isEmpty = false := by simpa using hne
    simp [complaints, lastWords, occurred, hempty]
  | ended value hscan h => rfl
  | stopped stop hscan h =>
    cases stop with
    | fault e => rfl
    | writeFailed =>
      obtain rfl := htold.resolve_left (· rfl)
      rfl
    | outOfFuel => exact absurd rfl hends
    | emptyName => exact hproper.elim
    | missingArgument => exact hproper.elim
    | missingPart => exact hproper.elim

/-- A write that failed after a parse error is not told. -/
theorem complaints_of_writeFailed (hfailed : r.error = some (.stop .writeFailed))
    (hparse : r.diagnostics ≠ []) (s : Store) :
    r.complaints s = r.diagnostics.map ParseError.message := by
  have hempty : r.diagnostics.isEmpty = false := by simpa using hparse
  simp [complaints, lastWords, hfailed, hempty]

end Report

/-! ## Scripts -/

/-- A new machine under the settings with an output that takes so many writes; all if `none`. -/
def scriptMachine (settings : Settings) (writes : Option Nat) : Machine :=
  { Machine.new.limitDepth settings.maxDepth with writesLeft := writes }

theorem scriptMachine_sound (settings : Settings) (writes : Option Nat) :
    (scriptMachine settings writes).Sound := by
  have hsound := Machine.sound_configured [settings.maxDepth]
  exact ⟨hsound.frames, hsound.fields, hsound.functions⟩

theorem scriptMachine_eq (settings : Settings) (writes : Option Nat) :
    scriptMachine settings writes =
      { Machine.new with maxDepth := settings.maxDepth, writesLeft := writes } := by
  have hdepth : (0 : Int) ≤ settings.maxDepth := Int.natCast_nonneg _
  rw [scriptMachine, Machine.limitDepth, if_pos hdepth]
  rfl

theorem scriptMachine_capacity (settings : Settings) (writes : Option Nat) :
    (scriptMachine settings writes).capacity = writes := by
  rw [scriptMachine_eq]
  cases writes with
  | none => rfl
  | some n => exact congrArg some (Nat.zero_add n)

theorem runScript_eq (settings : Settings) (colours : Bool) (source : Text) :
    runScript settings colours source =
      runScriptOn (colours && settings.color) (scriptMachine settings none) source := by
  have hdepth : (0 : Int) ≤ settings.maxDepth := Int.natCast_nonneg _
  rw [runScript, scriptMachine_eq, Machine.limitDepth, if_pos hdepth]
  rfl

/-- What a script is told about its run. -/
theorem runScriptOn_eq (coloured : Bool) (m : Machine) (source : Text) :
    runScriptOn coloured m source = scriptOutcome coloured (m.run source).1 (m.run source).2 :=
  rfl

/-- **What a script is told.** For a script that comes to its end, the exit code is 0 exactly if the
run had no error and no parse error, and 70 exactly if it ended with a fault. It is 65 exactly if
there was no fault, and the source is misspelled or a write failed, for which the output must take
no more. Unless a write failed after a parse error, all errors are told once and in their order; if
one did, it is left out. -/
theorem runScriptOn_tells (settings : Settings) (colours : Bool) (writes : Option Nat)
    (source : Text)
    (hends : ((scriptMachine settings writes).run source).1.error ≠ some (.stop .outOfFuel)) :
    let run := (scriptMachine settings writes).run source
    let coloured := colours && settings.color
    let outcome := runScriptOn coloured (scriptMachine settings writes) source
    (writes = none → outcome = runScript settings colours source) ∧
    (outcome.code.number = 0 ↔ run.1.error = none ∧ run.1.diagnostics = []) ∧
    (outcome.code.number = 70 ↔ ∃ e, run.1.error = some (.stop (.fault e))) ∧
    (outcome.code.number = 65 ↔ (∀ e, run.1.error ≠ some (.stop (.fault e))) ∧
      (Misspelled source ∨ run.1.error = some (.stop .writeFailed))) ∧
    (run.1.error = some (.stop .writeFailed) → writes = some run.2.written.size) ∧
    (run.1.error ≠ some (.stop .writeFailed) ∨ run.1.diagnostics = [] →
      outcome.errors = (run.1.occurred run.2.store).flatMap (redLine coloured)) ∧
    (run.1.error = some (.stop .writeFailed) → run.1.diagnostics ≠ [] →
      outcome.errors = (run.1.diagnostics.map ParseError.message).flatMap (redLine coloured)) := by
  have hof : Report.Of source ((scriptMachine settings writes).run source).1 :=
    Machine.runWith_of ampleFuel _ source
  have hproper : ((scriptMachine settings writes).run source).1.Proper :=
    ((scriptMachine_sound settings writes).runWith ampleFuel source).2
  have hwritten : ∀ report m', (scriptMachine settings writes).run source = (report, m') →
      report.error = some (.stop .writeFailed) → writes = some m'.written.size := by
    intro report m' hrun hfailed
    rw [← scriptMachine_capacity settings writes]
    exact Machine.written_of_writeFailed hrun hfailed
  intro run coloured outcome
  have houtcome : outcome = scriptOutcome coloured run.1 run.2 := runScriptOn_eq _ _ _
  rw [houtcome]
  refine ⟨?_, ?_, ?_, ?_, hwritten run.1 run.2 rfl, fun htold => ?_, fun hfailed hparse => ?_⟩
  · rintro rfl
    rw [← houtcome, runScript_eq]
  · exact (ExitCode.number_inj (d := .success)).trans Report.exitCode_eq_success
  · exact (ExitCode.number_inj (d := .software)).trans Report.exitCode_eq_software
  · exact (ExitCode.number_inj (d := .dataError)).trans (hof.exitCode_eq_dataError hproper hends)
  · rw [scriptOutcome, hof.complaints_eq_occurred hproper hends htold]
  · rw [scriptOutcome, Report.complaints_of_writeFailed hfailed hparse]

/-- An output that takes one write: the second one fails, behind a statement that cannot be read. -/
theorem runScriptOn_tells_oneWrite :
    let m := scriptMachine {} (some 1)
    (m.run "print(1); var = 2; print(3);").1.error ≠ some (.stop .outOfFuel) ∧
      (runScriptOn true m "print(1); var = 2; print(3);").code.number = 65 ∧
      (runScriptOn true m "print(1); var = 2; print(3);").errors =
        redLine true "[1:15] Error: 'identifier' expected\n=" := by
  intro m
  have hfailed : (m.run "print(1); var = 2; print(3);").1.error = some (.stop .writeFailed) :=
    Report.failedToWrite_iff.mp (by decide +kernel)
  have hends : (m.run "print(1); var = 2; print(3);").1.error ≠ some (.stop .outOfFuel) := by
    rw [hfailed]
    nofun
  have hdiagnostics : (m.run "print(1); var = 2; print(3);").1.diagnostics.map ParseError.message =
      [Text.ofString "[1:15] Error: 'identifier' expected\n="] := by
    decide +kernel
  obtain ⟨-, -, -, hdata, -, -, hsilent⟩ := runScriptOn_tells {} true (some 1) _ hends
  refine ⟨hends, hdata.mpr ⟨?_, .inr hfailed⟩, ?_⟩
  · rw [hfailed]
    exact fun _ => nofun
  · refine (hsilent hfailed fun hnone => ?_).trans ?_
    · rw [hnone] at hdiagnostics
      cases hdiagnostics
    · rw [hdiagnostics]
      rfl

/-- With an output that takes nothing, a script without errors is blamed for the failed write. If
the script has a parse error, nothing is said about the failed write, which ended the run. -/
theorem runScriptOn_blames_source :
    let m := scriptMachine {} (some 0)
    ((m.run "print(1);").1.error = some (.stop .writeFailed) ∧ ¬ Misspelled "print(1);" ∧
      (runScriptOn true m "print(1);").code.number = 65) ∧
    ((m.run "print(1); var = 2;").1.error = some (.stop .writeFailed) ∧
      (runScriptOn true m "print(1); var = 2;").errors =
        redLine true "[1:15] Error: 'identifier' expected\n=") := by
  intro m
  refine ⟨⟨Report.failedToWrite_iff.mp (by decide +kernel), ?_, by decide +kernel⟩,
    Report.failedToWrite_iff.mp (by decide +kernel), by decide +kernel⟩
  rintro (hscan | hparse)
  · exact hscan (Option.isNone_iff_eq_none.mp (by decide +kernel))
  · exact hparse (List.isEmpty_iff.mp (by decide +kernel))

end Dynascope
