import Dynascope.Display.Message
import Dynascope.Eval.Run
import Dynascope.Settings.Basic

/-!
# Scripts

* `ExitCode`: how a command ends.
* `Outcome`: exit code and what was written.
* `runScript`: runs a source to its end. Parse errors are reported, but the statements that could be
  read are run all the same; the first error in the run ends it.
-/

namespace Dynascope

/-- How a command ends. -/
inductive ExitCode where
  | success
  /-- The command line is wrong. -/
  | usage
  /-- The script is wrong. -/
  | dataError
  /-- A file cannot be read. -/
  | noInput
  /-- The script failed while it ran. -/
  | software
  deriving Repr, DecidableEq

/-- The number of an exit code. -/
def ExitCode.number : ExitCode → Nat
  | success => 0
  | usage => 64
  | dataError => 65
  | noInput => 66
  | software => 70

/-- What a command has done. -/
structure Outcome where
  code : ExitCode
  output : Text := []
  errors : Text := []
  deriving Repr, DecidableEq

/-- The exit code for the result of a run. -/
def Report.exitCode (r : Report) : ExitCode :=
  match r.error with
  | some (.stop (.fault _)) => .software
  | some _ => .dataError
  | none => if r.diagnostics.isEmpty then .success else .dataError

/-- The text about the error that ended a run. One that is no fault of the running script is only
told if no parse error was. -/
def Report.lastWords (s : Store) (r : Report) : List Text :=
  match r.error with
  | some (.stop (.fault e)) => [e.message s]
  | some e => if r.diagnostics.isEmpty then [e.message s] else []
  | none => []

/-- The texts about all errors, in the order in which they were met. -/
def Report.complaints (s : Store) (r : Report) : List Text :=
  r.diagnostics.map ParseError.message ++ r.lastWords s

/-- What a run on a machine comes to as a command. -/
def scriptOutcome (coloured : Bool) (r : Report) (m : Machine) : Outcome :=
  { code := r.exitCode
    output := m.output
    errors := (r.complaints m.store).flatMap (redLine coloured) }

/-- Runs a script on a machine. -/
def runScriptOn (coloured : Bool) (m : Machine) (source : Text) : Outcome :=
  let (report, m) := m.run source
  scriptOutcome coloured report m

/-- Runs a script. Messages are red where the terminal has colours and the settings allow them. -/
def runScript (settings : Settings) (colours : Bool) (source : Text) : Outcome :=
  runScriptOn (colours && settings.color) (Machine.new.limitDepth settings.maxDepth) source

end Dynascope
