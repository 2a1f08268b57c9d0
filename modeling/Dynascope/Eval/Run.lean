import Dynascope.Eval.Basic
import Dynascope.Token.Scan
import Dynascope.Tree.Grammar

/-!
# Runs

* `RunError`: why a run failed, and its text.
* `Report`: the result of a run with the parse errors met on the way.
* `Machine.interpret`: runs a program given as trees.
* `Machine.run`: scans, parses and runs a source. A scan error ends the run. After parse errors the
  statements that could be read are run all the same; if there are none, the run fails.
-/

namespace Dynascope

/-- Why a run failed. -/
inductive RunError where
  | scan (error : ScanError)
  | parse (errors : List ParseError)
  | stop (stop : Stop)

/-- The text of a failure. -/
def RunError.message (s : Store) : RunError → Text
  | .scan e => e.message
  | .parse errors => parseErrorsMessage errors
  | .stop (.fault e) => e.message s
  | .stop .writeFailed => "write failed"
  | .stop .emptyName => "empty name"
  | .stop .missingArgument => "missing argument"
  | .stop .missingPart => "missing part"
  | .stop .outOfFuel => "out of fuel"

/-- The result of a run. -/
structure Report where
  value : Held
  error : Option RunError
  diagnostics : List ParseError

/-- Fuel for runs: no program that ends uses it up in practice. -/
def ampleFuel : Nat := 1 <<< 60

namespace Machine

/-- Numbers the function declarations of a program, going on from earlier programs. -/
def load (m : Machine) (program : List Stmt) : List Stmt × Machine :=
  let (program, next) := numberedAll program m.nextSite
  (program, { m with nextSite := next })

/-- Runs a program with some fuel; `diagnostics` are the errors met while it was read. -/
def interpretWith (fuel : Nat) (m : Machine) (program : List Stmt)
    (diagnostics : List ParseError) : Report × Machine :=
  let (program, m) := m.load program
  match Eval.interpret fuel program none m with
  | .ok value m => (⟨value, none, diagnostics⟩, m)
  | .error stop m => (⟨none, some (.stop stop), diagnostics⟩, m)

/-- Runs a program. -/
def interpret (m : Machine) (program : List Stmt) : Report × Machine :=
  m.interpretWith ampleFuel program []

/-- Runs a source with some fuel. -/
def runWith (fuel : Nat) (m : Machine) (source : Text) : Report × Machine :=
  match tokenize source with
  | (_, some e) => (⟨none, some (.scan e), []⟩, m)
  | (tokens, none) =>
    let parsed := parseProgram tokens
    if parsed.statements.isEmpty && !parsed.errors.isEmpty then
      (⟨none, some (.parse parsed.errors), parsed.errors⟩, m)
    else m.interpretWith fuel parsed.statements parsed.errors

/-- Runs a source. -/
def run (m : Machine) (source : Text) : Report × Machine :=
  m.runWith ampleFuel source

end Machine

end Dynascope
