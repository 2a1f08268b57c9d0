import Dynascope.Command.Input
import Dynascope.Display.Forest
import Dynascope.Display.Message
import Dynascope.Eval.Run
import Dynascope.Settings.Basic
import Dynascope.Text.Blank
import Dynascope.Tree.Outline

/-!
# Sessions

A session runs lines one after the other on one machine. Lines that start with a colon are commands:
`:ast` shows the tree of a source, `:env` the global variables, and `:quit` ends the session.

* `Step`: what a line shows and prints, and whether it ends the session.
* `Machine.step`: the step of a line.
* `transcript`: all that a session shows for an input.
-/

namespace Dynascope

/-- What a line of a session leads to. -/
structure Step where
  quit : Bool := false
  /-- What is shown before the line prints. -/
  before : Text := []
  /-- What the line prints. -/
  output : Text := []
  /-- What is shown after the line has printed. -/
  after : Text := []
  deriving Repr, DecidableEq

namespace Step

/-- What is shown, without what is printed. -/
def display (s : Step) : Text :=
  s.before ++ s.after

/-- What is shown and printed, in order. -/
def console (s : Step) : Text :=
  s.before ++ s.output ++ s.after

end Step

/-! ## Commands -/

/-- A global variable and, for a class, its methods below it. -/
def variableItems (s : Store) (name : Text) (value : Value) : List (Nat × Text) :=
  let methods : List Text :=
    match value with
    | .cls id => (s.class? id).elim [] fun c => c.methods.names
    | _ => []
  (0, name ++ (" = " : Text) ++ s.render value) :: methods.map fun m => (1, m ++ ("()" : Text))

/-- The global variables with their values, sorted by name. -/
def Machine.environmentItems (m : Machine) : List (Nat × Text) :=
  m.frames.globals.vars.entries.flatMap fun (name, value) => variableItems m.store name value

/-- What the trees of statements are shown as; nothing if there are none. Trees with a missing part
are not shown; the parser makes none of them. -/
def showStatements (program : List Stmt) : Text :=
  match program, programItems program with
  | _ :: _, some items => Branch.drawing (Branch.ofItems items)
  | _, _ => []

/-- What the tree of a source is shown as. Errors come first; statements that could be read are
shown all the same. -/
def showTree (source : Text) : Text :=
  match tokenize source with
  | (_, some e) => errorLine e.message
  | (tokens, none) =>
    let parsed := parseProgram tokens
    let errors : Text :=
      if parsed.errors.isEmpty then [] else errorLine (parseErrorsMessage parsed.errors)
    errors ++ showStatements parsed.statements

/-- What a line asks for. -/
inductive Line where
  | quit
  | environment
  | tree (source : Text)
  | unknown (line : Text)
  | source (source : Text)
  deriving Repr, DecidableEq

/-- What a line asks for. -/
def Line.ofText (line : Text) : Line :=
  if line = Text.ofString ":quit" then .quit
  else if line = Text.ofString ":env" then .environment
  else
    match Text.dropStart? (Text.ofString ":ast") line with
    | some rest => .tree rest.trim
    | none => if line.head? = some 0x3a then .unknown line else .source line

/-! ## Steps -/

/-- What a run of a source shows at its end: its error or its value. -/
def Report.closing (s : Store) (r : Report) : Text :=
  match r.error, r.value with
  | some e, _ => errorLine (e.message s)
  | none, some v => infoLine (s.render v)
  | none, none => []

/-- Runs a source as a line of a session. -/
def Machine.stepSource (m : Machine) (source : Text) : Step × Machine :=
  let (report, m) := m.clearOutput.run source
  ({ before := report.diagnostics.flatMap fun e => errorLine e.message
     output := m.output
     after := report.closing m.store }, m)

/-- Executes a line of a session. -/
def Machine.step (m : Machine) (line : Text) : Step × Machine :=
  match Line.ofText line with
  | .quit => ({ quit := true }, m)
  | .environment => ({ before := Branch.drawing (Branch.ofItems m.environmentItems) }, m)
  | .tree source => ({ before := showTree source }, m)
  | .unknown line => ({ before := errorLine (("Unknown command " : Text) ++ line) }, m)
  | .source source => m.stepSource source

/-! ## Transcripts -/

/-- What a session shows first. -/
def welcome : Text :=
  infoLine "Welcome to rot"

/-- What a session shows last. -/
def farewell : Text :=
  "Good bye!\n"

/-- The machine of a session. -/
def sessionMachine (settings : Settings) : Machine :=
  Machine.new.limitDepth settings.maxDepth

/-- What lines show until one ends the session. Empty lines are passed over. -/
def showLines : Machine → List Text → Text
  | _, [] => []
  | m, line :: rest =>
    let line := line.trim
    if line.isEmpty then showLines m rest
    else
      let (step, m) := m.step line
      if step.quit then step.console else step.console ++ showLines m rest

/-- All that a session shows for an input. -/
def transcript (settings : Settings) (input : Text) : Text :=
  welcome ++ showLines (sessionMachine settings) (Typed.ofText input).lines ++ farewell

end Dynascope
