import Dynascope.Command.Shell

/-!
# The program

Reads the files that the command line mentions, does what the command line asks for, and writes the
result. A session reads its lines from standard input.
-/

namespace Dynascope

/-- Writes a text. -/
def writeText (stream : IO.FS.Stream) (t : Text) : IO Unit := do
  stream.write (ByteArray.mk t.toArray)
  stream.flush

/-- What the error of a file that cannot be read tells about it. The codes are those of the system:
20 for a file that is no directory, 36 for a name that is too long. -/
def contentOfError : IO.Error → FileContent
  | .inappropriateType _ 20 _ => .unavailable .notDirectory
  | .inappropriateType .. => .directory
  | .invalidArgument _ 36 _ => .unavailable .nameTooLong
  | _ => .unavailable .missing

/-- What is found under a path. -/
def readFile (path : Text) : IO FileContent := do
  match String.fromUTF8? (ByteArray.mk path.toArray) with
  | none => return .unavailable .missing
  | some name =>
    try
      let bytes ← IO.FS.readBinFile name
      return .text bytes.toList
    catch e => return contentOfError e

/-- Reads up to a newline or the end of input; the end of input alone is no line. -/
partial def readLine? (stream : IO.FS.Stream) (line : List UInt8) : IO (Option Text) := do
  let bytes ← stream.read 1
  match bytes.toList with
  | [] => return if line.isEmpty then none else some line.reverse
  | b :: _ =>
    if b = Text.newline then return some (b :: line).reverse else readLine? stream (b :: line)

/-- Executes lines; none is left if one ends the session. -/
def runLines (output : IO.FS.Stream) : Machine → List Text → IO (Option Machine)
  | m, [] => return some m
  | m, line :: rest => do
    let line := line.trim
    if line.isEmpty then runLines output m rest
    else
      let (step, m) := m.step line
      writeText output step.console
      if step.quit then return none else runLines output m rest

/-- Executes lines until one ends the session or the input ends. -/
partial def converse (settings : Settings) (input output : IO.FS.Stream) (m : Machine) :
    IO Unit := do
  writeText output settings.prompt
  match ← readLine? input [] with
  | none => return
  | some line =>
    let typed := Typed.ofText line
    match ← runLines output m typed.lines with
    | none => return
    | some m => unless typed.ended do converse settings input output m

end Dynascope

open Dynascope in
/-- Runs the command and returns its exit code. -/
def main (arguments : List String) : IO UInt32 := do
  let arguments := arguments.map Text.ofString
  let output ← IO.getStdout
  let contents ← (mentionedFiles arguments).mapM fun name => do return (name, ← readFile name)
  let files (name : Text) : FileContent := (contents.lookup name).getD (.unavailable .missing)
  match command arguments files false with
  | .finish outcome =>
    writeText output outcome.output
    writeText (← IO.getStderr) outcome.errors
    return outcome.code.number.toUInt32
  | .converse settings =>
    writeText output welcome
    converse settings (← IO.getStdin) output (sessionMachine settings)
    writeText output farewell
    return ExitCode.success.number.toUInt32
