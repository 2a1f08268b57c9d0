import Dynascope.Command.Files
import Dynascope.Command.Options
import Dynascope.Command.Script
import Dynascope.Command.Session

/-!
# The command

The command runs the script that is its first argument, or else holds a session.

* `command`: what a command line asks for: either it is done, or a session is to be held.
* `mentionedFiles`: the files that a command line needs.
-/

namespace Dynascope

/-- The text that explains the options. -/
def usageText : Text :=
  ("Usage: rot [-h] [-c config.yaml] [-t level] [-d depth] [script]\n" : Text) ++
    ("\n" : Text) ++
    ("  -c file    read configuration from a YAML file\n" : Text) ++
    ("  -t level   trace level [Debug|Info|Error]\n" : Text) ++
    ("  -d depth   maximum call depth, 0 for no limit\n" : Text) ++
    ("  -h         print this help\n" : Text)

/-- The text about a settings file. -/
def settingsMessage (name : Text) (e : SettingsError) : Text :=
  match e with
  | .negativeDepth => ("config: " : Text) ++ e.message
  | e => ("config: parse " : Text) ++ name ++ (": " : Text) ++ e.message

/-- The settings of a named file, or the text about why there are none. -/
def loadSettings (name : Text) : FileContent → Except Text Settings
  | .unavailable fault =>
    .error (("config: open " : Text) ++ name ++ (": " : Text) ++ fault.message name)
  | .directory =>
    .error (("config: parse " : Text) ++ name ++ (": yaml: input error: " : Text) ++
      directoryMessage name)
  | .text file => (Settings.read {} file).mapError (settingsMessage name)

/-- What a command line asks for. -/
inductive Action where
  /-- All is done. -/
  | finish (outcome : Outcome)
  /-- A session is to be held. -/
  | converse (settings : Settings)

/-- An outcome that only has a message about an error. -/
def refusal (code : ExitCode) (message : Text) : Outcome :=
  { code := code, errors := message ++ [Text.newline] }

/-- Runs the script of a file. -/
def runFile (settings : Settings) (colours : Bool) (name : Text) : FileContent → Outcome
  | .unavailable fault => refusal .noInput (fault.message name)
  | .directory => refusal .noInput (directoryMessage name)
  | .text source => runScript settings colours source

/-- The settings that the options ask for. -/
def Options.settings (o : Options) (files : Text → FileContent) : Except Text Settings := do
  let settings ← if o.configFile.isEmpty then .ok {} else loadSettings o.configFile (files o.configFile)
  return o.apply settings

/-- What a command line asks for, given the content of files and whether the terminal has colours.
-/
def command (arguments : List Text) (files : Text → FileContent) (colours : Bool) : Action :=
  match Options.read arguments with
  | .error e =>
    .finish { code := .usage, errors := e.message ++ [Text.newline] ++ usageText }
  | .ok (options, remaining) =>
    if options.help then .finish { code := .success, output := usageText }
    else
      match options.settings files with
      | .error message => .finish (refusal .noInput message)
      | .ok settings =>
        match remaining with
        | [] => .converse settings
        | script :: _ => .finish (runFile settings colours script (files script))

/-- The names of the files whose content a command line may need. -/
def mentionedFiles (arguments : List Text) : List Text :=
  match Options.read arguments with
  | .error _ => []
  | .ok (options, remaining) => options.configFile :: remaining.take 1

end Dynascope
