import Dynascope.Eval.Machine
import Dynascope.Settings.Entries

/-!
# Settings

* `Settings`: what can be set for a script or a session, with its default values.
* `SettingsError`: why a settings file is refused.
* `Settings.read`: the settings of a file. Keys that it does not give keep their values.
-/

namespace Dynascope

/-- The settings of a script or a session. -/
structure Settings where
  /-- The level of tracing. -/
  trace : Text := "Error"
  /-- The largest number of active calls, or 0 for no limit. -/
  maxDepth : Nat := defaultMaxDepth
  /-- What a session shows before it reads a line. -/
  prompt : Text := "rot> "
  /-- Whether messages may be coloured. -/
  color : Bool := true
  deriving Repr, DecidableEq

/-- Why a settings file is refused. -/
inductive SettingsError where
  | malformed
  | unknownKey (line : Nat) (key : Text)
  | repeatedKey (line : Nat) (key : Text)
  | wrongType (line : Nat) (key : Text)
  | negativeDepth
  deriving Repr, DecidableEq

namespace SettingsError

/-- The start of a message about a line. -/
def atLine (line : Nat) : Text :=
  ("yaml: line " : Text) ++ Text.ofNat line ++ (": " : Text)

/-- What is wrong with a settings file. -/
def message : SettingsError → Text
  | malformed => "yaml: malformed entries"
  | unknownKey line key => atLine line ++ ("field " : Text) ++ key ++ (" not found" : Text)
  | repeatedKey line key => atLine line ++ ("field " : Text) ++ key ++ (" already set" : Text)
  | wrongType line key => atLine line ++ ("wrong type for " : Text) ++ key
  | negativeDepth => "max-call-depth must not be negative"

end SettingsError

/-- A setting with its value; the depth is still to be checked. -/
inductive Setting where
  | trace (level : Text)
  | maxDepth (depth : Int)
  | prompt (text : Text)
  | color (on : Bool)
  deriving Repr, DecidableEq

/-- How the value of a key is read, for the keys that there are. -/
def Setting.reader? (key : Text) : Option (Scalar → Option Setting) :=
  if key = Text.ofString "trace" then some fun s => some (.trace s.text)
  else if key = Text.ofString "max-call-depth" then some fun s => s.whole?.map .maxDepth
  else if key = Text.ofString "prompt" then some fun s => some (.prompt s.text)
  else if key = Text.ofString "color" then some fun s => s.bool?.map .color
  else none

/-- The setting of an entry. An entry whose key or value is null sets nothing. -/
def Setting.ofEntry (e : Entry) : Except SettingsError (Option Setting) :=
  if e.key.isNull then .ok none
  else
    match Setting.reader? e.key.text with
    | none => .error (.unknownKey e.line e.key.text)
    | some read =>
      if e.value.isNull then .ok none
      else
        match read e.value with
        | some setting => .ok (some setting)
        | none => .error (.wrongType e.line e.key.text)

/-- The first entry whose key an earlier entry has. -/
def repeatedEntry? : (earlier : List Text) → List Entry → Option Entry
  | _, [] => none
  | earlier, e :: rest =>
    if earlier.contains e.key.text then some e else repeatedEntry? (e.key.text :: earlier) rest

namespace Settings

/-- Settings with one of them set. A negative depth is refused. -/
def set (s : Settings) : Setting → Except SettingsError Settings
  | .trace level => .ok { s with trace := level }
  | .maxDepth depth =>
    if 0 ≤ depth then .ok { s with maxDepth := depth.toNat } else .error .negativeDepth
  | .prompt text => .ok { s with prompt := text }
  | .color on => .ok { s with color := on }

/-- The settings of a file, on top of given ones. All entries are read before one is set, so a
negative depth is only refused in a file that is otherwise sound. -/
def read (s : Settings) (file : Text) : Except SettingsError Settings := do
  match readEntries? file with
  | none => .error .malformed
  | some entries =>
    match repeatedEntry? [] entries with
    | some e => .error (.repeatedKey e.line e.key.text)
    | none =>
      let settings ← entries.mapM Setting.ofEntry
      settings.reduceOption.foldlM set s

end Settings

end Dynascope
