import Dynascope.Settings.Basic

/-!
# Options of the command line

Options stand before the other arguments. Several letters may follow one dash; an option that takes
an argument takes the rest of its letters or else the next argument. The arguments end the options
at `--`, which is passed over, at `-`, at an empty text or at a text that does not start with a dash.

* `Options`: the options that there are; those not given are empty.
* `OptionError`: why a command line is refused, and its text.
* `Options.read`: the options and the remaining arguments of a command line.
* `Options.apply`: options given on the command line go before the settings of a file.
-/

namespace Dynascope

/-- The options of the command line. -/
structure Options where
  help : Bool := false
  configFile : Text := []
  trace : Text := []
  depth : Option Nat := none
  deriving Repr, DecidableEq

/-- Why a command line is refused. -/
inductive OptionError where
  | unknownOption (letter : Text)
  | missingArgument (letter : Text)
  | invalidDepth (value : Text)
  deriving Repr, DecidableEq

/-- What is wrong with a command line. -/
def OptionError.message : OptionError → Text
  | .unknownOption letter => ("rot: unknown option -" : Text) ++ letter
  | .missingArgument letter => ("rot: expected argument for -" : Text) ++ letter
  | .invalidDepth value => ("invalid -d parameter: " : Text) ++ value

/-- An option as it was given. -/
inductive GivenOption where
  | help
  | configFile (name : Text)
  | trace (level : Text)
  | depth (value : Text)
  deriving Repr, DecidableEq

/-- A letter that stands for an option. -/
inductive OptionLetter where
  /-- An option without an argument. -/
  | flag (given : GivenOption)
  /-- An option with an argument. -/
  | parameter (given : Text → GivenOption)

/-- The option of a letter. -/
def OptionLetter.ofText? (letter : Text) : Option OptionLetter :=
  if letter = Text.ofString "h" then some (.flag .help)
  else if letter = Text.ofString "c" then some (.parameter .configFile)
  else if letter = Text.ofString "t" then some (.parameter .trace)
  else if letter = Text.ofString "d" then some (.parameter .depth)
  else none

/-- What the letters after a dash ask for: options, and perhaps one that still wants its argument. -/
structure LetterOptions where
  given : List GivenOption
  pending : Option (Text × (Text → GivenOption))

/-- The options that letters stand for. -/
def readLetters : List Text → Except OptionError LetterOptions
  | [] => .ok ⟨[], none⟩
  | letter :: rest =>
    match OptionLetter.ofText? letter with
    | none => .error (.unknownOption letter)
    | some (.flag given) => do
      let more ← readLetters rest
      return ⟨given :: more.given, more.pending⟩
    | some (.parameter given) =>
      if rest.isEmpty then .ok ⟨[], some (letter, given)⟩ else .ok ⟨[given rest.flatten], none⟩

/-- The letters of an argument that gives options. -/
def optionLetters? : Text → Option (List Text)
  | 0x2d :: rest => if rest.isEmpty then none else some (Text.characters rest)
  | _ => none

/-- The options that arguments give, and the arguments that remain. -/
def splitArguments : List Text → Except OptionError (List GivenOption × List Text)
  | [] => .ok ([], [])
  | argument :: rest =>
    if argument = Text.ofString "--" then .ok ([], rest)
    else
      match optionLetters? argument with
      | none => .ok ([], argument :: rest)
      | some letters => do
        let found ← readLetters letters
        match found.pending with
        | none =>
          let (given, remaining) ← splitArguments rest
          return (found.given ++ given, remaining)
        | some (letter, pending) =>
          match rest with
          | [] => .error (.missingArgument letter)
          | value :: rest =>
            let (given, remaining) ← splitArguments rest
            return (found.given ++ pending value :: given, remaining)

/-- The depth that a text denotes: decimal digits after an optional sign, not negative and less than
2 ^ 63. -/
def readDepth? (t : Text) : Option Nat :=
  let (negative, digits) := Number.takeSign t
  let depth := Text.natOfDigits digits
  if digits.isEmpty || !digits.all Text.isDigit then none
  else if negative then if depth = 0 then some 0 else none
  else if depth < 1 <<< 63 then some depth
  else none

namespace Options

/-- Options with one more given. The last one of a kind counts. -/
def give (o : Options) : GivenOption → Except OptionError Options
  | .help => .ok { o with help := true }
  | .configFile name => .ok { o with configFile := name }
  | .trace level => .ok { o with trace := level }
  | .depth value =>
    match readDepth? value with
    | some depth => .ok { o with depth := some depth }
    | none => .error (.invalidDepth value)

/-- The options and the remaining arguments of a command line. Depths are looked at when all options
are known. -/
def read (arguments : List Text) : Except OptionError (Options × List Text) := do
  let (given, remaining) ← splitArguments arguments
  let options ← given.foldlM give {}
  return (options, remaining)

/-- Settings in which the options given take effect. -/
def apply (o : Options) (s : Settings) : Settings :=
  { s with
    trace := if o.trace.isEmpty then s.trace else o.trace
    maxDepth := o.depth.getD s.maxDepth }

end Options

end Dynascope
