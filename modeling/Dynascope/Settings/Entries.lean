import Dynascope.Settings.Lexeme

/-!
# Entries of settings files

* `Entry`: a key and a value, with the number of their line.
* `readEntries?`: the entries of the first document of a file. A document is a mapping from scalars to
  scalars, or a plain scalar that stands for no value. What follows the document does not count, but
  its first lexemes have to be readable.
-/

namespace Dynascope

/-- A line `key: value` of a settings file. -/
structure Entry where
  /-- The number of the line, from 1. -/
  line : Nat
  key : Scalar
  value : Scalar
  deriving Repr, DecidableEq

namespace Settings

/-- The number of lexemes after a document that have to be readable. -/
def lookahead : Nat := 3

/-- Whether a document may end before some lexemes. -/
def endsDocument (after : List Lexeme) : Bool :=
  !(after.take lookahead).contains .malformed

/-- The scalar in the place of a key or value that is missing. -/
def absent : Scalar :=
  .plain []

/-- Entries with one more before them. -/
def withEntry (line : Nat) (key value : Scalar) (later : Option (List Entry)) :
    Option (List Entry) :=
  later.map (⟨line + 1, key, value⟩ :: ·)

/-- The entries of a mapping after its start. A value may be missing, and so may a long key. -/
def readMapping? : List Lexeme → Option (List Entry)
  | .mappingEnd :: after => if endsDocument after then some [] else none
  | .key line :: .scalar key :: .value :: .scalar value :: rest =>
    withEntry line key value (readMapping? rest)
  | .key line :: .scalar key :: .value :: rest => withEntry line key absent (readMapping? rest)
  | .key line :: .scalar key :: rest => withEntry line key absent (readMapping? rest)
  | .key line :: .value :: .scalar value :: rest => withEntry line absent value (readMapping? rest)
  | .key line :: .value :: rest => withEntry line absent absent (readMapping? rest)
  | .key line :: rest => withEntry line absent absent (readMapping? rest)
  | _ => none

/-- The entries of a document after its start. -/
def readContent? : List Lexeme → Option (List Entry)
  | .mappingStart :: rest => readMapping? rest
  | .scalar s :: after => if s.isNull && endsDocument after then some [] else none
  | after =>
    match after.head? with
    | some .fileEnd | some .documentStart | some .documentEnd =>
      if endsDocument after then some [] else none
    | _ => none

/-- The entries of the first document of a file. Its mark may be left out, except before the mark of
its end. -/
def readDocument? : List Lexeme → Option (List Entry)
  | .documentStart :: rest => readContent? rest
  | .documentEnd :: _ => none
  | rest => readContent? rest

/-- The entries of a settings file. -/
def readEntries? (file : Text) : Option (List Entry) :=
  readDocument? (lexemes (Source.ofFile file))

end Settings

end Dynascope
