import Dynascope.Text.Basic

/-!
# Markup in shown texts

A session shows its messages without colours. Marks for colours that stand in a text are taken out:

* a *tag* is a name, which may be empty, between `<` and `>`, with or without a slash before the
  name; tags count only in a text that holds the closing tag `</>`;
* a *code* is an escape sequence that ends with `m`.

Taking marks out may bring new ones about, which stay until the next time.

* `Text.clearTags`, `Text.clearCodes`: a text without its tags or codes.
* `Text.clearMarkup`: a text without either, as a line of a message or an item of a forest is shown.
-/

namespace Dynascope.Text

/-- A text without its first `skip` bytes and without its matches. `match?` gives the number of bytes
of a match at the front of a text, less one. Matches are found from left to right. -/
def eraseAfter (match? : UInt8 → Text → Option Nat) : (skip : Nat) → Text → Text
  | _, [] => []
  | k + 1, _ :: rest => eraseAfter match? k rest
  | 0, b :: rest =>
    match match? b rest with
    | some k => eraseAfter match? k rest
    | none => b :: eraseAfter match? 0 rest

/-- Whether a byte may stand in the name of a tag: a letter or one of `_`, `=`, `,`, `;`. -/
def isTagByte (b : UInt8) : Bool :=
  (0x41 ≤ b && b ≤ 0x5a) || (0x61 ≤ b && b ≤ 0x7a) || b = 0x5f || b = 0x3d || b = 0x2c || b = 0x3b

/-- The length of the name at the front of `rest` if `>` follows it. -/
def tagNameLength? (rest : Text) : Option Nat :=
  let name := rest.takeWhile isTagByte
  if rest[name.length]? = some 0x3e then some name.length else none

/-- The number of bytes of a tag that starts with `b` and goes on in `rest`, less one. -/
def tagMatch? (b : UInt8) (rest : Text) : Option Nat :=
  if b = 0x3c then
    match rest with
    | 0x2f :: rest => (tagNameLength? rest).map (· + 2)
    | rest => (tagNameLength? rest).map (· + 1)
  else none

/-- Whether a byte may stand in a code after its bracket: a digit, `;` or `?`. -/
def isCodeByte (b : UInt8) : Bool :=
  isDigit b || b = 0x3b || b = 0x3f

/-- The number of bytes of a code that starts with `b` and goes on in `rest`, less one. -/
def codeMatch? (b : UInt8) (rest : Text) : Option Nat :=
  match b, rest with
  | 0x1b, 0x5b :: rest =>
    let numbers := rest.takeWhile isCodeByte
    if numbers ≠ [] && rest[numbers.length]? = some 0x6d then some (numbers.length + 2) else none
  | _, _ => none

/-- The closing tag. -/
def closingTag : Text :=
  "</>"

/-- Whether a text occurs in another one. -/
def occursIn (part : Text) : Text → Bool
  | [] => part.isEmpty
  | b :: rest => part.isPrefixOf (b :: rest) || occursIn part rest

/-- A text without its tags, if it holds the closing tag. -/
def clearTags (t : Text) : Text :=
  if occursIn closingTag t then eraseAfter tagMatch? 0 t else t

/-- A text without its codes. -/
def clearCodes (t : Text) : Text :=
  eraseAfter codeMatch? 0 t

/-- A text whose tags are cleared several times. -/
def clearTagsTimes (n : Nat) (t : Text) : Text :=
  Nat.repeat clearTags n t

/-- A text without its tags and then without its codes. Tags that show up when the codes are gone
stay. -/
def clearMarkup (t : Text) : Text :=
  t.clearTags.clearCodes

end Dynascope.Text
