/-!
# Texts

The language works on bytes: source, names, string values and output are byte strings, which need
not be valid UTF-8.

* `Text`: a byte string. Texts are ordered bytewise (the order of lists).
* `Text.ofString`: the UTF-8 bytes of a string.
* `Text.ofNat`, `Text.ofInt`: decimal numerals.
-/

namespace Dynascope

/-- A byte string. -/
abbrev Text := List UInt8

namespace Text

/-- The UTF-8 bytes of a string. -/
def ofString (s : String) : Text :=
  s.toUTF8.data.toList

/-- The UTF-8 bytes of characters. -/
def ofChars (cs : List Char) : Text :=
  ofString (String.ofList cs)

instance : Coe String Text := ⟨ofString⟩

/-- The newline byte. -/
def newline : UInt8 := 0x0a

/-- The double quote byte. -/
def quote : UInt8 := 0x22

/-- Whether a byte is one of the ten decimal digits. -/
def isDigit (b : UInt8) : Bool :=
  0x30 ≤ b && b ≤ 0x39

/-- The value of a decimal digit. -/
def digitValue (b : UInt8) : Nat :=
  b.toNat - 0x30

/-- The byte of a decimal digit. -/
def digit (n : Nat) : UInt8 :=
  (0x30 + n).toUInt8

/-- The number that a sequence of decimal digits denotes. -/
def natOfDigits (ds : Text) : Nat :=
  ds.foldl (fun n d => n * 10 + digitValue d) 0

/-- The decimal numeral of a natural number. -/
def ofNat (n : Nat) : Text :=
  (Nat.toDigits 10 n).map Char.toUInt8

/-- The decimal numeral of an integer, with a minus sign if it is negative. -/
def ofInt : Int → Text
  | .ofNat n => ofNat n
  | .negSucc n => 0x2d :: ofNat (n + 1)

/-- `n` copies of the blank. -/
def blanks (n : Nat) : Text :=
  List.replicate n 0x20

/-- The texts one after the other, with a separator between two neighbours. -/
def join (separator : Text) (parts : List Text) : Text :=
  List.intercalate separator parts

/-- Splits a text at every separator; the separators are dropped. -/
def split (separator : UInt8) : Text → List Text
  | [] => [[]]
  | b :: rest =>
    match split separator rest with
    | [] => [[b]]
    | first :: others => if b = separator then [] :: first :: others else (b :: first) :: others

/-- Splits a text at every newline; the newlines are dropped. -/
def lines (t : Text) : List Text :=
  split newline t

/-- What follows `start` in a text that begins with it. -/
def dropStart? : (start text : Text) → Option Text
  | [], t => some t
  | _ :: _, [] => none
  | a :: s, b :: t => if a = b then dropStart? s t else none

end Text

end Dynascope
