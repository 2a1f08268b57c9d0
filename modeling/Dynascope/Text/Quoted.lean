import Dynascope.Text.Utf8
import Dynascope.Text.Printable

/-!
# Quoted texts

A quoted text stands between double quotes. Printable characters stand for themselves, except that
the double quote and the backslash take a backslash. Seven controls have an escape of one letter;
other characters are written in hexadecimal with as many digits as their size asks for, and stray
bytes as `\x` with two digits.

* `quoted`: the quoted form of a text.
-/

namespace Dynascope.Text

/-- The hexadecimal digit of a number below sixteen, in lower case. -/
def hexDigit (n : Nat) : UInt8 :=
  if n < 10 then digit n else (0x57 + n).toUInt8

/-- A number in hexadecimal with `width` digits. -/
def hex : (width : Nat) → Nat → Text
  | 0, _ => []
  | w + 1, n => hex w (n / 16) ++ [hexDigit (n % 16)]

/-- The letter that follows the backslash in the escape of a control, if it has such an escape. -/
def escapeLetter? : Nat → Option UInt8
  | 0x07 => some 0x61
  | 0x08 => some 0x62
  | 0x09 => some 0x74
  | 0x0a => some 0x6e
  | 0x0b => some 0x76
  | 0x0c => some 0x66
  | 0x0d => some 0x72
  | _ => none

/-- A character or stray byte as it stands inside quotes. -/
def Piece.quoted : Piece → Text
  | .stray byte => [0x5c, 0x78] ++ hex 2 byte.toNat
  | .char code bytes =>
    if code = 0x22 || code = 0x5c then 0x5c :: bytes
    else if isPrintable code then bytes
    else
      match escapeLetter? code with
      | some letter => [0x5c, letter]
      | none =>
        if code < 0x20 || code = 0x7f then [0x5c, 0x78] ++ hex 2 code
        else if code < 0x10000 then [0x5c, 0x75] ++ hex 4 code
        else [0x5c, 0x55] ++ hex 8 code

/-- The quoted form of a text. -/
def quoted (t : Text) : Text :=
  quote :: ((pieces t).flatMap Piece.quoted ++ [quote])

end Dynascope.Text
