import Dynascope.Text.Basic

/-!
# Characters of a text

A text is read as UTF-8 from left to right. A byte that starts no character stands for itself.

* `Piece`: a character with its bytes, or a stray byte.
* `pieces`: the pieces of a text; their bytes are the text.
* `characters`: the characters of a text, with U+FFFD in the place of stray bytes.
-/

namespace Dynascope.Text

/-- A character of a text or a byte that belongs to no character. -/
inductive Piece where
  /-- A character: its code point and its bytes. -/
  | char (code : Nat) (bytes : Text)
  /-- A byte at which no character starts. -/
  | stray (byte : UInt8)
  deriving Repr, DecidableEq

/-- Whether a byte continues a character. -/
def isContinuation (b : UInt8) : Bool :=
  0x80 ≤ b && b ≤ 0xbf

/-- Whether the byte after the leading byte `a` may be `b`. This excludes overlong forms,
surrogates and code points above U+10FFFF. -/
def isSecond (a b : UInt8) : Bool :=
  if a = 0xe0 then 0xa0 ≤ b && b ≤ 0xbf
  else if a = 0xed then 0x80 ≤ b && b ≤ 0x9f
  else if a = 0xf0 then 0x90 ≤ b && b ≤ 0xbf
  else if a = 0xf4 then 0x80 ≤ b && b ≤ 0x8f
  else isContinuation b

/-- The payload of a continuation byte. -/
def tailBits (b : UInt8) : Nat :=
  b.toNat % 0x40

/-- The piece at the front of the text `a :: rest` and the number of bytes it takes from `rest`. -/
def frontPiece (a : UInt8) (rest : Text) : Piece × Nat :=
  if a < 0x80 then (.char a.toNat [a], 0)
  else if 0xc2 ≤ a && a ≤ 0xdf then
    match rest with
    | b :: _ =>
      if isSecond a b then (.char (a.toNat % 0x20 * 0x40 + tailBits b) [a, b], 1)
      else (.stray a, 0)
    | [] => (.stray a, 0)
  else if 0xe0 ≤ a && a ≤ 0xef then
    match rest with
    | b :: c :: _ =>
      if isSecond a b && isContinuation c then
        (.char ((a.toNat % 0x10 * 0x40 + tailBits b) * 0x40 + tailBits c) [a, b, c], 2)
      else (.stray a, 0)
    | _ => (.stray a, 0)
  else if 0xf0 ≤ a && a ≤ 0xf4 then
    match rest with
    | b :: c :: d :: _ =>
      if isSecond a b && isContinuation c && isContinuation d then
        (.char (((a.toNat % 0x08 * 0x40 + tailBits b) * 0x40 + tailBits c) * 0x40 + tailBits d)
          [a, b, c, d], 3)
      else (.stray a, 0)
    | _ => (.stray a, 0)
  else (.stray a, 0)

/-- The pieces of a text without its first `skip` bytes. -/
def piecesAfter : (skip : Nat) → Text → List Piece
  | _, [] => []
  | k + 1, _ :: rest => piecesAfter k rest
  | 0, a :: rest =>
    let front := frontPiece a rest
    front.1 :: piecesAfter front.2 rest

/-- The characters and stray bytes of a text, from left to right. -/
def pieces (t : Text) : List Piece :=
  piecesAfter 0 t

/-- The bytes of a piece. -/
def Piece.bytes : Piece → Text
  | .char _ bytes => bytes
  | .stray byte => [byte]

/-- The character U+FFFD. -/
def replacement : Text :=
  [0xef, 0xbf, 0xbd]

/-- The bytes of a piece, U+FFFD for a stray byte. -/
def Piece.character : Piece → Text
  | .char _ bytes => bytes
  | .stray _ => replacement

/-- The characters of a text, stray bytes replaced. -/
def characters (t : Text) : List Text :=
  (pieces t).map Piece.character

end Dynascope.Text
