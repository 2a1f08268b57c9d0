import Dynascope.Text.Utf8

/-!
# Characters of settings files

A settings file is UTF-8, or UTF-16 if it starts with a byte order mark of that encoding. It is read
block by block. A block with a byte or character that a settings file may not hold ends the reading;
whether that matters depends on whether the block is needed.

* `Glyph`: a character with its place.
* `Source`: the characters of the blocks that can be read.
* `Source.ofFile`: the source of a file.
-/

namespace Dynascope.Settings

/-- A character and its place in a file. All breaks of a line but U+2028, U+2029 and U+0085 are
newlines. -/
structure Glyph where
  char : Char
  /-- The number of characters before this one. -/
  index : Nat
  /-- The number of lines before this one's. -/
  line : Nat
  /-- The number of characters before this one on its line. -/
  column : Nat
  deriving Repr, DecidableEq

namespace Glyph

/-- Whether a glyph is a blank or a tab. -/
def isBlank (g : Glyph) : Bool :=
  g.char = ' ' || g.char = '\t'

/-- Whether a glyph ends a line. -/
def isBreak (g : Glyph) : Bool :=
  g.char = '\n' || g.char = '\x85' || g.char = '\u2028' || g.char = '\u2029'

/-- What the break of a line stands for inside a scalar. -/
def breakChar (g : Glyph) : Char :=
  if g.char = '\x85' then '\n' else g.char

/-- Whether a glyph is a byte order mark. -/
def isOrderMark (g : Glyph) : Bool :=
  g.char = '\ufeff'

/-- Whether nothing, a blank or the break of a line is next. -/
def endsWord (gs : List Glyph) : Bool :=
  gs.head?.all fun g => g.isBlank || g.isBreak

/-- The glyphs of characters that stand at a place. A carriage return, with or without a newline
after it, is the break of a line. -/
def ofChars : (index line column : Nat) → List Char → List Glyph
  | _, _, _, [] => []
  | index, line, column, '\r' :: '\n' :: rest =>
    ⟨'\n', index, line, column⟩ :: ofChars (index + 2) (line + 1) 0 rest
  | index, line, column, c :: rest =>
    let g : Glyph := ⟨if c = '\r' then '\n' else c, index, line, column⟩
    if g.isBreak then g :: ofChars (index + 1) (line + 1) 0 rest
    else g :: ofChars (index + 1) line (column + 1) rest

end Glyph

/-! ## Encodings -/

/-- Whether a settings file may hold a character: no controls but tab, line breaks and U+0085. -/
def isAllowed (code : Nat) : Bool :=
  code = 0x09 || code = 0x0a || code = 0x0d || (0x20 ≤ code && code ≤ 0x7e) || code = 0x85 ||
    (0xa0 ≤ code && code ≠ 0xfffe && code ≠ 0xffff)

/-- The character of a piece, if a settings file may hold it. -/
def allowedChar? : Text.Piece → Option Char
  | .stray _ => none
  | .char code _ => if isAllowed code then some (Char.ofNat code) else none

/-- The code unit of two bytes in UTF-16. -/
def codeUnit (bigEndian : Bool) (a b : UInt8) : Nat :=
  if bigEndian then a.toNat * 0x100 + b.toNat else b.toNat * 0x100 + a.toNat

/-- The pieces of a text in UTF-16. Code units that are halves of a pair belong together; a half
that stands alone ends the pieces as a stray byte. -/
def pieces16 (bigEndian : Bool) : Text → List Text.Piece
  | [] => []
  | [a] => [.stray a]
  | a :: b :: rest =>
    let unit := codeUnit bigEndian a b
    if 0xd800 ≤ unit && unit < 0xe000 then
      match rest with
      | c :: d :: rest =>
        let low := codeUnit bigEndian c d
        if unit < 0xdc00 && 0xdc00 ≤ low && low < 0xe000 then
          .char (0x10000 + (unit - 0xd800) * 0x400 + (low - 0xdc00)) [a, b, c, d] ::
            pieces16 bigEndian rest
        else [.stray a]
      | _ => [.stray a]
    else .char unit [a, b] :: pieces16 bigEndian rest

/-- The pieces of a file after its byte order mark, and the number of bytes of the mark. -/
def filePieces : Text → Nat × List Text.Piece
  | 0xff :: 0xfe :: rest => (2, pieces16 false rest)
  | 0xfe :: 0xff :: rest => (2, pieces16 true rest)
  | 0xef :: 0xbb :: 0xbf :: rest => (3, Text.pieces rest)
  | file => (0, Text.pieces file)

/-! ## Blocks -/

/-- The largest number of bytes in a block. -/
def blockSize : Nat := 512

/-- The characters of the pieces that fit in `room` bytes, and the other pieces; nothing if one of
the characters is not allowed. -/
def takeBlock? : (room : Nat) → List Text.Piece → Option (List Char × List Text.Piece)
  | _, [] => some ([], [])
  | room, p :: rest =>
    if p.bytes.length ≤ room then
      match allowedChar? p with
      | none => none
      | some c => (takeBlock? (room - p.bytes.length) rest).map fun (cs, after) => (c :: cs, after)
    else some ([], p :: rest)

/-- The characters of the blocks before the first one that cannot be read, and whether there is no
such block. The first block has `room` bytes; there are at most `fuel` blocks. -/
def readBlocks : (fuel room : Nat) → List Text.Piece → List (List Char) × Bool
  | 0, _, _ => ([], false)
  | n + 1, room, pieces =>
    match takeBlock? room pieces with
    | none => ([], false)
    | some (cs, []) => ([cs], true)
    | some (cs, rest) =>
      let (later, sound) := readBlocks n blockSize rest
      (cs :: later, sound)

/-- What can be read of a settings file. -/
structure Source where
  glyphs : List Glyph
  /-- The number of characters in each block. -/
  blocks : List Nat
  /-- Whether these blocks are all there are. -/
  sound : Bool
  deriving Repr, DecidableEq

/-- The source of a file. -/
def Source.ofFile (file : Text) : Source :=
  let (mark, pieces) := filePieces file
  let (blocks, sound) := readBlocks (pieces.length + 1) (blockSize - mark) pieces
  ⟨Glyph.ofChars 0 0 0 blocks.flatten, blocks.map List.length, sound⟩

end Dynascope.Settings
