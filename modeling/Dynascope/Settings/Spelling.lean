import Dynascope.Settings.Scalar
import Dynascope.Settings.Source

/-!
# How scalars are written

Scalars have one of four styles:

* *plain*: up to a comment, a colon before a blank, or a line that is not indented enough;
* *single-quoted*: a quote inside is written twice;
* *double-quoted*: with escapes after a backslash;
* *block*: the lines below a mark `|` or `>`, which are indented.

Plain and quoted scalars may go on over several lines. The white space where they do is folded: one
break of a line stands for a blank, and further breaks stand for themselves.

* `Gap`: white space inside a scalar.
* `Spelled`: a scalar and what follows it.
* `takePlain?`, `takeQuoted?`, `takeBlockScalar?`: the scalar of a style at the front of some glyphs.
-/

namespace Dynascope.Settings

/-- A scalar at the front of some glyphs. -/
structure Spelled where
  scalar : Scalar
  /-- Whether the break of a line was passed over after the scalar. -/
  afterBreak : Bool
  /-- What follows. -/
  rest : List Glyph
  deriving Repr, DecidableEq

/-! ## White space inside scalars -/

/-- White space since the last word of a scalar. -/
inductive Gap where
  | none
  /-- Blanks and tabs. -/
  | blanks (cs : List Char)
  /-- Breaks of lines: the first one, unless it was escaped, and the later ones. -/
  | breaks (first : Option Char) (later : List Char)
  deriving Repr, DecidableEq

namespace Gap

/-- A gap with one more blank, which does not count at the start of a line. -/
def addBlank (c : Char) : Gap → Gap
  | none => blanks [c]
  | blanks cs => blanks (cs ++ [c])
  | breaks first later => breaks first later

/-- A gap with one more break of a line. Blanks before it do not count. -/
def addBreak (c : Char) : Gap → Gap
  | none => breaks c []
  | blanks _ => breaks c []
  | breaks first later => breaks first (later ++ [c])

/-- Whether a gap holds the break of a line. -/
def spansLines : Gap → Bool
  | breaks _ _ => true
  | _ => false

/-- What a gap between two words stands for. -/
def text : Gap → List Char
  | none => []
  | blanks cs => cs
  | breaks (some '\n') [] => [' ']
  | breaks (some '\n') later => later
  | breaks first later => first.toList ++ later

end Gap

/-! ## Marks of documents -/

/-- Whether a line starts with a word of three times the same character. -/
def startsTriple (c : Char) : List Glyph → Bool
  | x :: y :: z :: rest =>
    x.column = 0 && x.char = c && y.char = c && z.char = c && Glyph.endsWord rest
  | _ => false

/-- Whether a line starts with the mark for the start or the end of a document. -/
def startsDocumentMark (gs : List Glyph) : Bool :=
  startsTriple '-' gs || startsTriple '.' gs

/-! ## Plain scalars -/

/-- The characters that may not start a plain scalar. -/
def indicators : List Char :=
  [',', '[', ']', '\x7b', '\x7d', '#', '&', '*', '!', '|', '>', '\'', '"', '%', '@', '\x60']

/-- Whether a plain scalar may start as some glyphs do. A dash, question mark or colon may start one
if no blank follows. -/
def startsPlain : List Glyph → Bool
  | [] => false
  | g :: rest =>
    if g.isBlank || g.isBreak || indicators.contains g.char then false
    else if g.char = '-' || g.char = '?' || g.char = ':' then !Glyph.endsWord rest
    else true

/-- The characters of a plain scalar, whether a break was passed over after them, and what follows.
Lines that go on with the scalar start at column `bound` or to the right of it; a tab to the left of
it is an error. -/
def plainFrom? (bound : Nat) : Gap → List Glyph → Option (List Char × Bool × List Glyph)
  | gap, [] => some ([], gap.spansLines, [])
  | gap, g :: rest =>
    if g.isBlank then
      if gap.spansLines && g.char = '\t' && g.column < bound then none
      else plainFrom? bound (gap.addBlank g.char) rest
    else if g.isBreak then plainFrom? bound (gap.addBreak g.breakChar) rest
    else
      let endsHere : Bool :=
        (g.char = ':' && Glyph.endsWord rest) ||
          (gap ≠ .none && (g.column < bound || g.char = '#')) || startsDocumentMark (g :: rest)
      if endsHere then some ([], gap.spansLines, g :: rest)
      else
        (plainFrom? bound .none rest).map fun (cs, after) => (gap.text ++ g.char :: cs, after)

/-- The plain scalar at the front of some glyphs. -/
def takePlain? (bound : Nat) (gs : List Glyph) : Option Spelled :=
  (plainFrom? bound .none gs).map fun (cs, afterBreak, rest) =>
    ⟨.plain (Text.ofChars cs), afterBreak, rest⟩

/-! ## Quoted scalars -/

/-- The number of hexadecimal digits after the letter of an escape, if it takes some. -/
def escapeWidth? : Char → Option Nat
  | 'x' => some 2
  | 'u' => some 4
  | 'U' => some 8
  | _ => none

/-- What an escape without digits stands for. -/
def escapeChar? : Char → Option Char
  | '0' => some '\x00'
  | 'a' => some '\x07'
  | 'b' => some '\x08'
  | 't' => some '\t'
  | '\t' => some '\t'
  | 'n' => some '\n'
  | 'v' => some '\x0b'
  | 'f' => some '\x0c'
  | 'r' => some '\r'
  | 'e' => some '\x1b'
  | ' ' => some ' '
  | '"' => some '"'
  | '\'' => some '\''
  | '\\' => some '\\'
  | 'N' => some '\x85'
  | '_' => some '\xa0'
  | 'L' => some '\u2028'
  | 'P' => some '\u2029'
  | _ => none

/-- The value of a hexadecimal digit. -/
def hexValue? (c : Char) : Option Nat :=
  if c.isDigit then some (c.toNat - 0x30)
  else if 'a' ≤ c && c ≤ 'f' then some (c.toNat - 0x57)
  else if 'A' ≤ c && c ≤ 'F' then some (c.toNat - 0x37)
  else none

/-- The character whose code point is written with exactly `width` hexadecimal digits. -/
def hexChar? (width : Nat) (cs : List Char) : Option Char := do
  let ds ← cs.mapM hexValue?
  let code := ds.foldl (fun n d => n * 16 + d) 0
  if ds.length = width && decide code.isValidChar then some (Char.ofNat code) else none

/-- What the escape after a backslash stands for, and its length. -/
def escape? : List Glyph → Option (Char × Nat)
  | [] => none
  | g :: rest =>
    match escapeWidth? g.char with
    | some width => (hexChar? width ((rest.take width).map Glyph.char)).map fun c => (c, width + 1)
    | none => (escapeChar? g.char).map fun c => (c, 1)

/-- The characters of a quoted scalar up to its closing quote, and what follows. The first `skip`
glyphs have been dealt with. The mark of a document may not stand inside a scalar. -/
def quotedFrom? (double : Bool) : (skip : Nat) → Gap → List Glyph → Option (List Char × List Glyph)
  | _, _, [] => none
  | k + 1, gap, _ :: rest => quotedFrom? double k gap rest
  | 0, gap, g :: rest =>
    let followedBy (p : Glyph → Bool) : Bool := rest.head?.any p
    let goOn (skip : Nat) (gap' : Gap) (cs : List Char) : Option (List Char × List Glyph) :=
      (quotedFrom? double skip gap' rest).map fun (later, after) =>
        (gap.text ++ cs ++ later, after)
    if g.isBlank then quotedFrom? double 0 (gap.addBlank g.char) rest
    else if g.isBreak then quotedFrom? double 0 (gap.addBreak g.breakChar) rest
    else if startsDocumentMark (g :: rest) then none
    else if g.char = '\'' && !double then
      if followedBy (·.char = '\'') then goOn 1 .none ['\''] else some (gap.text, rest)
    else if g.char = '"' && double then some (gap.text, rest)
    else if g.char = '\\' && double then
      if followedBy Glyph.isBreak then goOn 1 (.breaks none []) []
      else
        match escape? rest with
        | some (c, length) => goOn length .none [c]
        | none => none
    else goOn 0 .none [g.char]

/-- The quoted scalar whose opening quote stands before some glyphs. -/
def takeQuoted? (double : Bool) (gs : List Glyph) : Option Spelled :=
  (quotedFrom? double 0 .none gs).map fun (cs, rest) => ⟨.quoted (Text.ofChars cs), false, rest⟩

/-! ## Block scalars -/

/-- What becomes of the breaks at the end of a block. -/
inductive Chomping where
  /-- None is kept. -/
  | strip
  /-- The first one is kept. -/
  | clip
  /-- All are kept. -/
  | keep
  deriving Repr, DecidableEq

/-- What is kept of the break of the last line and of those of the empty lines after it. -/
def Chomping.keeps : Chomping → (first later : List Char) → List Char
  | strip, _, _ => []
  | clip, first, _ => first
  | keep, first, later => first ++ later

/-- The head of a block after its mark. -/
structure BlockHead where
  chomping : Chomping
  /-- How far the block is indented, if that is given. -/
  indentation : Option Nat
  deriving Repr, DecidableEq

namespace BlockHead

/-- The sign at the front of some glyphs. -/
def takeSign : List Glyph → Option Chomping × List Glyph
  | [] => (none, [])
  | g :: rest =>
    if g.char = '+' then (some .keep, rest)
    else if g.char = '-' then (some .strip, rest)
    else (none, g :: rest)

/-- The digit at the front of some glyphs. -/
def takeDigit : List Glyph → Option Nat × List Glyph
  | [] => (none, [])
  | g :: rest => if g.char.isDigit then (some (g.char.toNat - 0x30), rest) else (none, g :: rest)

/-- The head of a block and the lines below it. Sign and digit come in any order; the digit may not
be zero, and only a comment may follow. -/
def take? (gs : List Glyph) : Option (BlockHead × List Glyph) :=
  let (sign, rest) := takeSign gs
  let (digit, rest) := takeDigit rest
  let (sign, rest) := if sign.isSome then (sign, rest) else
    if digit.isSome then takeSign rest else (none, rest)
  let rest := rest.dropWhile Glyph.isBlank
  let rest := if rest.head?.any (·.char = '#') then rest.dropWhile (!·.isBreak) else rest
  if digit = some 0 || !rest.head?.all Glyph.isBreak then none
  else some (⟨sign.getD .clip, digit⟩, rest.drop 1)

end BlockHead

/-- The empty lines at the front of a block, and what follows. Also gives the column of the rightmost
glyph passed over. Blanks belong to the indentation up to `indentation`; a tab may not. -/
def emptyLines? (indentation : Option Nat) :
    (widest : Nat) → List Glyph → Option (List Char × Nat × List Glyph)
  | widest, [] => some ([], widest, [])
  | widest, g :: rest =>
    let widest := max widest g.column
    let indents : Bool := indentation.all fun column => g.column < column
    if indents && g.char = ' ' then emptyLines? indentation widest rest
    else if indents && g.char = '\t' then none
    else if g.isBreak then
      (emptyLines? indentation widest rest).map fun (breaks, after) => (g.breakChar :: breaks, after)
    else some ([], widest, g :: rest)

/-- The lines of a block that are indented by `indentation`, joined, and what follows. `first` is the
break of the line before, `later` those of the empty lines after it, and `inset` tells whether the
line before starts with a blank. In a folded block a single break between two lines that are not
inset stands for a blank. -/
def blockLines? (folded : Bool) (chomping : Chomping) (indentation : Nat) :
    (fuel : Nat) → (first later : List Char) → (inset : Bool) → List Glyph →
      Option (List Char × List Glyph)
  | 0, _, _, _, _ => none
  | n + 1, first, later, inset, gs =>
    match gs with
    | g :: _ =>
      if g.column = indentation then
        let folds : Bool := folded && !inset && !g.isBlank && first = ['\n']
        let joint := if folds then (if later.isEmpty then [' '] else []) else first
        let line := gs.takeWhile (!·.isBreak)
        let after := gs.dropWhile (!·.isBreak)
        match emptyLines? (some indentation) 0 (after.drop 1) with
        | none => none
        | some (breaks, _, rest) =>
          (blockLines? folded chomping indentation n (after.head?.toList.map Glyph.breakChar) breaks
            g.isBlank rest).map fun (cs, rest) =>
              (joint ++ later ++ line.map Glyph.char ++ cs, rest)
      else some (chomping.keeps first later, gs)
    | [] => some (chomping.keeps first later, [])

/-- The block scalar whose mark stands before some glyphs. `bound` is the least column at which the
block may stand. -/
def takeBlockScalar? (folded : Bool) (bound : Nat) (gs : List Glyph) : Option Spelled := do
  let (head, rest) ← BlockHead.take? gs
  let given := head.indentation.map fun width => bound - 1 + width
  let (breaks, widest, rest) ← emptyLines? given 0 rest
  let indentation := given.getD (max (max widest bound) 1)
  let (cs, rest) ← blockLines? folded head.chomping indentation (rest.length + 1) [] breaks false rest
  return ⟨.quoted (Text.ofChars cs), true, rest⟩

end Dynascope.Settings
