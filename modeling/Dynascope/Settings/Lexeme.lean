import Dynascope.Settings.Spelling
import Dynascope.Settings.Window

/-!
# Lexemes of settings files

A settings file is a sequence of lexemes: scalars, and marks for where mappings, keys, values and
documents start and end. The columns of keys tell where mappings start and end: a key to the right of
all open mappings opens one, and a lexeme to the left of a mapping closes it.

A scalar may be a key only as the first one of its line (or after a mark that goes before a key). It
is one if a colon follows on its line, at most `keyReach` characters after its start. At the column of
an open mapping every scalar has to be a key. A question mark goes before a key that may be longer.

* `Lexeme`: a scalar or a mark.
* `Scanner`: what is left of a file, with the mappings that are open.
* `lexemes`: the lexemes of a source, up to the first error.
-/

namespace Dynascope.Settings

/-- A scalar or a mark of a settings file. -/
inductive Lexeme where
  | mappingStart
  /-- A key on a line follows. -/
  | key (line : Nat)
  /-- A value follows. -/
  | value
  | scalar (s : Scalar)
  | mappingEnd
  | documentStart
  | documentEnd
  | fileEnd
  /-- A mark of lists or of mappings between braces, which settings do not use. -/
  | other
  /-- The file cannot be read from here on. -/
  | malformed
  deriving Repr, DecidableEq

/-- What is left of a file. -/
structure Scanner where
  rest : List Glyph
  /-- The columns of the open mappings, innermost first. -/
  columns : List Nat
  /-- Whether the next scalar may be a key. -/
  keyAllowed : Bool
  window : Window
  deriving Repr, DecidableEq

/-! ## White space and comments -/

/-- How far before a comment white space is passed over together with it. -/
def commentReach : Nat := 511

/-- What follows a break of a line and white space after it. -/
def afterWhiteSpace (rest : List Glyph) : List Glyph :=
  rest.dropWhile fun g => g.isBlank || g.char = '\n'

/-- Whether a comment follows the line break `g` with nothing but white space before it, at most
`commentReach` characters away. -/
def commentFollows (g : Glyph) (rest : List Glyph) : Bool :=
  g.char = '\n' && (afterWhiteSpace rest).head?.any fun h =>
    h.char = '#' && h.index ≤ g.index + commentReach

/-- The window after a look for a comment that follows the line break `g`. -/
def lookForComment (w : Window) (g : Glyph) (rest : List Glyph) : Option Window :=
  let distance := if g.char = '\n' then w.placeOf (afterWhiteSpace rest) - g.index else 1
  w.look (min distance commentReach + 1) (g :: rest)

/-- Where white space is passed over. -/
inductive Stretch where
  /-- Outside comments. -/
  | outside
  /-- Inside a comment. -/
  | comment
  /-- Between two comments. -/
  | between
  deriving Repr, DecidableEq

/-- White space and comments that were passed over. -/
structure Skipped where
  rest : List Glyph
  keyAllowed : Bool
  window : Window
  deriving Repr, DecidableEq

/-- Moves the glyphs of the first line one column to the right. -/
def moveRight : List Glyph → List Glyph
  | [] => []
  | g :: rest =>
    let moved := { g with column := g.column + 1 }
    if g.isBreak then moved :: rest else moved :: moveRight rest

/-- Passes over white space and comments. Where a key may stand, tabs are not white space unless they
stand between two comments; the break of a line allows a key. Where the window starts with a byte
order mark, the first character of a line is passed over too. If that is the break of the line, the
next line is part of it: `joined` tells that this has happened. -/
def skipBlank? : (keyAllowed joined : Bool) → Window → Stretch → List Glyph → Option Skipped
  | keyAllowed, _, w, _, [] => do return ⟨[], keyAllowed, ← w.look 1 []⟩
  | keyAllowed, joined, w, .outside, g :: rest => do
    let w ← w.look 1 (g :: rest)
    if w.marked && g.column = 0 && !joined && (!g.isBreak || w.placeOf rest = g.index + 1) then
      skipBlank? keyAllowed g.isBreak w .outside rest
    else if g.char = ' ' || (g.char = '\t' && !keyAllowed) then
      skipBlank? keyAllowed joined w .outside rest
    else if g.char = '#' then skipBlank? keyAllowed joined w .comment rest
    else if g.isBreak then skipBlank? true false (← w.look 2 (g :: rest)) .outside rest
    else return ⟨if joined then moveRight (g :: rest) else g :: rest, keyAllowed, w⟩
  | keyAllowed, joined, w, .comment, g :: rest => do
    let w ← w.look 1 (g :: rest)
    if g.isBreak then
      let w ← lookForComment w g rest
      if commentFollows g rest then skipBlank? keyAllowed false w .between rest
      else skipBlank? true false (← w.look 2 (g :: rest)) .outside rest
    else skipBlank? keyAllowed joined w .comment rest
  | keyAllowed, joined, w, .between, g :: rest => do
    let w ← w.look (if g.isBreak then 2 else 1) (g :: rest)
    skipBlank? keyAllowed joined w (if g.char = '#' then .comment else .between) rest

/-- Passes over the comment on the line of a lexeme, if one follows it. -/
def skipLineComment? (w : Window) (gs : List Glyph) : Option (List Glyph × Window) := do
  let blanks := (gs.takeWhile Glyph.isBlank).length
  let w ← w.look (min blanks commentReach + 1) gs
  let rest := gs.drop blanks
  if rest.head?.any (·.char = '#') && blanks ≤ commentReach then
    let after := rest.dropWhile (!·.isBreak)
    return (after, ← w.pass (w.placeOf after) gs)
  else return (gs, w)

/-! ## Keys -/

/-- How far after the start of a key its colon may stand. -/
def keyReach : Nat := 1024

/-- The colon of the key that starts at a glyph, and what follows the colon, if it is a key. -/
def colonOf? (start : Glyph) (gs : List Glyph) : Option (Glyph × List Glyph) :=
  match gs.dropWhile Glyph.isBlank with
  | g :: rest =>
    if g.char = ':' && Glyph.endsWord rest && g.line = start.line && g.index ≤ start.index + keyReach
    then some (g, rest)
    else none
  | [] => none

namespace Scanner

/-- The least column at which a scalar may go on in a new line. -/
def bound (s : Scanner) : Nat :=
  s.columns.head?.elim 0 (· + 1)

/-- The lexemes that open a mapping at a column, if none is open there, and the open mappings. -/
def openAt (s : Scanner) (column : Nat) : List Lexeme × List Nat :=
  if s.columns.head?.all (· < column) then ([.mappingStart], column :: s.columns)
  else ([], s.columns)

/-- The lexemes of a scalar that starts at a glyph. The window is the one after the scalar. -/
def scalar? (s : Scanner) (start : Glyph) (spelled : Spelled) : Option (List Lexeme × Scanner) := do
  let (after, w) ←
    if spelled.afterBreak then some (spelled.rest, s.window)
    else skipLineComment? s.window spelled.rest
  let next : Scanner := ⟨after, s.columns, spelled.afterBreak, w⟩
  match if s.keyAllowed then colonOf? start spelled.rest else none with
  | some (colon, rest) =>
    let w ← w.pass colon.index spelled.rest
    let w ← w.look Window.wordReach (colon :: rest)
    let (rest, w) ← skipLineComment? w rest
    let (opening, columns) := s.openAt start.column
    return (opening ++ [.key start.line, .scalar spelled.scalar, .value], ⟨rest, columns, false, w⟩)
  | none =>
    let isKeyMissing : Bool := s.keyAllowed && s.columns.head? = some start.column
    return (.scalar spelled.scalar :: if isKeyMissing then [.malformed] else [], next)

/-- The lexeme of a colon that no key stands before. -/
def colon? (s : Scanner) (start : Glyph) (rest : List Glyph) : Option (List Lexeme × Scanner) := do
  if s.keyAllowed then
    let (rest, w) ← skipLineComment? s.window rest
    let (opening, columns) := s.openAt start.column
    return (opening ++ [.value], ⟨rest, columns, true, w⟩)
  else none

/-- The lexemes of a question mark, which goes before a key of any length. -/
def longKey? (s : Scanner) (start : Glyph) (rest : List Glyph) :
    Option (List Lexeme × Scanner) := do
  if s.keyAllowed then
    let (rest, w) ← skipLineComment? s.window rest
    let (opening, columns) := s.openAt start.column
    return (opening ++ [.key start.line], ⟨rest, columns, true, w⟩)
  else none

/-- The lexemes of a dash before an item of a list. -/
def item? (s : Scanner) (start : Glyph) (rest : List Glyph) : Option (List Lexeme × Scanner) :=
  if s.keyAllowed then
    let (opening, columns) := s.openAt start.column
    some (opening.map (fun _ => .other) ++ [.other], ⟨rest, columns, true, s.window⟩)
  else none

/-- The brackets, braces and commas of lists and mappings that stand on one line. A key may follow if
nothing is closed. -/
def bracket? (s : Scanner) (start : Glyph) (rest : List Glyph) :
    Option (List Lexeme × Scanner) := do
  let closes : Bool := start.char = ']' || start.char = '\x7d'
  let (rest, w) ← skipLineComment? s.window rest
  return ([.other], ⟨rest, s.columns, !closes, w⟩)

/-- The lexeme of a plain scalar at the front of some glyphs. -/
def plain? (s : Scanner) (start : Glyph) (gs : List Glyph) : Option (List Lexeme × Scanner) := do
  let spelled ← takePlain? s.bound gs
  let w ← s.window.passScalar s.bound (s.window.placeOf spelled.rest) false gs
  { s with window := w }.scalar? start spelled

/-- The lexeme of a quoted scalar whose opening quote stands before some glyphs. -/
def quoted? (s : Scanner) (start : Glyph) (gs : List Glyph) : Option (List Lexeme × Scanner) := do
  let spelled ← takeQuoted? (start.char = '"') gs
  let w ← s.window.passScalar 0 (s.window.placeOf spelled.rest - 1) true gs
  { s with window := w }.scalar? start spelled

/-- The lexeme of a block scalar whose mark stands before some glyphs. -/
def block? (s : Scanner) (start : Glyph) (gs : List Glyph) : Option (List Lexeme × Scanner) := do
  let spelled ← takeBlockScalar? (start.char = '>') s.bound gs
  let w ← s.window.pass (s.window.placeOf spelled.rest) gs
  return ([.scalar spelled.scalar], ⟨spelled.rest, s.columns, true, w⟩)

/-- The lexemes at the front of what is left, which starts with `g` and goes on with `rest`. A mark
of a document closes all mappings. -/
def lexeme? (s : Scanner) (g : Glyph) (rest : List Glyph) : Option (List Lexeme × Scanner) :=
  let gs := g :: rest
  let documentMark (mark : Lexeme) : List Lexeme × Scanner :=
    (s.columns.map (fun _ => .mappingEnd) ++ [mark], ⟨rest.drop 2, [], false, s.window⟩)
  if startsTriple '-' gs then some (documentMark .documentStart)
  else if startsTriple '.' gs then some (documentMark .documentEnd)
  else if ['[', ']', '\x7b', '\x7d', ','].contains g.char then s.bracket? g rest
  else if g.char = '-' && Glyph.endsWord rest then s.item? g rest
  else if g.char = '?' && Glyph.endsWord rest then s.longKey? g rest
  else if g.char = ':' && Glyph.endsWord rest then s.colon? g rest
  else if g.char = '|' || g.char = '>' then s.block? g rest
  else if g.char = '\'' || g.char = '"' then s.quoted? g rest
  else if startsPlain gs then s.plain? g gs
  else none

/-- What is left after white space and comments, with the start of the next lexeme in the window. -/
def atLexeme? (s : Scanner) : Option Scanner := do
  let skipped ← skipBlank? s.keyAllowed false s.window .outside s.rest
  let w ← skipped.window.look Window.wordReach skipped.rest
  return ⟨skipped.rest, s.columns, skipped.keyAllowed, w⟩

/-- The lexemes of what is left, at most `fuel` steps. -/
def lexemesFrom : (fuel : Nat) → Scanner → List Lexeme
  | 0, _ => [.malformed]
  | n + 1, s =>
    match s.atLexeme? with
    | none => [.malformed]
    | some s =>
      match s.rest with
      | [] => s.columns.map (fun _ => .mappingEnd) ++ [.fileEnd]
      | g :: rest =>
        let closed := s.columns.takeWhile (g.column < ·)
        let columns := s.columns.dropWhile (g.column < ·)
        match { s with columns := columns }.lexeme? g rest with
        | some (found, next) => closed.map (fun _ => .mappingEnd) ++ found ++ lexemesFrom n next
        | none => [.malformed]

end Scanner

/-- The lexemes of a source. The last one is the end of the file, or tells that the file cannot be
read further. -/
def lexemes (source : Source) : List Lexeme :=
  Scanner.lexemesFrom (source.glyphs.length + 1)
    ⟨source.glyphs, [], true, Window.ofSource source⟩

end Dynascope.Settings
