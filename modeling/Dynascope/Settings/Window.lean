import Dynascope.Settings.Source

/-!
# The window on a settings file

A settings file is read as it is looked at. A look at characters that have not been read yet reads
further blocks, and what was passed over before is let go of: the window then starts at the place of
the look. Where the window starts with a byte order mark, lines are read without their first
character, whatever it is.

* `Window`: how far a file has been read.
* `Window.look`: a look at the next characters.
* `Window.pass`, `Window.passScalar`: the looks at characters that are passed over.
-/

namespace Dynascope.Settings

/-- How far a file has been read. -/
structure Window where
  /-- The number of characters in the file that can be read. -/
  size : Nat
  /-- The number of characters that have been read. The end of the file counts as one each time it
  is read. -/
  ready : Nat
  /-- The sizes of the blocks that have not been read. -/
  blocks : List Nat
  /-- Whether there are no other blocks. -/
  sound : Bool
  /-- Whether the window starts with a byte order mark. -/
  marked : Bool
  deriving Repr, DecidableEq

namespace Window

/-- The window before anything of a source is read. -/
def ofSource (source : Source) : Window :=
  { size := source.blocks.foldr (· + ·) 0
    ready := 0
    blocks := source.blocks
    sound := source.sound
    marked := false }

/-- The place of the first of some glyphs, which are the last ones of the file. -/
def placeOf (w : Window) (gs : List Glyph) : Nat :=
  gs.head?.elim w.size Glyph.index

/-- Reads blocks until `goal` characters have been read or the file ends. Gives the number of
characters read and the other blocks. -/
def fill (sound : Bool) (goal : Nat) : (ready : Nat) → List Nat → Option (Nat × List Nat)
  | ready, [] => if sound then some (ready + 1, []) else none
  | ready, size :: rest =>
    if goal ≤ ready + size then some (ready + size, rest) else fill sound goal (ready + size) rest

/-- The window after a look at the first `count` of some glyphs. A block that cannot be read is an
error. -/
def look (w : Window) (count : Nat) (gs : List Glyph) : Option Window :=
  if w.placeOf gs + count ≤ w.ready then some w
  else
    (fill w.sound (w.placeOf gs + count) w.ready w.blocks).map fun (ready, blocks) =>
      { w with ready := ready, blocks := blocks, marked := gs.head?.any Glyph.isOrderMark }

/-- The window after the glyphs before the place `stop` were passed over one by one. -/
def pass (stop : Nat) : Window → List Glyph → Option Window
  | w, [] => some w
  | w, g :: rest => do
    if g.index < stop then
      let w ← if g.isBreak then w.look 2 (g :: rest) else some w
      pass stop (← w.look 1 rest) rest
    else return w

/-- The number of characters looked at where a lexeme or a word starts. -/
def wordReach : Nat := 4

/-- The window after the glyphs before the place `stop` were passed over as parts of a scalar.
`afterBlank` tells whether white space stands before the first one. What follows the scalar is looked
at as a word if white space stands before it and its column is `bound` or more. -/
def passScalar (bound stop : Nat) : (afterBlank : Bool) → Window → List Glyph → Option Window
  | afterBlank, w, [] => if afterBlank then w.look wordReach [] else some w
  | afterBlank, w, g :: rest => do
    if stop ≤ g.index then
      if afterBlank && bound ≤ g.column then w.look wordReach (g :: rest) else some w
    else if g.isBlank then passScalar bound stop true (← w.look 1 rest) rest
    else if g.isBreak then
      let w ← w.look 2 (g :: rest)
      passScalar bound stop true (← w.look 1 rest) rest
    else
      let w ← if afterBlank then w.look wordReach (g :: rest) else some w
      passScalar bound stop false (← w.look 2 rest) rest

end Window

end Dynascope.Settings
