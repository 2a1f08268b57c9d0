import Dynascope.Display.Markup

/-!
# Forests

A list of texts with levels is shown as a forest, drawn with lines.

* `Branch`: a text and the branches below it.
* `Branch.ofItems`: the forest of a list of texts with levels. An item stands below the last one
  before it that has a lower level.
* `Branch.drawing`: the lines of a forest, without markup.
-/

namespace Dynascope

/-- A text and what stands below it. -/
inductive Branch where
  | node (text : Text) (children : List Branch)
  deriving Repr

namespace Branch

/-- The text at the top. -/
def text : Branch → Text
  | node text _ => text

/-- The branches directly below the top. -/
def children : Branch → List Branch
  | node _ children => children

/-- The forest of a list of texts with levels: the items that follow an item with higher levels
stand below it. -/
def ofItems : List (Nat × Text) → List Branch
  | [] => []
  | (level, text) :: rest =>
    node text (ofItems (rest.takeWhile fun item => level < item.1)) ::
      ofItems (rest.dropWhile fun item => level < item.1)
termination_by items => items.length
decreasing_by
  · have h : (rest.takeWhile fun item => decide (level < item.1)).length ≤ rest.length :=
      (List.takeWhile_prefix _).length_le
    simp only [List.length_cons]
    omega
  · have h : (rest.dropWhile fun item => decide (level < item.1)).length ≤ rest.length :=
      (List.dropWhile_suffix _).length_le
    simp only [List.length_cons]
    omega

/-- The lines that lead to a text: `last` tells whether it is the last one of its level, `bare`
whether nothing stands below it. -/
def lead (last bare : Bool) : Text :=
  (if last then ("└" : Text) else ("├" : Text)) ++ (if bare then ("──" : Text) else ("─┬" : Text))

/-- How far the branches below a text are moved to the right. The line of a level goes on as long as
there are further texts. -/
def margin (last : Bool) : Text :=
  if last then ("  " : Text) else ("│ " : Text)

mutual

/-- A branch as lines, each after `before`, followed by `after`. Texts are shown without markup. -/
def drawOnto (before : Text) (last : Bool) : Branch → (after : Text) → Text
  | node text children, after =>
    before ++ lead last children.isEmpty ++ text.clearMarkup ++
      Text.newline :: drawAllOnto (before ++ margin last) children after

/-- The branches of one level as lines, each after `before`, followed by `after`. -/
def drawAllOnto (before : Text) : List Branch → (after : Text) → Text
  | [], after => after
  | b :: rest, after => b.drawOnto before rest.isEmpty (drawAllOnto before rest after)

end

/-- A forest as lines, followed by an empty line. Tags that are left are cleared four times on the
whole. -/
def drawing (forest : List Branch) : Text :=
  (drawAllOnto [] forest [Text.newline]).clearTagsTimes 4

end Branch

end Dynascope
