import Dynascope.Display.Markup

/-!
# Messages

* `labelled`: a message of a session: its lines stand to the right of a label, without markup.
* `infoLine`, `errorLine`: the two kinds of such messages.
* `redLine`: a message of a script, in red where colours are shown.
-/

namespace Dynascope

/-- A text without the newlines at its end. -/
def Text.dropNewlinesEnd (t : Text) : Text :=
  (t.reverse.dropWhile (· = newline)).reverse

/-- A message: the first line after the label, the others below the first. A text that ends with
newlines is followed by an empty line. Lines are shown without markup; tags are cleared before the
lines are taken apart, and five times on the whole. -/
def labelled (label text : Text) : Text :=
  let text := text.clearTags
  let indented (line : Text) : Text :=
    Text.newline :: Text.blanks (label.length + 3) ++ line.clearMarkup
  let ending : Text := if text.getLast? = some Text.newline then [Text.newline] else []
  match text.dropNewlinesEnd.lines with
  | [] => []
  | first :: others =>
    ((" " : Text) ++ label ++ ("  " : Text) ++ first.clearMarkup ++ others.flatMap indented ++
      ending ++ [Text.newline]).clearTagsTimes 5

/-- A message about what was done. -/
def infoLine (text : Text) : Text :=
  labelled "  >>" text

/-- A message about an error. -/
def errorLine (text : Text) : Text :=
  labelled "  Error" text

/-- A line in red, or as it is if colours are off. -/
def redLine (coloured : Bool) (text : Text) : Text :=
  if coloured then ("\x1b[31m" : Text) ++ text ++ ("\x1b[0m\n" : Text) else text ++ [Text.newline]

end Dynascope
