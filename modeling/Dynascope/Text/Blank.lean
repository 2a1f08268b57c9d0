import Dynascope.Text.Basic

/-!
# White space around a text

* `whiteSpace`: the characters with the Unicode property White_Space, as UTF-8 bytes.
* `trim`: a text without white space at its two ends.
-/

namespace Dynascope.Text

/-- The UTF-8 forms of the white space characters: tab to carriage return, blank, U+0085, U+00A0,
U+1680, U+2000 to U+200A, U+2028, U+2029, U+202F, U+205F and U+3000. -/
def whiteSpace : List Text :=
  [[0x09], [0x0a], [0x0b], [0x0c], [0x0d], [0x20], [0xc2, 0x85], [0xc2, 0xa0], [0xe1, 0x9a, 0x80],
   [0xe2, 0x80, 0x80], [0xe2, 0x80, 0x81], [0xe2, 0x80, 0x82], [0xe2, 0x80, 0x83],
   [0xe2, 0x80, 0x84], [0xe2, 0x80, 0x85], [0xe2, 0x80, 0x86], [0xe2, 0x80, 0x87],
   [0xe2, 0x80, 0x88], [0xe2, 0x80, 0x89], [0xe2, 0x80, 0x8a], [0xe2, 0x80, 0xa8],
   [0xe2, 0x80, 0xa9], [0xe2, 0x80, 0xaf], [0xe2, 0x81, 0x9f], [0xe3, 0x80, 0x80]]

/-- Drops members of `forms` from the front of a text, at most `fuel` of them. -/
def dropForms (forms : List Text) : (fuel : Nat) → Text → Text
  | 0, t => t
  | n + 1, t =>
    match forms.findSome? (dropStart? · t) with
    | some rest => dropForms forms n rest
    | none => t

/-- A text without the white space at its front. -/
def trimStart (t : Text) : Text :=
  dropForms whiteSpace t.length t

/-- A text without the white space at its end. -/
def trimEnd (t : Text) : Text :=
  (dropForms (whiteSpace.map List.reverse) t.length t.reverse).reverse

/-- A text without the white space at its two ends. -/
def trim (t : Text) : Text :=
  trimEnd (trimStart t)

end Dynascope.Text
