import Dynascope.Proofs.Number.Unsigned
import Dynascope.Proofs.Text.ReadQuoted
import Dynascope.Tree.Outline

/-!
# The words of a tree

The text of a tree is a sequence of words: parentheses, names, operators, words of its own such as
`call`, and constants. The words can be told from the text, whatever the strings in it contain.

* `Word`, `spell`: a word, and words on one line.
* `Word.Legible`: a word that can be told from what stands around it: a name or operator has no
  blank, parenthesis or quote in it and is not taken for a constant, and a number is finite and not
  negative.
* `spell_inj`: two sequences of legible words have different texts.
* `Expr.words`, `Stmt.words`: the words of a tree. Empty places have none.
* `Stmt.text_eq_spell`: the text of a tree is made of its words.
-/

namespace Dynascope

/-- A word in the text of a tree. -/
inductive Word where
  /-- An opening parenthesis. -/
  | left
  /-- A closing parenthesis. -/
  | right
  /-- A name, an operator, or a word that tells what stands in the parentheses. -/
  | plain (text : Text)
  /-- A constant. -/
  | constant (value : Literal)

namespace Word

/-- The text of a word. -/
def text : Word → Text
  | left => [0x28]
  | right => [0x29]
  | plain t => t
  | constant v => v.text

/-- Whether a word is an opening parenthesis. -/
def opens : Word → Bool
  | left => true
  | _ => false

/-- Whether a byte can be neither the end of a word nor a part of a string. -/
def isSolid (b : UInt8) : Bool :=
  b != 0x20 && b != 0x22 && b != 0x28 && b != 0x29

/-- A property that the other bytes do not have makes a byte solid. -/
theorem isSolid_of {p : UInt8 → Bool}
    (hp : p 0x20 = false ∧ p 0x22 = false ∧ p 0x28 = false ∧ p 0x29 = false) {b : UInt8}
    (h : p b = true) : isSolid b = true := by
  obtain ⟨hblank, hquote, hleft, hright⟩ := hp
  simp only [isSolid, Bool.and_eq_true, bne_iff_ne]
  refine ⟨⟨⟨?_, ?_⟩, ?_⟩, ?_⟩ <;> rintro rfl <;> simp_all

/-- The names of the constants that have one. -/
def reserved : List Text :=
  ["nil", "true", "false"]

/-- The word can be told from what stands around it. -/
def Legible : Word → Prop
  | left | right => True
  | plain t =>
    t ≠ [] ∧ t.all isSolid = true ∧ t.head?.any Text.isDigit = false ∧ t ∉ reserved
  | constant (.number x) => Number.Unsigned x
  | constant (.foreign _) => False
  | constant _ => True

end Word

/-- Words on one line. A blank stands before every word, except at the inner side of a parenthesis;
`inside` tells that an opening parenthesis stands before the words. -/
def spell : (inside : Bool) → List Word → Text
  | _, [] => []
  | _, .right :: ws => 0x29 :: spell false ws
  | inside, w :: ws => (if inside then [] else [0x20]) ++ (w.text ++ spell w.opens ws)

/-! ## Words are told from their text -/

theorem spell_cons {w : Word} (hw : w ≠ .right) (inside : Bool) (ws : List Word) :
    spell inside (w :: ws) = (if inside then [] else [0x20]) ++ (w.text ++ spell w.opens ws) := by
  cases w with
  | right => exact absurd rfl hw
  | left | plain _ | constant _ => rfl

/-- What follows a word that is not an opening parenthesis does not continue it. -/
theorem head_spell {ws : List Word} {b : UInt8} (h : b ∈ (spell false ws).head?) :
    Word.isSolid b = false := by
  match ws with
  | [] => cases h
  | .right :: ws | .left :: ws | .plain _ :: ws | .constant _ :: ws =>
    obtain rfl := Option.some.inj h
    decide

/-- Solid texts end where a byte follows that is not solid. -/
theorem solid_append_inj {s t u v : Text} (hs : ∀ b ∈ s, Word.isSolid b = true)
    (ht : ∀ b ∈ t, Word.isSolid b = true) (hu : ∀ b ∈ u.head?, Word.isSolid b = false)
    (hv : ∀ b ∈ v.head?, Word.isSolid b = false) (h : s ++ u = t ++ v) : s = t ∧ u = v := by
  have htake : ∀ {s u : Text}, (∀ b ∈ s, Word.isSolid b = true) →
      (∀ b ∈ u.head?, Word.isSolid b = false) → (s ++ u).takeWhile Word.isSolid = s := by
    intro s u hs hu
    rw [List.takeWhile_append_of_pos hs]
    cases u with
    | nil => exact List.append_nil s
    | cons b u =>
      rw [List.takeWhile_cons_of_neg (by rw [hu b rfl]; decide), List.append_nil]
  have heq : s = t := by rw [← htake hs hu, h, htake ht hv]
  subst heq
  exact ⟨rfl, List.append_cancel_left h⟩

namespace Word

/-- A word without quotes and parentheses. -/
structure Solid (w : Word) : Prop where
  nonempty : w.text ≠ []
  bytes : ∀ b ∈ w.text, isSolid b = true
  closed : w.opens = false

theorem solid_number {x : Float} (h : Number.Unsigned x) : (constant (.number x)).Solid where
  nonempty := by
    intro hnil
    have hhead := (Number.text_spec h).1.head
    rw [show Number.text x = [] from hnil] at hhead
    cases hhead
  bytes b hb := by
    rcases (Number.text_spec h).1.bytes b hb with hdigit | rfl
    · exact isSolid_of (by decide) hdigit
    · rfl
  closed := rfl

/-- The first byte of a word tells whether it is a parenthesis, a string or solid. -/
theorem Legible.front {w : Word} (h : w.Legible) (hw : w ≠ .right) :
    ∃ b t, w.text = b :: t ∧
      (w = .left ∧ b = 0x28 ∨ (∃ s, w = .constant (.string s)) ∧ b = 0x22 ∨
        w.Solid ∧ isSolid b = true) := by
  have hsolid : ∀ {w : Word}, w.Solid → ∃ b t, w.text = b :: t ∧
      (w = .left ∧ b = 0x28 ∨ (∃ s, w = .constant (.string s)) ∧ b = 0x22 ∨
        w.Solid ∧ isSolid b = true) := by
    intro w hw
    obtain ⟨b, t, ht⟩ := List.exists_cons_of_ne_nil hw.nonempty
    exact ⟨b, t, ht, .inr (.inr ⟨hw, hw.bytes b (ht ▸ List.mem_cons_self)⟩)⟩
  match w with
  | left => exact ⟨_, _, rfl, .inl ⟨rfl, rfl⟩⟩
  | right => exact absurd rfl hw
  | plain t => exact hsolid ⟨h.1, List.all_eq_true.mp h.2.1, rfl⟩
  | constant .nil => exact hsolid ⟨by decide, List.all_eq_true.mp (by decide), rfl⟩
  | constant (.bool b) =>
    cases b <;> exact hsolid ⟨by decide, List.all_eq_true.mp (by decide), rfl⟩
  | constant (.number x) => exact hsolid (solid_number h)
  | constant (.string s) => exact ⟨_, _, rfl, .inr (.inl ⟨⟨s, rfl⟩, rfl⟩)⟩
  | constant (.foreign _) => exact h.elim

/-- The constants that have a name. -/
def named : List Word :=
  [constant .nil, constant (.bool true), constant (.bool false)]

/-- A solid word is a name or operator, a number or a named constant; the first byte and the names
of constants tell which. -/
theorem Legible.look {w : Word} (h : w.Legible) (hw : w.Solid) :
    (∃ t, w = plain t ∧ t.head?.any Text.isDigit = false ∧ t ∉ reserved) ∨
    (∃ x, w = constant (.number x) ∧ Number.Unsigned x ∧
      w.text.head?.any Text.isDigit = true) ∨
    (w ∈ named ∧ w.text ∈ reserved) := by
  match w with
  | left => exact absurd hw.closed (by decide)
  | right => exact absurd (hw.bytes 0x29 (List.mem_singleton_self _)) (by decide)
  | plain t => exact .inl ⟨t, rfl, h.2.2⟩
  | constant .nil => exact .inr (.inr ⟨by simp [named], by decide⟩)
  | constant (.bool b) => cases b <;> exact .inr (.inr ⟨by simp [named], by decide⟩)
  | constant (.number x) => exact .inr (.inl ⟨x, rfl, h, (Number.text_spec h).1.head⟩)
  | constant (.string s) => exact absurd (hw.bytes Text.quote List.mem_cons_self) (by decide)
  | constant (.foreign _) => exact h.elim

theorem named_inj {w w' : Word} (hw : w ∈ named) (hw' : w' ∈ named) (h : w.text = w'.text) :
    w = w' := by
  simp only [named, List.mem_cons, List.not_mem_nil, or_false] at hw hw'
  rcases hw with rfl | rfl | rfl <;> rcases hw' with rfl | rfl | rfl <;>
    first | rfl | exact absurd h (by decide)

/-- Solid words are told by their texts. -/
theorem Legible.eq_of_text {w w' : Word} (h : w.Legible) (hw : w.Solid) (h' : w'.Legible)
    (hw' : w'.Solid) (heq : w.text = w'.text) : w = w' := by
  have hnames : ∀ t ∈ reserved, t.head?.any Text.isDigit = false := by
    have hall : reserved.all (fun t => !t.head?.any Text.isDigit) = true := by decide
    simpa using List.all_eq_true.mp hall
  rcases h.look hw with ⟨t, rfl, hhead, hname⟩ | ⟨x, rfl, hx, hhead⟩ | ⟨hmem, hname⟩
  · rcases h'.look hw' with ⟨t', rfl, -⟩ | ⟨y, rfl, -, hhead'⟩ | ⟨-, hname'⟩
    · exact congrArg plain heq
    · rw [← heq] at hhead'
      exact absurd hhead' (by rw [show (plain t).text = t from rfl, hhead]; decide)
    · exact absurd (heq ▸ hname' : (plain t).text ∈ reserved) hname
  · rcases h'.look hw' with ⟨t', rfl, hhead', -⟩ | ⟨y, rfl, hy, -⟩ | ⟨-, hname'⟩
    · rw [heq] at hhead
      exact absurd hhead (by rw [show (plain t').text = t' from rfl, hhead']; decide)
    · rw [Number.text_inj hx hy heq]
    · rw [heq, hnames _ hname'] at hhead
      cases hhead
  · rcases h'.look hw' with ⟨t', rfl, -, hname'⟩ | ⟨y, rfl, -, hhead'⟩ | ⟨hmem', -⟩
    · exact absurd (heq ▸ hname : (plain t').text ∈ reserved) hname'
    · rw [← heq, hnames _ hname] at hhead'
      cases hhead'
    · exact named_inj hmem hmem' heq

end Word

/-- A word is told from what follows it. -/
theorem word_append_inj {w w' : Word} {ws ws' : List Word} (hl : w.Legible) (hw : w ≠ .right)
    (hl' : w'.Legible) (hw' : w' ≠ .right)
    (h : w.text ++ spell w.opens ws = w'.text ++ spell w'.opens ws') :
    w = w' ∧ spell w.opens ws = spell w'.opens ws' := by
  obtain ⟨b, t, ht, hfront⟩ := hl.front hw
  obtain ⟨b', t', ht', hfront'⟩ := hl'.front hw'
  have hbyte : b = b' := by
    rw [ht, ht'] at h
    exact (List.cons.inj h).1
  subst hbyte
  rcases hfront with ⟨rfl, rfl⟩ | ⟨⟨s, rfl⟩, rfl⟩ | ⟨hs, hb⟩
  · obtain ⟨rfl, -⟩ | ⟨-, hb⟩ | ⟨-, hb⟩ := hfront'
    · exact ⟨rfl, List.append_cancel_left h⟩
    · exact absurd hb (by decide)
    · exact absurd hb (by decide)
  · obtain ⟨-, hb⟩ | ⟨⟨s', rfl⟩, -⟩ | ⟨-, hb⟩ := hfront'
    · exact absurd hb (by decide)
    · obtain ⟨rfl, hrest⟩ := Text.quoted_append_inj h
      exact ⟨rfl, hrest⟩
    · exact absurd hb (by decide)
  · obtain ⟨-, rfl⟩ | ⟨-, rfl⟩ | ⟨hs', -⟩ := hfront'
    · exact absurd hb (by decide)
    · exact absurd hb (by decide)
    · rw [hs.closed, hs'.closed] at h ⊢
      obtain ⟨htext, hrest⟩ :=
        solid_append_inj hs.bytes hs'.bytes (fun _ => head_spell) (fun _ => head_spell) h
      exact ⟨hl.eq_of_text hs hl' hs' htext, hrest⟩

/-- A word other than a closing parenthesis is not taken for one. -/
theorem spell_ne_right {w : Word} (hl : w.Legible) (hw : w ≠ .right) (inside : Bool)
    (ws : List Word) (t : Text) : spell inside (w :: ws) ≠ 0x29 :: t := by
  obtain ⟨b, u, hu, hfront⟩ := hl.front hw
  have hb : b ≠ 0x29 := by
    rintro rfl
    rcases hfront with ⟨-, hb⟩ | ⟨-, hb⟩ | ⟨-, hb⟩ <;> exact absurd hb (by decide)
  rw [spell_cons hw, hu]
  cases inside with
  | true => exact fun h => hb (List.cons.inj h).1
  | false => exact fun h => absurd (List.cons.inj h).1 (by decide)

theorem spell_ne_nil {w : Word} (hl : w.Legible) (inside : Bool) (ws : List Word) :
    spell inside (w :: ws) ≠ [] := by
  by_cases hw : w = .right
  · subst hw
    exact List.cons_ne_nil _ _
  · obtain ⟨b, u, hu, -⟩ := hl.front hw
    rw [spell_cons hw, hu]
    cases inside <;> exact List.cons_ne_nil _ _

/-- **Texts of words.** Two sequences of legible words with the same text are the same. -/
theorem spell_inj (inside : Bool) {ws ws' : List Word} (hws : ∀ w ∈ ws, w.Legible)
    (hws' : ∀ w ∈ ws', w.Legible) (h : spell inside ws = spell inside ws') : ws = ws' := by
  induction ws generalizing inside ws' with
  | nil =>
    cases ws' with
    | nil => rfl
    | cons w' ws' =>
      exact absurd h.symm (spell_ne_nil (hws' w' List.mem_cons_self) inside ws')
  | cons w ws ih =>
    obtain ⟨hl, hrest⟩ := List.forall_mem_cons.mp hws
    cases ws' with
    | nil => exact absurd h (spell_ne_nil hl inside ws)
    | cons w' ws' =>
      obtain ⟨hl', hrest'⟩ := List.forall_mem_cons.mp hws'
      by_cases hw : w = .right
      · subst hw
        by_cases hw' : w' = .right
        · subst hw'
          rw [ih false hrest hrest' (List.cons.inj h).2]
        · exact absurd h.symm (spell_ne_right hl' hw' inside ws' _)
      · by_cases hw' : w' = .right
        · subst hw'
          exact absurd h (spell_ne_right hl hw inside ws _)
        · rw [spell_cons hw, spell_cons hw'] at h
          obtain ⟨rfl, hafter⟩ := word_append_inj hl hw hl' hw' (List.append_cancel_left h)
          rw [ih _ hrest hrest' hafter]

/-! ## The words of a tree -/

/-- Words in parentheses. -/
def enclosed (ws : List Word) : List Word :=
  .left :: (ws ++ [.right])

/-- The words of names. -/
def nameWords (names : List Token) : List Word :=
  names.map fun t => .plain t.lexeme

/-- The words of the superclass of a class. -/
def superclassWords : Option Token → List Word
  | some t => [.plain "<", .plain t.lexeme]
  | none => []

mutual

/-- The words of an expression. -/
def Expr.words : Expr → List Word
  | .absent => []
  | .assign name value => enclosed (.plain "=" :: .plain name.lexeme :: value.words)
  | .binary left operator right => enclosed (.plain operator.lexeme :: (left.words ++ right.words))
  | .call callee _ arguments => enclosed (.plain "call" :: (callee.words ++ exprWords arguments))
  | .get object name => enclosed (.plain "." :: (nameWords name.toList ++ object.words))
  | .group inner => enclosed (.plain "group" :: inner.words)
  | .literal value => [.constant value]
  | .logical left operator right => enclosed (.plain operator.lexeme :: (left.words ++ right.words))
  | .set object name value =>
    enclosed (.plain "set" :: (nameWords name.toList ++ (object.words ++ value.words)))
  | .superMethod _ method => [.plain "super", .plain method.lexeme]
  | .receiver _ => [.plain "this"]
  | .unary operator right => enclosed (.plain operator.lexeme :: right.words)
  | .name name => [.plain name.lexeme]

/-- The words of expressions. -/
def exprWords : List Expr → List Word
  | [] => []
  | e :: es => e.words ++ exprWords es

end

mutual

/-- The words of a statement. -/
def Stmt.words : Stmt → List Word
  | .absent => []
  | .block body => enclosed (.plain "block" :: stmtWords body)
  | .classDecl name superclass methods =>
    enclosed (.plain "class" :: .plain name.lexeme :: (superclassWords superclass ++
      methodWords methods))
  | .expr e => enclosed (.plain "expr" :: e.words)
  | .funDecl decl => decl.words
  | .choice condition yes no =>
    enclosed (.plain "if" :: (condition.words ++ (yes.words ++ no.words)))
  | .ret _ value => enclosed (.plain "return" :: value.words)
  | .varDecl name initial => enclosed (.plain "var" :: .plain name.lexeme :: initial.words)
  | .loop condition body => enclosed (.plain "while" :: (condition.words ++ body.words))

/-- The words of a function declaration. -/
def FunDecl.words : FunDecl → List Word
  | ⟨_, name, params, body⟩ =>
    enclosed (.plain "fun" :: .plain name.lexeme :: (enclosed (nameWords params) ++ body.words))

/-- The words of statements. -/
def stmtWords : List Stmt → List Word
  | [] => []
  | s :: ss => s.words ++ stmtWords ss

/-- The words of methods. -/
def methodWords : List (Option FunDecl) → List Word
  | [] => []
  | none :: fs => methodWords fs
  | some f :: fs => f.words ++ methodWords fs

end

theorem textsOnto_append (os os' : List Outline) (after : Text) :
    Outline.textsOnto (os ++ os') after = Outline.textsOnto os (Outline.textsOnto os' after) := by
  induction os with
  | nil => rfl
  | cons o os ih => rw [List.cons_append, Outline.textsOnto, Outline.textsOnto, ih]

theorem above_eq_some_iff {label : Option Text} {below : Option (List Outline)}
    {os : List Outline} : Outline.above label below = some os ↔
      ∃ l, label = some l ∧ ∃ below', below = some below' ∧ [.node l false below'] = os := by
  simp [Outline.above, Option.bind_eq_some_iff]

/-- The outlines, if there are any, have the words as their text, whatever follows. -/
def Worded (outlines : Option (List Outline)) (ws : List Word) : Prop :=
  ∀ os, outlines = some os →
    ∀ rest, Outline.textsOnto os (spell false rest) = spell false (ws ++ rest)

theorem worded_nil : Worded (some []) [] := by
  rintro _ ⟨⟩ rest
  rfl

theorem worded_none (ws : List Word) : Worded none ws :=
  nofun

/-- A tree without parentheses. -/
theorem worded_bare {label : Text} {ws : List Word}
    (hlabel : ∀ rest, 0x20 :: (label ++ spell false rest) = spell false (ws ++ rest)) :
    Worded (Outline.alone (some label)) ws := by
  rintro _ ⟨⟩ rest
  exact hlabel rest

theorem Worded.both {first rest : Option (List Outline)} {ws ws' : List Word}
    (h : Worded first ws) (h' : Worded rest ws') :
    Worded (Outline.both first rest) (ws ++ ws') := by
  intro os hos after
  obtain ⟨os₁, hfirst, hos⟩ := Option.bind_eq_some_iff.mp hos
  obtain ⟨os₂, hrest, hos⟩ := Option.bind_eq_some_iff.mp hos
  obtain rfl := Option.some.inj hos
  rw [textsOnto_append, h' _ hrest, h _ hfirst, List.append_assoc]

/-- A tree whose label is made of words. -/
theorem Worded.above {label : Text} {below : Option (List Outline)} {front ws : List Word}
    (hlabel : ∀ rest, label ++ spell false rest = spell true (front ++ rest))
    (h : Worded below ws) : Worded (Outline.above (some label) below) (enclosed (front ++ ws)) := by
  intro os hos rest
  obtain ⟨_, ⟨⟩, os, hbelow, rfl⟩ := above_eq_some_iff.mp hos
  show 0x20 :: 0x28 :: (label ++ Outline.textsOnto os (0x29 :: spell false rest)) = _
  rw [show (0x29 :: spell false rest : Text) = spell false (.right :: rest) from rfl, h _ hbelow,
    hlabel]
  simp [enclosed, spell, Word.text, Word.opens]

theorem spell_plain (inside : Bool) (t : Text) (ws : List Word) :
    spell inside (.plain t :: ws) = (if inside then [] else [0x20]) ++ (t ++ spell false ws) :=
  rfl

/-- A label of one word. -/
theorem label_one (t : Text) (rest : List Word) :
    t ++ spell false rest = spell true ([.plain t] ++ rest) :=
  rfl

/-- A label of two words. -/
theorem label_two {label t : Text} (h : label = t ++ [0x20]) (u : Text) (rest : List Word) :
    label ++ u ++ spell false rest = spell true ([.plain t, .plain u] ++ rest) := by
  subst h
  simp [spell_plain]

theorem label_class (name : Token) (superclass : Option Token) (rest : List Word) :
    classLabel name superclass ++ spell false rest =
      spell true (.plain "class" :: .plain name.lexeme :: superclassWords superclass ++ rest) := by
  have hclass : ("class " : Text) = ("class" : Text) ++ [0x20] := by decide
  have hbelow : (" < " : Text) = 0x20 :: (("<" : Text) ++ [0x20]) := by decide
  unfold classLabel
  rw [hclass]
  cases superclass with
  | none => simp [spell_plain, superclassWords]
  | some t => simp [hbelow, spell_plain, superclassWords]

theorem join_names (names : List Token) (rest : List Word) :
    Text.join " " (names.map Token.lexeme) ++ 0x29 :: spell false rest =
      spell true (nameWords names ++ .right :: rest) := by
  have hblank : (" " : Text) = [0x20] := by decide
  have hmore : ∀ (t : Token) (ts : List Token),
      Text.join " " ((t :: ts).map Token.lexeme) ++ 0x29 :: spell false rest =
        t.lexeme ++ spell false (nameWords ts ++ .right :: rest) := by
    intro t ts
    induction ts generalizing t with
    | nil => simp [Text.join, nameWords, spell]
    | cons u ts ih =>
      rw [show nameWords (u :: ts) = .plain u.lexeme :: nameWords ts from rfl, List.cons_append,
        spell_plain, ← ih]
      simp [Text.join, hblank, List.intercalate]
  cases names with
  | nil => simp [Text.join, nameWords, spell]
  | cons t ts => exact hmore t ts

theorem label_function (decl : FunDecl) (rest : List Word) :
    decl.label ++ spell false rest =
      spell true (.plain "fun" :: .plain decl.name.lexeme :: enclosed (nameWords decl.params) ++
        rest) := by
  have hfun : ("fun " : Text) = ("fun" : Text) ++ [0x20] := by decide
  have hleft : (" (" : Text) = [0x20, 0x28] := by decide
  have hright : (")" : Text) = [0x29] := by decide
  have hparams := join_names decl.params rest
  unfold FunDecl.label
  rw [hfun, hleft, hright]
  simp [spell_plain, enclosed, spell, Word.text, Word.opens, ← hparams]

mutual

theorem Expr.worded : ∀ e : Expr, Worded e.outlines e.words
  | .absent => worded_nil
  | .assign name value => .above (label_two (by decide) name.lexeme) value.worded
  | .binary left operator right =>
    .above (label_one operator.lexeme) (left.worded.both right.worded)
  | .call callee _ arguments =>
    .above (label_one "call") (callee.worded.both (worded_exprs arguments))
  | .get _ none => worded_none _
  | .get object (some name) => .above (label_two (by decide) name.lexeme) object.worded
  | .group inner => .above (label_one "group") inner.worded
  | .literal value => worded_bare fun _ => rfl
  | .logical left operator right =>
    .above (label_one operator.lexeme) (left.worded.both right.worded)
  | .set _ none _ => worded_none _
  | .set object (some name) value =>
    .above (label_two (by decide) name.lexeme) (object.worded.both value.worded)
  | .superMethod _ method => worded_bare fun rest =>
    congrArg (0x20 :: ·) (label_two
      (show ("super " : Text) = ("super" : Text) ++ [0x20] by decide) method.lexeme rest)
  | .receiver _ => worded_bare fun _ => rfl
  | .unary operator right => .above (label_one operator.lexeme) right.worded
  | .name name => worded_bare fun _ => rfl

theorem worded_exprs : ∀ es : List Expr, Worded (outlinesAll es) (exprWords es)
  | [] => worded_nil
  | e :: es => e.worded.both (worded_exprs es)

end

mutual

theorem Stmt.worded : ∀ s : Stmt, Worded s.outlines s.words
  | .absent => worded_nil
  | .block body => .above (label_one "block") (worded_stmts body)
  | .classDecl name superclass methods =>
    .above (label_class name superclass) (worded_methods methods)
  | .expr e => .above (label_one "expr") e.worded
  | .funDecl decl => decl.worded
  | .choice condition yes no =>
    .above (label_one "if") (condition.worded.both (yes.worded.both no.worded))
  | .ret _ value => .above (label_one "return") value.worded
  | .varDecl name initial => .above (label_two (by decide) name.lexeme) initial.worded
  | .loop condition body => .above (label_one "while") (condition.worded.both body.worded)

theorem FunDecl.worded : ∀ f : FunDecl, Worded f.outlines f.words
  | ⟨site, name, params, body⟩ => .above (label_function ⟨site, name, params, body⟩) body.worded

theorem worded_stmts : ∀ ss : List Stmt, Worded (blockOutlines ss) (stmtWords ss)
  | [] => worded_nil
  | s :: ss => s.worded.both (worded_stmts ss)

theorem worded_methods : ∀ fs : List (Option FunDecl), Worded (methodOutlines fs) (methodWords fs)
  | [] => worded_nil
  | none :: _ => worded_none _
  | some f :: fs => f.worded.both (worded_methods fs)

end

/-- A place in which something stands has one outline, if it has any. -/
theorem Expr.outlines_eq_some {e : Expr} {os : List Outline} (he : e ≠ .absent)
    (h : e.outlines = some os) : ∃ o, os = [o] := by
  cases e with
  | absent => exact absurd rfl he
  | literal | superMethod | receiver | name =>
    obtain rfl := Option.some.inj h
    exact ⟨_, rfl⟩
  | _ =>
    obtain ⟨label, -, below, -, rfl⟩ := above_eq_some_iff.mp h
    exact ⟨_, rfl⟩

theorem FunDecl.outlines_eq_some {f : FunDecl} {os : List Outline} (h : f.outlines = some os) :
    ∃ o, os = [o] := by
  obtain ⟨site, name, params, body⟩ := f
  obtain ⟨label, -, below, -, rfl⟩ := above_eq_some_iff.mp h
  exact ⟨_, rfl⟩

theorem Stmt.outlines_eq_some {s : Stmt} {os : List Outline} (hs : s ≠ .absent)
    (h : s.outlines = some os) : ∃ o, os = [o] := by
  cases s with
  | absent => exact absurd rfl hs
  | funDecl decl => exact FunDecl.outlines_eq_some h
  | _ =>
    obtain ⟨label, -, below, -, rfl⟩ := above_eq_some_iff.mp h
    exact ⟨_, rfl⟩

/-- The text of a tree is made of its words. -/
theorem Stmt.text_eq_spell {s : Stmt} {t : Text} (hs : s ≠ .absent) (h : s.text = some t) :
    0x20 :: t = spell false s.words := by
  obtain ⟨o, ho, rfl⟩ := Option.map_eq_some_iff.mp h
  obtain ⟨os, hos, rfl⟩ := Option.map_eq_some_iff.mp ho
  obtain ⟨o, rfl⟩ := Stmt.outlines_eq_some hs hos
  have hworded := s.worded _ hos []
  rwa [List.append_nil] at hworded

end Dynascope
