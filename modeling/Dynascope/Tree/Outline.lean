import Dynascope.Tree.Basic

/-!
# Outlines of trees

An outline keeps of a tree its labels and which node stands below which. Empty places are left out,
but the place of a missing method is not. It has no label, and neither has a property without a
name; a tree with such a node in it has no outline.

* `Expr.label`, `Stmt.label`: what is written of a node itself.
* `Outline`: a label and the outlines below it; a *bare* node is written without parentheses.
* `Outline.text`: the outline on one line, as an s-expression.
* `Outline.items`: the outline as labels with levels, each node before the nodes below it.
* `Expr.outlines`, `Stmt.outlines`: the outline of a tree, or nothing for an empty place.
* `Expr.outline`, `Stmt.outline`: the outline of a tree, an empty place labelled too.
* `Stmt.text`, `programItems`: how statements are written and displayed, if they have outlines.
-/

namespace Dynascope

/-- The labels of a tree. -/
inductive Outline where
  | node (label : Text) (bare : Bool) (children : List Outline)
  deriving Repr

namespace Outline

/-- The label at the top. -/
def label : Outline → Text
  | node label _ _ => label

/-- The outlines directly below the top. -/
def children : Outline → List Outline
  | node _ _ children => children

/-- The outline of an empty place. -/
def empty : Outline :=
  node "nil" true []

mutual

/-- An outline on one line, followed by `after`: a label in parentheses with what stands below it. -/
def textOnto : Outline → (after : Text) → Text
  | node label bare children, after =>
    if bare then label ++ after else 0x28 :: (label ++ textsOnto children (0x29 :: after))

/-- Outlines on one line, each after a blank, followed by `after`. -/
def textsOnto : List Outline → (after : Text) → Text
  | [], after => after
  | o :: rest, after => 0x20 :: o.textOnto (textsOnto rest after)

end

/-- An outline on one line: a label in parentheses with what stands below it. A bare label has no
parentheses. -/
def text (o : Outline) : Text :=
  o.textOnto []

mutual

/-- The labels with their levels, each node before the nodes below it, followed by `after`; `level`
is that of the top. -/
def itemsOnto (level : Nat) : Outline → (after : List (Nat × Text)) → List (Nat × Text)
  | node label _ children, after => (level, label) :: listItemsOnto (level + 1) children after

/-- The labels of outlines of one level, one outline after the other, followed by `after`. -/
def listItemsOnto (level : Nat) :
    List Outline → (after : List (Nat × Text)) → List (Nat × Text)
  | [], after => after
  | o :: rest, after => o.itemsOnto level (listItemsOnto level rest after)

end

/-- The labels with their levels, each node before the nodes below it; `level` is that of the top. -/
def items (level : Nat) (o : Outline) : List (Nat × Text) :=
  o.itemsOnto level []

/-- The outline of a node that is written without parentheses. -/
def alone (label : Option Text) : Option (List Outline) :=
  label.map fun label => [node label true []]

/-- The outline of a node that is written in parentheses, from those of its places. -/
def above (label : Option Text) (below : Option (List Outline)) : Option (List Outline) := do
  return [node (← label) false (← below)]

/-- The outlines of two places, or of the one and then of the other part of a list. -/
def both (first rest : Option (List Outline)) : Option (List Outline) := do
  return (← first) ++ (← rest)

end Outline

/-! ## Labels -/

/-- What is written of an expression itself. A property without a name has no label. -/
def Expr.label : Expr → Option Text
  | .absent => some "nil"
  | .assign x _ => some (("= " : Text) ++ x.lexeme)
  | .binary _ operator _ | .logical _ operator _ | .unary operator _ => some operator.lexeme
  | .call .. => some "call"
  | .get _ x => x.map fun x => (". " : Text) ++ x.lexeme
  | .group _ => some "group"
  | .literal value => some value.text
  | .set _ x _ => x.map fun x => ("set " : Text) ++ x.lexeme
  | .superMethod _ method => some (("super " : Text) ++ method.lexeme)
  | .receiver _ => some "this"
  | .name x => some x.lexeme

/-- The label of a function declaration: its name and its parameters. -/
def FunDecl.label (decl : FunDecl) : Text :=
  ("fun " : Text) ++ decl.name.lexeme ++ (" (" : Text) ++
    Text.join (" " : Text) (decl.params.map Token.lexeme) ++ (")" : Text)

/-- The label of a class declaration: its name and that of its superclass. -/
def classLabel (name : Token) (superclass : Option Token) : Text :=
  ("class " : Text) ++ name.lexeme ++
    match superclass with
    | some t => (" < " : Text) ++ t.lexeme
    | none => []

/-- What is written of a statement itself. -/
def Stmt.label : Stmt → Text
  | .absent => "nil"
  | .block _ => "block"
  | .classDecl name superclass _ => classLabel name superclass
  | .expr _ => "expr"
  | .funDecl decl => decl.label
  | .choice .. => "if"
  | .ret .. => "return"
  | .varDecl x _ => ("var " : Text) ++ x.lexeme
  | .loop .. => "while"

/-! ## Outlines of trees -/

open Outline

mutual

/-- The outline of an expression, or nothing for an empty place. -/
def Expr.outlines : Expr → Option (List Outline)
  | .absent => some []
  | e@(.assign _ value) => above e.label value.outlines
  | e@(.binary left _ right) => above e.label (both left.outlines right.outlines)
  | e@(.call callee _ arguments) => above e.label (both callee.outlines (outlinesAll arguments))
  | e@(.get object _) => above e.label object.outlines
  | e@(.group inner) => above e.label inner.outlines
  | e@(.logical left _ right) => above e.label (both left.outlines right.outlines)
  | e@(.set object _ value) => above e.label (both object.outlines value.outlines)
  | e@(.unary _ right) => above e.label right.outlines
  | e@(.literal _) | e@(.superMethod ..) | e@(.receiver _) | e@(.name _) => alone e.label

/-- The outlines of expressions, empty places left out. -/
def outlinesAll : List Expr → Option (List Outline)
  | [] => some []
  | e :: rest => both e.outlines (outlinesAll rest)

end

mutual

/-- The outline of a statement, or nothing for an empty place. -/
def Stmt.outlines : Stmt → Option (List Outline)
  | .absent => some []
  | s@(.block body) => above s.label (blockOutlines body)
  | s@(.classDecl _ _ methods) => above s.label (methodOutlines methods)
  | s@(.expr e) => above s.label e.outlines
  | .funDecl decl => decl.outlines
  | s@(.choice condition yes no) =>
    above s.label (both condition.outlines (both yes.outlines no.outlines))
  | s@(.ret _ value) => above s.label value.outlines
  | s@(.varDecl _ initial) => above s.label initial.outlines
  | s@(.loop condition body) => above s.label (both condition.outlines body.outlines)

/-- The outline of a function declaration. -/
def FunDecl.outlines : FunDecl → Option (List Outline)
  | decl@⟨_, _, _, body⟩ => above decl.label body.outlines

/-- The outlines of the statements of a block. -/
def blockOutlines : List Stmt → Option (List Outline)
  | [] => some []
  | s :: rest => both s.outlines (blockOutlines rest)

/-- The outlines of the methods of a class. The place of a missing one is not left out. -/
def methodOutlines : List (Option FunDecl) → Option (List Outline)
  | [] => some []
  | none :: _ => none
  | some f :: rest => both f.outlines (methodOutlines rest)

end

/-- The outline of an expression; an empty place is labelled too. -/
def Expr.outline (e : Expr) : Option Outline :=
  e.outlines.map fun os => os.head?.getD .empty

/-- The outline of a statement; an empty place is labelled too. -/
def Stmt.outline (s : Stmt) : Option Outline :=
  s.outlines.map fun os => os.head?.getD .empty

/-- A statement on one line. -/
def Stmt.text (s : Stmt) : Option Text :=
  s.outline.map Outline.text

/-- The labels of a program with their levels. -/
def programItems (program : List Stmt) : Option (List (Nat × Text)) :=
  (program.mapM Stmt.outline).map fun os => Outline.listItemsOnto 0 os []

end Dynascope
