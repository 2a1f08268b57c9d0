import Dynascope.Proofs.Tree.Words
import Dynascope.Tree.Grammar

/-!
# Reading trees back from their words

The words after an opening parenthesis tell the kind of a tree, and the names that belong to it.
What follows up to the closing parenthesis are its parts; how many there are tells which of the
optional places are empty, and whether an operator has one operand or two.

* `Expr.unplaced`, `Stmt.unplaced`: a tree without the positions of its tokens.
* `Part`: an expression or a statement, or the place of a missing method.
* `readHead`, `Head.tree?`: what stands after an opening parenthesis, and the tree with the given
  parts.
* `readPart`: the tree at the front of words.
* `Part.Legible`: the words of a tree can be told from its text, and the tree from its words.
* `legible_node`: a tree in parentheses is legible if its parts are.
-/

namespace Dynascope

/-! ## Trees without positions -/

/-- A token without its position. -/
def Token.unplaced (t : Token) : Token :=
  { t with position := .start }

mutual

/-- An expression without the positions of its tokens. -/
def Expr.unplaced : Expr → Expr
  | .absent => .absent
  | .assign name value => .assign name.unplaced value.unplaced
  | .binary left operator right => .binary left.unplaced operator.unplaced right.unplaced
  | .call callee paren arguments =>
    .call callee.unplaced (paren.map Token.unplaced) (unplacedExprs arguments)
  | .get object name => .get object.unplaced (name.map Token.unplaced)
  | .group inner => .group inner.unplaced
  | .literal value => .literal value
  | .logical left operator right => .logical left.unplaced operator.unplaced right.unplaced
  | .set object name value =>
    .set object.unplaced (name.map Token.unplaced) value.unplaced
  | .superMethod keyword method => .superMethod (keyword.map Token.unplaced) method.unplaced
  | .receiver keyword => .receiver (keyword.map Token.unplaced)
  | .unary operator right => .unary operator.unplaced right.unplaced
  | .name name => .name name.unplaced

/-- Expressions without the positions of their tokens. -/
def unplacedExprs : List Expr → List Expr
  | [] => []
  | e :: es => e.unplaced :: unplacedExprs es

end

mutual

/-- A statement without the positions of its tokens. -/
def Stmt.unplaced : Stmt → Stmt
  | .absent => .absent
  | .block body => .block (unplacedStmts body)
  | .classDecl name superclass methods =>
    .classDecl name.unplaced (superclass.map Token.unplaced) (unplacedMethods methods)
  | .expr e => .expr e.unplaced
  | .funDecl decl => .funDecl decl.unplaced
  | .choice condition yes no => .choice condition.unplaced yes.unplaced no.unplaced
  | .ret keyword value => .ret (keyword.map Token.unplaced) value.unplaced
  | .varDecl name initial => .varDecl name.unplaced initial.unplaced
  | .loop condition body => .loop condition.unplaced body.unplaced

/-- A declaration without the positions of its tokens. -/
def FunDecl.unplaced : FunDecl → FunDecl
  | ⟨site, name, params, body⟩ =>
    ⟨site, name.unplaced, params.map Token.unplaced, body.unplaced⟩

/-- Statements without the positions of their tokens. -/
def unplacedStmts : List Stmt → List Stmt
  | [] => []
  | s :: ss => s.unplaced :: unplacedStmts ss

/-- Methods without the positions of their tokens. -/
def unplacedMethods : List (Option FunDecl) → List (Option FunDecl)
  | [] => []
  | none :: ms => none :: unplacedMethods ms
  | some m :: ms => some m.unplaced :: unplacedMethods ms

end

/-! ## Parts of a tree -/

/-- A part of a tree. -/
inductive Part where
  | expr (e : Expr)
  | stmt (s : Stmt)
  /-- The place of a method that is missing. -/
  | missing

namespace Part

/-- The words of a part. -/
@[simp] def words : Part → List Word
  | expr e => e.words
  | stmt s => s.words
  | missing => []

/-- A part without the positions of its tokens. -/
@[simp] def unplaced : Part → Part
  | expr e => expr e.unplaced
  | stmt s => stmt s.unplaced
  | missing => missing

/-- The expression that a part is. -/
def expr? : Part → Option Expr
  | expr e => some e
  | _ => none

/-- The statement that a part is. -/
def stmt? : Part → Option Stmt
  | stmt s => some s
  | _ => none

/-- The declaration of a function that a part is. -/
def decl? : Part → Option FunDecl
  | stmt (.funDecl d) => some d
  | _ => none

end Part

/-- The words of parts. -/
def partWords (ps : List Part) : List Word :=
  ps.flatMap Part.words

@[simp] theorem partWords_nil : partWords [] = [] :=
  rfl

@[simp] theorem partWords_cons (p : Part) (ps : List Part) :
    partWords (p :: ps) = p.words ++ partWords ps :=
  rfl

/-! ## Heads -/

/-- The token of an operator, a delimiter or a keyword. -/
def Token.ofKind (k : Kind) : Token :=
  ⟨k, k.name, none, .start⟩

/-- The token of a name. -/
def Token.ofName (x : Text) : Token :=
  ⟨.identifier, x, none, .start⟩

/-- What tells the kind of a tree in parentheses, with the names that belong to it. -/
inductive Head where
  | assign (name : Text)
  | get (name : Text)
  | set (name : Text)
  | call
  | group
  | operator (kind : Kind)
  | block
  | classDecl (name : Text) (superclass : Option Text)
  | expr
  | function (name : Text) (params : List Text)
  | choice
  | ret
  | var (name : Text)
  | loop
  deriving DecidableEq

/-- Names up to a closing parenthesis. -/
def readNames : List Word → Option (List Text × List Word)
  | .plain x :: ws => (readNames ws).map fun (xs, ws) => (x :: xs, ws)
  | .right :: ws => some ([], ws)
  | _ => none

/-- The head with a word that a name follows. -/
def readNamed (t x : Text) (ws : List Word) : Option (Head × List Word) :=
  if t = "=" then some (.assign x, ws)
  else if t = "." then some (.get x, ws)
  else if t = "set" then some (.set x, ws)
  else if t = "var" then some (.var x, ws)
  else if t = "class" then
    match ws with
    | .plain _ :: .plain superclass :: ws => some (.classDecl x (some superclass), ws)
    | ws => some (.classDecl x none, ws)
  else if t = "fun" then
    match ws with
    | .left :: ws => (readNames ws).map fun (params, ws) => (.function x params, ws)
    | _ => none
  else none

/-- The operators of expressions. -/
def operationKinds : List Kind :=
  [.kwOr, .kwAnd, .bangEqual, .equalEqual, .greater, .greaterEqual, .less, .lessEqual, .minus,
   .plus, .slash, .star, .bang]

/-- The head of a word that no name follows. -/
def headOf? (t : Text) : Option Head :=
  if t = "call" then some .call
  else if t = "group" then some .group
  else if t = "block" then some .block
  else if t = "expr" then some .expr
  else if t = "if" then some .choice
  else if t = "return" then some .ret
  else if t = "while" then some .loop
  else (operationKinds.find? fun k => k.name = t).map .operator

/-- The head at the front of words. -/
def readHead : List Word → Option (Head × List Word)
  | .plain t :: ws =>
    match headOf? t, ws with
    | some head, ws => some (head, ws)
    | none, .plain x :: ws => readNamed t x ws
    | none, _ => none
  | _ => none

/-- The tree with a head and parts. -/
def Head.tree? : Head → List Part → Option Part
  | assign x, [.expr v] => some (.expr (.assign (.ofName x) v))
  | get x, [.expr o] => some (.expr (.get o (some (.ofName x))))
  | set x, [.expr o, .expr v] => some (.expr (.set o (some (.ofName x)) v))
  | call, .expr c :: ps =>
    (ps.mapM Part.expr?).map fun es => .expr (.call c (some (.ofKind .rightParen)) es)
  | group, [.expr e] => some (.expr (.group e))
  | operator k, [.expr r] => some (.expr (.unary (.ofKind k) r))
  | operator k, [.expr l, .expr r] =>
    some (.expr (if k = .kwOr ∨ k = .kwAnd then .logical l (.ofKind k) r
      else .binary l (.ofKind k) r))
  | block, ps => (ps.mapM Part.stmt?).map fun ss => .stmt (.block ss)
  | classDecl x superclass, ps =>
    (ps.mapM Part.decl?).map fun ms =>
      .stmt (.classDecl (.ofName x) (superclass.map .ofName) (ms.map some))
  | expr, [.expr e] => some (.stmt (.expr e))
  | function x xs, [.stmt body] => some (.stmt (.funDecl ⟨0, .ofName x, xs.map .ofName, body⟩))
  | choice, [.expr c, .stmt yes] => some (.stmt (.choice c yes .absent))
  | choice, [.expr c, .stmt yes, .stmt no] => some (.stmt (.choice c yes no))
  | ret, [] => some (.stmt (.ret (some (.ofKind .kwReturn)) .absent))
  | ret, [.expr v] => some (.stmt (.ret (some (.ofKind .kwReturn)) v))
  | var x, [] => some (.stmt (.varDecl (.ofName x) .absent))
  | var x, [.expr v] => some (.stmt (.varDecl (.ofName x) v))
  | loop, [.expr c, .stmt body] => some (.stmt (.loop c body))
  | _, _ => none

/-! ## The reader -/

/-- The expression without parentheses that starts with a word. -/
def readAtom (t : Text) (ws : List Word) : Option (Part × List Word) :=
  if t = "this" then some (.expr (.receiver (some (.ofKind .kwThis))), ws)
  else if t = "super" then
    match ws with
    | .plain x :: ws => some (.expr (.superMethod (some (.ofKind .kwSuper)) (.ofName x)), ws)
    | _ => none
  else some (.expr (.name (.ofName t)), ws)

/-- What follows a closing parenthesis. -/
def readRight : List Word → Option (List Word)
  | .right :: ws => some ws
  | _ => none

mutual

/-- The tree at the front of words, and what follows. -/
def readPart : (fuel : Nat) → List Word → Option (Part × List Word)
  | 0, _ => none
  | n + 1, .left :: ws => do
    let (head, ws) ← readHead ws
    let (parts, ws) ← readParts n ws
    return (← head.tree? parts, ws)
  | _ + 1, .plain t :: ws => readAtom t ws
  | _ + 1, .constant v :: ws => some (.expr (.literal v), ws)
  | _ + 1, _ => none

/-- The trees up to a closing parenthesis, and what follows it. -/
def readParts : (fuel : Nat) → List Word → Option (List Part × List Word)
  | 0, _ => none
  | n + 1, ws =>
    match readPart n ws with
    | some (p, ws) => (readParts n ws).map fun (ps, ws) => (p :: ps, ws)
    | none => (readRight ws).map fun ws => ([], ws)

end

/-- The words of the tree can be told from its text, and the tree from its words. Two units of fuel
for each word are enough: one for its tree, and one for the list in which the tree stands. -/
structure Part.Legible (p : Part) : Prop where
  words : ∀ w ∈ p.words, w.Legible
  read : ∀ n rest, 2 * p.words.length ≤ n → readPart n (p.words ++ rest) = some (p.unplaced, rest)

theorem Part.Legible.length_pos {p : Part} (h : p.Legible) : 0 < p.words.length := by
  refine List.length_pos_iff.mpr fun hnil => ?_
  have hread := h.read 1 [] (by rw [hnil]; decide)
  rw [hnil] at hread
  cases hread

/-- Legible trees up to a closing parenthesis are read one by one. -/
theorem readParts_words {ps : List Part} (hps : ∀ p ∈ ps, p.Legible) (n : Nat) (rest : List Word)
    (hn : 2 * (partWords ps).length + 1 ≤ n) :
    readParts n (partWords ps ++ .right :: rest) = some (ps.map Part.unplaced, rest) := by
  induction ps generalizing n with
  | nil =>
    obtain ⟨n, rfl⟩ := Nat.exists_eq_add_of_le' hn
    cases n <;> rfl
  | cons p ps ih =>
    obtain ⟨hp, hps⟩ := List.forall_mem_cons.mp hps
    have hpos := hp.length_pos
    rw [partWords_cons, List.length_append] at hn
    obtain ⟨n, rfl⟩ := Nat.exists_eq_add_of_le' (show 1 ≤ n by omega)
    rw [partWords_cons, List.append_assoc, readParts, hp.read n _ (by omega)]
    simp only [ih hps n (by omega)]
    rfl

theorem legible_enclosed {ws : List Word} (h : ∀ w ∈ ws, w.Legible) :
    ∀ w ∈ enclosed ws, w.Legible := by
  have hright : Word.right.Legible := trivial
  have hleft : Word.left.Legible := trivial
  exact List.forall_mem_cons.mpr
    ⟨hleft, List.forall_mem_append.mpr ⟨h, List.forall_mem_singleton.mpr hright⟩⟩

/-- **Trees in parentheses.** The words after the opening parenthesis are a head and the parts; the
head is read, whatever follows the tree, and makes the tree of its parts. -/
theorem legible_node {p : Part} (head : Head) (front : List Word) (parts : List Part)
    (hwords : p.words = enclosed (front ++ partWords parts)) (hfront : ∀ w ∈ front, w.Legible)
    (hhead : ∀ rest, readHead (front ++ (partWords parts ++ .right :: rest)) =
      some (head, partWords parts ++ .right :: rest))
    (hparts : ∀ q ∈ parts, q.Legible)
    (htree : head.tree? (parts.map Part.unplaced) = some p.unplaced) : p.Legible where
  words := by
    rw [hwords]
    refine legible_enclosed (List.forall_mem_append.mpr ⟨hfront, fun w hw => ?_⟩)
    obtain ⟨q, hq, hw⟩ := List.mem_flatMap.mp hw
    exact (hparts q hq).words w hw
  read n rest hn := by
    rw [hwords] at hn ⊢
    simp only [enclosed, List.length_cons, List.length_append] at hn
    obtain ⟨n, rfl⟩ := Nat.exists_eq_add_of_le' (show 1 ≤ n by omega)
    have hread := readParts_words hparts n rest (by omega)
    simp only [enclosed, List.cons_append, List.append_assoc, List.nil_append, readPart, hhead]
    simp [hread, htree]

/-- A tree without parentheses. -/
theorem legible_atom {p : Part} (w : Word) (ws : List Word) (hwords : p.words = w :: ws)
    (hlegible : ∀ v ∈ w :: ws, v.Legible)
    (hread : ∀ n rest, readPart (n + 1) (w :: (ws ++ rest)) = some (p.unplaced, rest)) :
    p.Legible where
  words := hwords ▸ hlegible
  read n rest hn := by
    rw [hwords, List.length_cons] at hn
    obtain ⟨n, rfl⟩ := Nat.exists_eq_add_of_le' (show 1 ≤ n by omega)
    rw [hwords]
    exact hread n rest

/-! ## Trees of each kind -/

instance (t : Text) : Decidable (Word.plain t).Legible :=
  inferInstanceAs (Decidable (_ ∧ _ ∧ _ ∧ _))

theorem exprWords_eq (es : List Expr) : exprWords es = partWords (es.map .expr) := by
  induction es with
  | nil => rfl
  | cons e es ih => rw [exprWords, ih]; rfl

theorem stmtWords_eq (ss : List Stmt) : stmtWords ss = partWords (ss.map .stmt) := by
  induction ss with
  | nil => rfl
  | cons s ss ih => rw [stmtWords, ih]; rfl

theorem methodWords_eq (ms : List FunDecl) :
    methodWords (ms.map some) = partWords (ms.map fun m => .stmt (.funDecl m)) := by
  induction ms with
  | nil => rfl
  | cons m ms ih => rw [List.map_cons, methodWords, ih]; rfl

theorem exprs_unplaced (es : List Expr) :
    ((es.map Part.expr).map Part.unplaced).mapM Part.expr? = some (unplacedExprs es) := by
  induction es with
  | nil => rfl
  | cons e es ih => rw [List.map_cons, List.map_cons, List.mapM_cons, ih]; rfl

theorem stmts_unplaced (ss : List Stmt) :
    ((ss.map Part.stmt).map Part.unplaced).mapM Part.stmt? = some (unplacedStmts ss) := by
  induction ss with
  | nil => rfl
  | cons s ss ih => rw [List.map_cons, List.map_cons, List.mapM_cons, ih]; rfl

theorem decls_unplaced (ms : List FunDecl) :
    ((ms.map fun m => Part.stmt (.funDecl m)).map Part.unplaced).mapM Part.decl? =
      some (ms.map FunDecl.unplaced) := by
  induction ms with
  | nil => rfl
  | cons m ms ih => rw [List.map_cons, List.map_cons, List.mapM_cons, ih]; rfl

theorem unplacedMethods_some (ms : List FunDecl) :
    unplacedMethods (ms.map some) = (ms.map FunDecl.unplaced).map some := by
  induction ms with
  | nil => rfl
  | cons m ms ih => rw [List.map_cons, unplacedMethods, ih]; rfl

/-- A name that is told from keywords, operators and constants. -/
structure Token.Named (t : Token) : Prop where
  unplaced : t.unplaced = .ofName t.lexeme
  legible : (Word.plain t.lexeme).Legible
  keyword : Kind.keyword? t.lexeme = none

/-- An operator, delimiter or keyword with its lexeme. -/
structure Token.Spelled (t : Token) : Prop where
  unplaced : t.unplaced = .ofKind t.kind

theorem Token.Spelled.lexeme {t : Token} (h : t.Spelled) : t.lexeme = t.kind.name :=
  congrArg Token.lexeme h.unplaced

-- one equation for all heads: those of the single cases are slow to come by
attribute [local simp] Head.tree?.eq_def

theorem legible_one {t : Text} (ht : (Word.plain t).Legible) : ∀ w ∈ [Word.plain t], w.Legible :=
  List.forall_mem_singleton.mpr ht

theorem legible_two {t x : Text} (ht : (Word.plain t).Legible) (hx : (Word.plain x).Legible) :
    ∀ w ∈ [Word.plain t, .plain x], w.Legible :=
  List.forall_mem_cons.mpr ⟨ht, List.forall_mem_singleton.mpr hx⟩

theorem legible_name {x : Token} (hx : x.Named) : (Part.expr (.name x)).Legible := by
  refine legible_atom (.plain x.lexeme) [] rfl (legible_one hx.legible) ?_
  intro n rest
  have hthis : x.lexeme ≠ "this" := fun h => absurd hx.keyword (by rw [h]; decide)
  have hsuper : x.lexeme ≠ "super" := fun h => absurd hx.keyword (by rw [h]; decide)
  show readAtom x.lexeme rest = some (.expr (.name x.unplaced), rest)
  unfold readAtom
  rw [if_neg hthis, if_neg hsuper, hx.unplaced]

theorem legible_literal {v : Literal} (hv : (Word.constant v).Legible) :
    (Part.expr (.literal v)).Legible :=
  legible_atom (.constant v) [] rfl (List.forall_mem_singleton.mpr hv) fun _ _ => rfl

theorem legible_receiver {keyword : Token} (hk : keyword.kind = .kwThis) (hs : keyword.Spelled) :
    (Part.expr (.receiver (some keyword))).Legible := by
  refine legible_atom (.plain "this") [] rfl (legible_one (by decide)) ?_
  intro n rest
  simp only [Part.unplaced, Expr.unplaced, Option.map_some, hs.unplaced, hk]
  rfl

theorem legible_superMethod {keyword x : Token} (hk : keyword.kind = .kwSuper)
    (hs : keyword.Spelled) (hx : x.Named) :
    (Part.expr (.superMethod (some keyword) x)).Legible := by
  refine legible_atom (.plain "super") [.plain x.lexeme] rfl
    (legible_two (by decide) hx.legible) ?_
  intro n rest
  simp only [Part.unplaced, Expr.unplaced, Option.map_some, hs.unplaced, hk, hx.unplaced]
  rfl

theorem legible_assign {x : Token} {v : Expr} (hx : x.Named) (hv : (Part.expr v).Legible) :
    (Part.expr (.assign x v)).Legible := by
  refine legible_node (.assign x.lexeme) [.plain "=", .plain x.lexeme] [.expr v] ?_
    (legible_two (by decide) hx.legible) (fun _ => rfl) (List.forall_mem_singleton.mpr hv) ?_
  · simp [Expr.words]
  · simp [Expr.unplaced, hx.unplaced]

theorem legible_get {x : Token} {o : Expr} (hx : x.Named) (ho : (Part.expr o).Legible) :
    (Part.expr (.get o (some x))).Legible := by
  refine legible_node (.get x.lexeme) [.plain ".", .plain x.lexeme] [.expr o] ?_
    (legible_two (by decide) hx.legible) (fun _ => rfl) (List.forall_mem_singleton.mpr ho) ?_
  · simp [Expr.words, nameWords]
  · simp [Expr.unplaced, hx.unplaced]

theorem legible_set {x : Token} {o v : Expr} (hx : x.Named) (ho : (Part.expr o).Legible)
    (hv : (Part.expr v).Legible) : (Part.expr (.set o (some x) v)).Legible := by
  refine legible_node (.set x.lexeme) [.plain "set", .plain x.lexeme] [.expr o, .expr v] ?_
    (legible_two (by decide) hx.legible) (fun _ => rfl) ?_ ?_
  · simp [Expr.words, nameWords]
  · exact List.forall_mem_cons.mpr ⟨ho, List.forall_mem_singleton.mpr hv⟩
  · simp [Expr.unplaced, hx.unplaced]

theorem legible_group {e : Expr} (he : (Part.expr e).Legible) :
    (Part.expr (.group e)).Legible := by
  refine legible_node .group [.plain "group"] [.expr e] ?_
    (legible_one (by decide)) (fun _ => rfl) (List.forall_mem_singleton.mpr he) ?_
  · simp [Expr.words]
  · simp [Expr.unplaced]

theorem legible_call {c : Expr} {paren : Token} {args : List Expr}
    (hk : paren.kind = .rightParen) (hs : paren.Spelled) (hc : (Part.expr c).Legible)
    (hargs : ∀ e ∈ args, (Part.expr e).Legible) :
    (Part.expr (.call c (some paren) args)).Legible := by
  refine legible_node .call [.plain "call"] (.expr c :: args.map .expr) ?_
    (legible_one (by decide)) (fun _ => rfl)
    (List.forall_mem_cons.mpr ⟨hc, List.forall_mem_map.mpr hargs⟩) ?_
  · simp [Expr.words, exprWords_eq]
  · have hparts := exprs_unplaced args
    have hparen : paren.unplaced = .ofKind .rightParen := by rw [hs.unplaced, hk]
    simp only [Head.tree?.eq_def, List.map_cons, Part.unplaced, Expr.unplaced, hparts, hparen,
      Option.map_some]

theorem Level.operators_subset (level : Level) : level.operators ⊆ operationKinds := by
  cases level <;> decide

/-- The operators are told by their lexemes. -/
theorem operator_told {k : Kind} (hk : k ∈ operationKinds) :
    (Word.plain k.name).Legible ∧ headOf? k.name = some (.operator k) := by
  revert k
  decide

theorem legible_operation {p : Part} {op : Token} (parts : List Part)
    (hk : op.kind ∈ operationKinds) (hs : op.Spelled)
    (hwords : p.words = enclosed (.plain op.lexeme :: partWords parts))
    (hparts : ∀ q ∈ parts, q.Legible)
    (htree : (Head.operator op.kind).tree? (parts.map Part.unplaced) = some p.unplaced) :
    p.Legible := by
  obtain ⟨hlegible, hhead⟩ := operator_told hk
  rw [hs.lexeme] at hwords
  refine legible_node (.operator op.kind) [.plain op.kind.name] parts hwords
    (legible_one hlegible) (fun rest => ?_) hparts htree
  simp [readHead, hhead]

theorem legible_unary {op : Token} {e : Expr} (hk : op.kind ∈ operationKinds) (hs : op.Spelled)
    (he : (Part.expr e).Legible) : (Part.expr (.unary op e)).Legible := by
  refine legible_operation [.expr e] hk hs ?_ (List.forall_mem_singleton.mpr he) ?_
  · simp [Expr.words]
  · simp [Expr.unplaced, hs.unplaced]

theorem Level.logical_iff {level : Level} {k : Kind} (h : k ∈ level.operators) :
    k = .kwOr ∨ k = .kwAnd ↔ level = .or ∨ level = .and := by
  cases level <;> revert k <;> decide

theorem Level.legible_node {level : Level} {op : Token} {left right : Expr}
    (hk : op.kind ∈ level.operators) (hs : op.Spelled) (hl : (Part.expr left).Legible)
    (hr : (Part.expr right).Legible) : (Part.expr (level.node left op right)).Legible := by
  refine legible_operation [.expr left, .expr right] (level.operators_subset hk) hs ?_
    (List.forall_mem_cons.mpr ⟨hl, List.forall_mem_singleton.mpr hr⟩) ?_
  · cases level <;> simp [Level.node, Expr.words]
  · simp only [List.map_cons, List.map_nil, Part.unplaced, Head.tree?.eq_def, Level.logical_iff hk]
    cases level <;> simp [Level.node, Expr.unplaced, hs.unplaced]

theorem legible_block {ss : List Stmt} (hss : ∀ s ∈ ss, (Part.stmt s).Legible) :
    (Part.stmt (.block ss)).Legible := by
  refine legible_node .block [.plain "block"] (ss.map .stmt) ?_
    (legible_one (by decide)) (fun _ => rfl) (List.forall_mem_map.mpr hss) ?_
  · simp [Stmt.words, stmtWords_eq]
  · simp only [Head.tree?.eq_def, stmts_unplaced, Option.map_some, Part.unplaced, Stmt.unplaced]

theorem legible_expr {e : Expr} (he : (Part.expr e).Legible) : (Part.stmt (.expr e)).Legible := by
  refine legible_node .expr [.plain "expr"] [.expr e] ?_
    (legible_one (by decide)) (fun _ => rfl) (List.forall_mem_singleton.mpr he) ?_
  · simp [Stmt.words]
  · simp [Stmt.unplaced]

theorem legible_choice {c : Expr} {yes no : Stmt} (hc : (Part.expr c).Legible)
    (hyes : (Part.stmt yes).Legible) (hno : no = .absent ∨ (Part.stmt no).Legible) :
    (Part.stmt (.choice c yes no)).Legible := by
  have hboth : ∀ q ∈ [Part.expr c, .stmt yes], q.Legible :=
    List.forall_mem_cons.mpr ⟨hc, List.forall_mem_singleton.mpr hyes⟩
  rcases hno with rfl | hno
  · refine legible_node .choice [.plain "if"] [.expr c, .stmt yes] ?_
      (legible_one (by decide)) (fun _ => rfl) hboth ?_
    · simp [Stmt.words]
    · simp [Stmt.unplaced]
  · refine legible_node .choice [.plain "if"] ([.expr c, .stmt yes] ++ [.stmt no]) ?_
      (legible_one (by decide)) (fun _ => rfl)
      (List.forall_mem_append.mpr ⟨hboth, List.forall_mem_singleton.mpr hno⟩) ?_
    · simp [Stmt.words]
    · simp [Stmt.unplaced]

theorem legible_loop {c : Expr} {body : Stmt} (hc : (Part.expr c).Legible)
    (hbody : (Part.stmt body).Legible) : (Part.stmt (.loop c body)).Legible := by
  refine legible_node .loop [.plain "while"] [.expr c, .stmt body] ?_
    (legible_one (by decide)) (fun _ => rfl)
    (List.forall_mem_cons.mpr ⟨hc, List.forall_mem_singleton.mpr hbody⟩) ?_
  · simp [Stmt.words]
  · simp [Stmt.unplaced]

theorem legible_ret {keyword : Token} {value : Option Expr} (hk : keyword.kind = .kwReturn)
    (hs : keyword.Spelled) (hvalue : ∀ e ∈ value, (Part.expr e).Legible) :
    (Part.stmt (.ret (some keyword) (value.getD .absent))).Legible := by
  refine legible_node .ret [.plain "return"] (value.toList.map .expr) ?_
    (legible_one (by decide)) (fun _ => rfl) ?_ ?_
  · cases value <;> simp [Stmt.words, Expr.words]
  · simpa using hvalue
  · cases value <;>
      simp [Stmt.unplaced, Expr.unplaced, hs.unplaced, hk]

theorem legible_varDecl {x : Token} {initial : Expr} (hx : x.Named)
    (hinitial : initial = .absent ∨ (Part.expr initial).Legible) :
    (Part.stmt (.varDecl x initial)).Legible := by
  rcases hinitial with rfl | hinitial
  · refine legible_node (.var x.lexeme) [.plain "var", .plain x.lexeme] [] ?_
      (legible_two (by decide) hx.legible) (fun _ => rfl) (List.forall_mem_nil _) ?_
    · simp [Stmt.words, Expr.words]
    · simp [Stmt.unplaced, Expr.unplaced, hx.unplaced]
  · refine legible_node (.var x.lexeme) [.plain "var", .plain x.lexeme] [.expr initial] ?_
      (legible_two (by decide) hx.legible) (fun _ => rfl)
      (List.forall_mem_singleton.mpr hinitial) ?_
    · simp [Stmt.words]
    · simp [Stmt.unplaced, hx.unplaced]

theorem readNames_words (xs : List Token) (ws : List Word) :
    readNames (nameWords xs ++ .right :: ws) = some (xs.map Token.lexeme, ws) := by
  induction xs with
  | nil => rfl
  | cons x xs ih =>
    show (readNames (nameWords xs ++ .right :: ws)).map _ = _
    rw [ih]
    rfl

theorem names_unplaced {xs : List Token} (h : ∀ x ∈ xs, x.Named) :
    (xs.map Token.lexeme).map .ofName = xs.map Token.unplaced := by
  rw [List.map_map]
  exact List.map_congr_left fun x hx => (h x hx).unplaced.symm

theorem legible_function {x : Token} {xs : List Token} {body : Stmt} (hx : x.Named)
    (hxs : ∀ y ∈ xs, y.Named) (hbody : (Part.stmt body).Legible) :
    (Part.stmt (.funDecl ⟨0, x, xs, body⟩)).Legible := by
  refine legible_node (.function x.lexeme (xs.map Token.lexeme))
    (.plain "fun" :: .plain x.lexeme :: enclosed (nameWords xs)) [.stmt body] ?_ ?_
    (fun rest => ?_) (List.forall_mem_singleton.mpr hbody) ?_
  · simp [Stmt.words, FunDecl.words]
  · exact List.forall_mem_append.mpr ⟨legible_two (by decide) hx.legible,
      legible_enclosed (List.forall_mem_map.mpr fun y hy => (hxs y hy).legible)⟩
  · simp only [enclosed, List.cons_append, List.append_assoc, List.nil_append]
    show (readNames _).map _ = _
    rw [readNames_words]
    rfl
  · show some (Part.stmt (.funDecl ⟨0, .ofName x.lexeme, (xs.map Token.lexeme).map .ofName, _⟩)) = _
    rw [names_unplaced hxs, ← hx.unplaced]
    rfl

theorem legible_classDecl {x : Token} {superclass : Option Token} {ms : List FunDecl}
    (hx : x.Named) (hs : ∀ y ∈ superclass, y.Named)
    (hms : ∀ m ∈ ms, (Part.stmt (.funDecl m)).Legible) :
    (Part.stmt (.classDecl x superclass (ms.map some))).Legible := by
  refine legible_node (.classDecl x.lexeme (superclass.map Token.lexeme))
    ([.plain "class", .plain x.lexeme] ++ superclassWords superclass)
    (ms.map fun m => .stmt (.funDecl m)) ?_ (List.forall_mem_append.mpr
      ⟨legible_two (by decide) hx.legible, ?_⟩) (fun rest => ?_) (List.forall_mem_map.mpr hms) ?_
  · simp [Stmt.words, methodWords_eq]
  · cases superclass with
    | none => exact List.forall_mem_nil _
    | some y => exact legible_two (by decide) (hs y rfl).legible
  · cases superclass with
    | some y => rfl
    | none =>
      -- a parenthesis follows, which is not taken for a superclass
      cases ms with
      | nil => rfl
      | cons m ms => cases m; rfl
  · have hsuper : (superclass.map Token.lexeme).map .ofName = superclass.map Token.unplaced := by
      cases superclass with
      | none => rfl
      | some y => exact congrArg some (hs y rfl).unplaced.symm
    simp only [Head.tree?.eq_def, decls_unplaced, Option.map_some, hsuper, Part.unplaced,
      Stmt.unplaced, unplacedMethods_some, hx.unplaced]

end Dynascope
