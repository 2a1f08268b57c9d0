import Dynascope.Proofs.Tree.ExprChain
import Dynascope.Proofs.Tree.Program

/-!
# Trees in normal form

A tree in normal form has the shape of the grammar: an operation of some precedence has no looser
operand, except in parentheses, and chains of one precedence lean to the left.

* `Expr.precedence`: how tightly an expression binds, from `0` to `9`.
* `Expr.normal`, `Stmt.normal`: trees in normal form.
* `Stmt.dangles`: statements that end with an `if` without `else`.
* `ProgramReads.normal`: every statement that is read is in normal form.
-/

namespace Dynascope

/-- The precedence of a binary operator, `0` for other kinds of tokens. -/
def Kind.precedence : Kind → Nat
  | .kwOr => 1
  | .kwAnd => 2
  | .bangEqual | .equalEqual => 3
  | .greater | .greaterEqual | .less | .lessEqual => 4
  | .minus | .plus => 5
  | .slash | .star => 6
  | _ => 0

/-- How tightly an expression binds. -/
def Expr.precedence : Expr → Nat
  | .absent | .assign .. | .set .. => 0
  | .logical _ operator _ | .binary _ operator _ => operator.kind.precedence
  | .unary .. => 7
  | .call .. | .get .. => 8
  | _ => 9

/-- Whether a token is an identifier. -/
def Token.isName (t : Token) : Bool :=
  t.kind = .identifier

mutual

/-- Whether an expression is in normal form: its tokens are of the right kinds, and every operand
binds tightly enough for its place. -/
def Expr.normal : Expr → Bool
  | .absent => false
  | .assign name value => name.isName && value.normal
  | .binary left operator right =>
    3 ≤ operator.kind.precedence && operator.kind.precedence ≤ left.precedence &&
      operator.kind.precedence < right.precedence && left.normal && right.normal
  | .call callee paren arguments =>
    8 ≤ callee.precedence && paren.any (·.kind = .rightParen) && callee.normal &&
      normalAll arguments
  | .get object name => 8 ≤ object.precedence && name.any Token.isName && object.normal
  | .group inner => inner.normal
  | .literal _ => true
  | .logical left operator right =>
    (operator.kind = .kwOr || operator.kind = .kwAnd) &&
      operator.kind.precedence ≤ left.precedence &&
      operator.kind.precedence < right.precedence && left.normal && right.normal
  | .set object name value =>
    8 ≤ object.precedence && name.any Token.isName && object.normal && value.normal
  | .superMethod keyword method => keyword.any (·.kind = .kwSuper) && method.isName
  | .receiver keyword => keyword.any (·.kind = .kwThis)
  | .unary operator right =>
    (operator.kind = .bang || operator.kind = .minus) && 7 ≤ right.precedence && right.normal
  | .name name => name.isName

/-- Whether all expressions are in normal form. -/
def normalAll : List Expr → Bool
  | [] => true
  | e :: es => e.normal && normalAll es

end

/-- Whether there is no expression. -/
def Expr.isAbsent : Expr → Bool
  | .absent => true
  | _ => false

namespace Stmt

/-- Whether there is no statement. -/
def isAbsent : Stmt → Bool
  | .absent => true
  | _ => false

/-- Whether a statement declares something. -/
def isDeclaration : Stmt → Bool
  | .classDecl .. | .funDecl _ | .varDecl .. => true
  | _ => false

/-- Whether a statement ends with an `if` without `else`. -/
def dangles : Stmt → Bool
  | .choice _ _ no => no.isAbsent || no.dangles
  | .loop _ body => body.dangles
  | _ => false

end Stmt

mutual

/-- Whether a statement is in normal form. Branches and bodies of loops are no declarations, a
branch before an `else` does not dangle, and only the optional places are empty. -/
def Stmt.normal : Stmt → Bool
  | .absent => false
  | .block body => normalBlock body
  | .classDecl name superclass methods =>
    name.isName && superclass.all Token.isName && normalMethods methods
  | .expr e => e.normal
  | .funDecl decl => decl.normal
  | .choice condition yes no =>
    condition.normal && yes.normal && !yes.isDeclaration &&
      (no.isAbsent || (!yes.dangles && no.normal && !no.isDeclaration))
  | .ret keyword value => keyword.any (·.kind = .kwReturn) && (value.isAbsent || value.normal)
  | .varDecl name initial => name.isName && (initial.isAbsent || initial.normal)
  | .loop condition body => condition.normal && body.normal && !body.isDeclaration

/-- Whether a function is in normal form; it is not numbered, and its body is a block. -/
def FunDecl.normal : FunDecl → Bool
  | ⟨site, name, params, body⟩ =>
    site = 0 && name.isName && params.all Token.isName && normalBody body

/-- Whether a statement is a block in normal form. -/
def normalBody : Stmt → Bool
  | .block body => normalBlock body
  | _ => false

/-- Whether all statements are in normal form. -/
def normalBlock : List Stmt → Bool
  | [] => true
  | s :: ss => s.normal && normalBlock ss

/-- Whether all methods are there and in normal form. -/
def normalMethods : List (Option FunDecl) → Bool
  | [] => true
  | none :: _ => false
  | some m :: ms => m.normal && normalMethods ms

end

/-! ## Expressions that are read -/

namespace Level

variable {level : Level} {op : Token} {left right : Expr}

theorem precedence_operator (h : op.kind ∈ level.operators) :
    op.kind.precedence = level.precedence := by
  generalize op.kind = k at h
  cases level <;> revert k <;> decide

theorem precedence_node (h : op.kind ∈ level.operators) :
    (level.node left op right).precedence = level.precedence := by
  rw [← precedence_operator h]
  cases level <;> rfl

theorem normal_node (h : op.kind ∈ level.operators) (hl : left.normal = true)
    (hr : right.normal = true) (hle : level.precedence ≤ left.precedence)
    (hlt : level.precedence < right.precedence) : (level.node left op right).normal = true := by
  have hp := precedence_operator h
  cases level <;> simp_all [node, Expr.normal, precedence, operators]

end Level

namespace ExprRule

/-- What is known of the tree of a rule; the rest of an expression is about what stands before. -/
def Formed : (r : ExprRule) → r.Tree → Prop
  | expression, e => e.normal = true
  | chain level, e => e.normal = true ∧ level.precedence ≤ e.precedence
  | chainRest level left, e => left.normal = true → level.precedence ≤ left.precedence →
    e.normal = true ∧ level.precedence ≤ e.precedence
  | operand level, e => e.normal = true ∧ level.precedence < e.precedence
  | unary, e => e.normal = true ∧ 7 ≤ e.precedence
  | call, e => e.normal = true ∧ 8 ≤ e.precedence
  | callRest c, e => c.normal = true → 8 ≤ c.precedence → e.normal = true ∧ 8 ≤ e.precedence
  | arguments, es => normalAll es = true
  | primary, e => e.normal = true ∧ 9 ≤ e.precedence

/-- An expression that is read is in normal form. -/
theorem Reads.formed {r : ExprRule} {ts : List Token} {e : r.Tree} (h : r.Reads ts e) :
    r.Formed e := by
  induction h with
  | value _ ih => exact ih.1
  | assign _ _ _ ihx ihv =>
    have hx := ihx.1
    simp only [Formed, Expr.normal] at hx ihv ⊢
    rw [hx, ihv]
    rfl
  | set _ _ _ ihx ihv =>
    have hx := ihx.1
    simp only [Formed, Expr.normal] at hx ihv ⊢
    rw [hx, ihv]
    rfl
  | chain _ _ ihl ihr => exact ihr ihl.1 (Nat.le_of_lt ihl.2)
  | stop => exact fun hn hp => ⟨hn, hp⟩
  | link hop _ _ ihr ihe =>
    intro hn hp
    have hnode := Level.normal_node hop hn ihr.1 hp ihr.2
    exact ihe hnode (Nat.le_of_eq (Level.precedence_node hop).symm)
  | @tighter level level' _ _ hl _ ih =>
    refine ⟨ih.1, Nat.lt_of_lt_of_le ?_ ih.2⟩
    cases level <;> cases hl <;> decide
  | @tightest level _ _ hl _ ih =>
    refine ⟨ih.1, Nat.lt_of_lt_of_le ?_ ih.2⟩
    cases level <;> cases hl
    decide
  | signed hop _ ih =>
    have hn := ih.1
    have hp := ih.2
    simp_all [Formed, Expr.normal, Expr.precedence]
  | unsigned _ ih => exact ⟨ih.1, Nat.le_of_succ_le ih.2⟩
  | call _ _ ihc ihe => exact ihe ihc.1 (Nat.le_of_succ_le ihc.2)
  | called => exact fun hn hp => ⟨hn, hp⟩
  | plain _ hr _ ih =>
    intro hn hp
    refine ih ?_ (Nat.le_refl 8)
    simp [Expr.normal, normalAll, hn, hp, hr]
  | apply _ _ hr _ iha ih =>
    intro hn hp
    refine ih ?_ (Nat.le_refl 8)
    simp only [Formed] at iha
    simp [Expr.normal, hn, hp, hr, iha]
  | property _ hx _ ih =>
    intro hn hp
    refine ih ?_ (Nat.le_refl 8)
    simp [Expr.normal, Token.isName, hn, hp, hx]
  | lastArgument _ ih => simpa [Formed, normalAll] using ih
  | argument _ _ _ ih ihs => simp_all [Formed, normalAll]
  | falseWord h => exact ⟨rfl, Nat.le_refl 9⟩
  | trueWord h => exact ⟨rfl, Nat.le_refl 9⟩
  | nilWord h => exact ⟨rfl, Nat.le_refl 9⟩
  | constant h hv => exact ⟨rfl, Nat.le_refl 9⟩
  | superMethod hk _ hx => exact ⟨by simp [Expr.normal, Token.isName, hk, hx], Nat.le_refl 9⟩
  | receiver hk => exact ⟨by simp [Expr.normal, hk], Nat.le_refl 9⟩
  | name hx => exact ⟨by simp [Expr.normal, Token.isName, hx], Nat.le_refl 9⟩
  | group _ _ _ ih => exact ⟨by simpa [Expr.normal, Formed] using ih, Nat.le_refl 9⟩

end ExprRule

/-! ## Statements that are read -/

namespace StmtRule

/-- What is known of the tree of a rule. The tree dangles only if the text does; the tree of a `for`
loop is a block and never dangles. -/
def Formed : (r : StmtRule) → r.Tree → (dangling : Bool) → Prop
  | names, xs, _ => xs.all Token.isName = true
  | expressionStatement, s, _ =>
    s.normal = true ∧ s.isDeclaration = false ∧ s.dangles = false
  | parenthesized, e, _ => e.normal = true
  | expressionUnless _, value, _ => ∀ e ∈ value, e.normal = true
  | varDeclaration, s, _ => s.normal = true
  | returnStatement keyword, s, _ => keyword.kind = .kwReturn →
    s.normal = true ∧ s.isDeclaration = false ∧ s.dangles = false
  | forInitial, initial, _ => ∀ s ∈ initial, s.normal = true
  | parameters, xs, _ => xs.all Token.isName = true
  | superclassClause, superclass, _ => superclass.all Token.isName = true
  | declaration, s, _ => s.normal = true
  | function, f, _ => f.normal = true
  | methods, ms, _ => normalMethods (ms.map some) = true
  | block, ss, _ => normalBlock ss = true
  | statement, s, dangling =>
    s.normal = true ∧ s.isDeclaration = false ∧ (dangling = false → s.dangles = false)

theorem normal_not_absent {s : Stmt} (h : s.normal = true) : s.isAbsent = false := by
  cases s <;> first | rfl | cases h

/-- The loop of a `for` is in normal form. -/
theorem normal_forLoop {initial : Option Stmt} {condition increment : Option Expr} {body : Stmt}
    (hi : ∀ s ∈ initial, s.normal = true) (hc : ∀ e ∈ condition, e.normal = true)
    (hn : ∀ e ∈ increment, e.normal = true) (hb : body.normal = true) :
    (forLoop initial condition increment body).normal = true := by
  have hcondition : (condition.getD (.literal (.bool true))).normal = true := by
    cases condition with
    | none => rfl
    | some e => exact hc e rfl
  cases initial <;> cases increment <;>
    simp_all [forLoop, Stmt.normal, normalBlock, Stmt.isDeclaration]

/-- A statement that is read is in normal form. -/
theorem Reads.formed {r : StmtRule} {ts : List Token} {s : r.Tree} {dangling : Bool}
    (h : r.Reads ts s dangling) : r.Formed s dangling := by
  induction h with
  | lastName hx => simp [Formed, Token.isName, hx]
  | name hx _ _ ih => simp_all [Formed, Token.isName]
  | expressionStatement h _ => exact ⟨h.formed, rfl, rfl⟩
  | parenthesized _ h _ => exact h.formed
  | omitted => exact fun _ he => nomatch he
  | given h => exact fun e he => Option.some.inj he ▸ h.formed
  | varPlain hx _ => simp [Formed, Stmt.normal, Token.isName, hx, Expr.isAbsent]
  | varInitial hx _ h _ =>
    have he := h.formed
    simp_all [Formed, ExprRule.Formed, Stmt.normal, Token.isName]
  | @returnStatement keyword semi ts value _ _ ih =>
    intro hk
    refine ⟨?_, rfl, rfl⟩
    cases value with
    | none => simp [Stmt.normal, hk, Expr.isAbsent]
    | some e => simp [Stmt.normal, hk, ih e rfl]
  | forNothing => exact fun _ hs => nomatch hs
  | forVar _ _ ih => exact fun s hs => Option.some.inj hs ▸ ih
  | forExpr _ ih => exact fun s hs => Option.some.inj hs ▸ ih.1
  | noParameters => rfl
  | parameters _ _ _ _ ih => exact ih
  | noSuperclass => rfl
  | superclass _ hx _ => simp [Formed, Token.isName, hx]
  | classDecl _ hx _ _ ihs ihm => simp_all [Formed, Stmt.normal, Token.isName]
  | funDecl _ _ ih => exact ih
  | varDecl _ _ ih => exact ih
  | plain _ ih => exact ih.1
  | function hx _ _ ihp ihb => simp_all [Formed, FunDecl.normal, normalBody, Token.isName]
  | methodsEnd => rfl
  | method _ _ ih ihs => simp_all [Formed, normalMethods]
  | blockEnd => rfl
  | blockNext _ _ ih ihs => simp_all [Formed, normalBlock]
  | expr _ ih => exact ⟨ih.1, ih.2.1, fun _ => ih.2.2⟩
  | forLoop _ _ _ _ _ _ _ _ ihi ihc ihn ihb =>
    exact ⟨normal_forLoop ihi ihc ihn ihb.1, rfl, fun _ => rfl⟩
  | ifElse _ _ _ _ _ ihc ihy ihn =>
    obtain ⟨hy, hyd, hyn⟩ := ihy
    obtain ⟨hn, hnd, hnn⟩ := ihn
    refine ⟨?_, rfl, fun hd => ?_⟩
    · simp_all [Formed, Stmt.normal]
    · simp [Stmt.dangles, normal_not_absent hn, hnn hd]
  | ifOnly _ _ _ ihc ihy =>
    refine ⟨?_, rfl, nofun⟩
    simp_all [Formed, Stmt.normal, Stmt.isAbsent]
  | ret hk _ ih => exact ⟨(ih hk).1, (ih hk).2.1, fun _ => (ih hk).2.2⟩
  | loop _ _ _ ihc ihb =>
    refine ⟨?_, rfl, ?_⟩
    · simp_all [Formed, Stmt.normal]
    · exact ihb.2.2
  | block _ _ ih => exact ⟨ih, rfl, fun _ => rfl⟩

end StmtRule

/-- **What is read is in normal form.** -/
theorem ProgramReads.normal {ts : List Token} {p : Parsed} (h : ProgramReads ts p) {s : Stmt}
    (hs : s ∈ p.statements) : s.normal = true := by
  obtain ⟨used, dangling, -, hread⟩ := h.statement hs
  exact hread.formed

end Dynascope
