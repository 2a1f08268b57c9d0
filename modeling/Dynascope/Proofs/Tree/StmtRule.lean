import Dynascope.Proofs.Tree.ExprFollow

/-!
# The rules for statements

* `StmtRule`: the rules, one for each reader of statements and of their parts; `StmtRule.Tree` is
  what a rule reads.
* `StmtRule.Reads r ts t dangling`: the tokens `ts` read as `t` by the rule `r`. The text of a
  *dangling* statement ends with an `if` without `else`, to which an `else` after it would belong.
* `StmtRule.parses`: with enough fuel, the reader of a rule takes tokens that read as its result, or
  fails for a cause.
* `StmtRule.Reads.first`: the token that a declaration starts with.
-/

namespace Dynascope

open Dynascope.Parser

/-- The rules for statements and their parts. -/
inductive StmtRule where
  | names
  | expressionStatement
  | parenthesized
  | expressionUnless (kind : Kind)
  | varDeclaration
  | returnStatement (keyword : Token)
  | forInitial
  | parameters
  | superclassClause
  | declaration
  | function
  | methods
  | block
  | statement

namespace StmtRule

/-- What a rule reads. -/
abbrev Tree : StmtRule → Type
  | names => List Token
  | parenthesized => Expr
  | expressionUnless _ => Option Expr
  | forInitial => Option Stmt
  | parameters => List Token
  | superclassClause => Option Token
  | function => FunDecl
  | methods => List FunDecl
  | block => List Stmt
  | _ => Stmt

/-- The reader of a rule. -/
def parser : (r : StmtRule) → (fuel : Nat) → Parser r.Tree
  | names, n => Parser.names n
  | expressionStatement, n => Dynascope.expressionStatement n
  | parenthesized, n => Dynascope.parenthesized n
  | expressionUnless kind, n => Dynascope.expressionUnless kind n
  | varDeclaration, n => Dynascope.varDeclaration n
  | returnStatement keyword, n => Dynascope.returnStatement keyword n
  | forInitial, n => Dynascope.forInitial n
  | parameters, n => Dynascope.parameters n
  | superclassClause, _ => Dynascope.superclassClause
  | declaration, n => Dynascope.declaration n
  | function, n => Dynascope.function n
  | methods, n => Dynascope.methods n
  | block, n => Dynascope.block n
  | statement, n => Dynascope.statement n

/-- The tokens read as the tree by the rule; an `else` after a dangling statement would belong to
it. -/
inductive Reads : (r : StmtRule) → List Token → r.Tree → (dangling : Bool) → Prop where
  | lastName {x : Token} (hx : x.kind = .identifier) : Reads .names [x] [x] false
  | name {x comma : Token} {ts xs : List Token} (hx : x.kind = .identifier)
      (hc : comma.kind = .comma) (h : Reads .names ts xs false) :
    Reads .names (x :: comma :: ts) (x :: xs) false
  | expressionStatement {ts : List Token} {e : Expr} {semi : Token}
      (h : ExprRule.expression.Reads ts e) (hs : semi.kind = .semicolon) :
    Reads .expressionStatement (ts ++ [semi]) (.expr e) false
  | parenthesized {left right : Token} {ts : List Token} {e : Expr} (hl : left.kind = .leftParen)
      (h : ExprRule.expression.Reads ts e) (hr : right.kind = .rightParen) :
    Reads .parenthesized (left :: (ts ++ [right])) e false
  | omitted {kind : Kind} : Reads (.expressionUnless kind) [] none false
  | given {kind : Kind} {ts : List Token} {e : Expr} (h : ExprRule.expression.Reads ts e) :
    Reads (.expressionUnless kind) ts (some e) false
  | varPlain {x semi : Token} (hx : x.kind = .identifier) (hs : semi.kind = .semicolon) :
    Reads .varDeclaration [x, semi] (.varDecl x .absent) false
  | varInitial {x eq semi : Token} {ts : List Token} {e : Expr} (hx : x.kind = .identifier)
      (heq : eq.kind = .equal) (h : ExprRule.expression.Reads ts e)
      (hs : semi.kind = .semicolon) :
    Reads .varDeclaration (x :: eq :: (ts ++ [semi])) (.varDecl x e) false
  | returnStatement {keyword semi : Token} {ts : List Token} {value : Option Expr}
      (h : Reads (.expressionUnless .semicolon) ts value false) (hs : semi.kind = .semicolon) :
    Reads (.returnStatement keyword) (ts ++ [semi]) (.ret (some keyword) (value.getD .absent)) false
  | forNothing {semi : Token} (hs : semi.kind = .semicolon) : Reads .forInitial [semi] none false
  | forVar {keyword : Token} {ts : List Token} {s : Stmt} (hk : keyword.kind = .kwVar)
      (h : Reads .varDeclaration ts s false) : Reads .forInitial (keyword :: ts) (some s) false
  | forExpr {ts : List Token} {s : Stmt} (h : Reads .expressionStatement ts s false) :
    Reads .forInitial ts (some s) false
  | noParameters {left right brace : Token} (hl : left.kind = .leftParen)
      (hr : right.kind = .rightParen) (hb : brace.kind = .leftBrace) :
    Reads .parameters [left, right, brace] [] false
  | parameters {left right brace : Token} {ts xs : List Token} (hl : left.kind = .leftParen)
      (h : Reads .names ts xs false) (hr : right.kind = .rightParen)
      (hb : brace.kind = .leftBrace) :
    Reads .parameters (left :: (ts ++ [right, brace])) xs false
  | noSuperclass {brace : Token} (hb : brace.kind = .leftBrace) :
    Reads .superclassClause [brace] none false
  | superclass {less x brace : Token} (hl : less.kind = .less) (hx : x.kind = .identifier)
      (hb : brace.kind = .leftBrace) : Reads .superclassClause [less, x, brace] (some x) false
  | classDecl {keyword x : Token} {superclass : Option Token} {ms : List FunDecl}
      {ts us : List Token} (hk : keyword.kind = .kwClass) (hx : x.kind = .identifier)
      (hs : Reads .superclassClause ts superclass false) (hm : Reads .methods us ms false) :
    Reads .declaration (keyword :: x :: (ts ++ us)) (.classDecl x superclass (ms.map some)) false
  | funDecl {keyword : Token} {ts : List Token} {f : FunDecl} (hk : keyword.kind = .kwFun)
      (h : Reads .function ts f false) : Reads .declaration (keyword :: ts) (.funDecl f) false
  | varDecl {keyword : Token} {ts : List Token} {s : Stmt} (hk : keyword.kind = .kwVar)
      (h : Reads .varDeclaration ts s false) : Reads .declaration (keyword :: ts) s false
  | plain {ts : List Token} {s : Stmt} {dangling : Bool} (h : Reads .statement ts s dangling) :
    Reads .declaration ts s dangling
  | function {x : Token} {ts us xs : List Token} {body : List Stmt} (hx : x.kind = .identifier)
      (hp : Reads .parameters ts xs false) (hb : Reads .block us body false) :
    Reads .function (x :: (ts ++ us)) ⟨0, x, xs, .block body⟩ false
  | methodsEnd {brace : Token} (hb : brace.kind = .rightBrace) : Reads .methods [brace] [] false
  | method {ts us : List Token} {m : FunDecl} {ms : List FunDecl} (h : Reads .function ts m false)
      (hs : Reads .methods us ms false) : Reads .methods (ts ++ us) (m :: ms) false
  | blockEnd {brace : Token} (hb : brace.kind = .rightBrace) : Reads .block [brace] [] false
  | blockNext {ts us : List Token} {s : Stmt} {ss : List Stmt} {dangling : Bool}
      (h : Reads .declaration ts s dangling) (hs : Reads .block us ss false) :
    Reads .block (ts ++ us) (s :: ss) false
  | expr {ts : List Token} {s : Stmt} (h : Reads .expressionStatement ts s false) :
    Reads .statement ts s false
  | forLoop {keyword left semi right : Token} {ts us vs ws : List Token} {initial : Option Stmt}
      {condition increment : Option Expr} {body : Stmt} {dangling : Bool}
      (hk : keyword.kind = .kwFor) (hl : left.kind = .leftParen)
      (hi : Reads .forInitial ts initial false)
      (hc : Reads (.expressionUnless .semicolon) us condition false)
      (hs : semi.kind = .semicolon)
      (hn : Reads (.expressionUnless .rightParen) vs increment false)
      (hr : right.kind = .rightParen) (hb : Reads .statement ws body dangling) :
    Reads .statement (keyword :: left :: (ts ++ (us ++ semi :: (vs ++ right :: ws))))
      (Dynascope.forLoop initial condition increment body) dangling
  | ifElse {keyword other : Token} {ts us vs : List Token} {c : Expr} {yes no : Stmt}
      {dangling : Bool} (hk : keyword.kind = .kwIf) (hc : Reads .parenthesized ts c false)
      (hy : Reads .statement us yes false) (he : other.kind = .kwElse)
      (hn : Reads .statement vs no dangling) :
    Reads .statement (keyword :: (ts ++ (us ++ other :: vs))) (.choice c yes no) dangling
  | ifOnly {keyword : Token} {ts us : List Token} {c : Expr} {yes : Stmt} {dangling : Bool}
      (hk : keyword.kind = .kwIf) (hc : Reads .parenthesized ts c false)
      (hy : Reads .statement us yes dangling) :
    Reads .statement (keyword :: (ts ++ us)) (.choice c yes .absent) true
  | ret {keyword : Token} {ts : List Token} {s : Stmt} (hk : keyword.kind = .kwReturn)
      (h : Reads (.returnStatement keyword) ts s false) : Reads .statement (keyword :: ts) s false
  | loop {keyword : Token} {ts us : List Token} {c : Expr} {body : Stmt} {dangling : Bool}
      (hk : keyword.kind = .kwWhile) (hc : Reads .parenthesized ts c false)
      (hb : Reads .statement us body dangling) :
    Reads .statement (keyword :: (ts ++ us)) (.loop c body) dangling
  | block {brace : Token} {ts : List Token} {ss : List Stmt} (hb : brace.kind = .leftBrace)
      (h : Reads .block ts ss false) : Reads .statement (brace :: ts) (.block ss) false

/-! ## The first token -/

/-- The kinds of the tokens that start a declaration or a statement. -/
def starters : List Kind :=
  [.kwClass, .kwFun, .kwVar, .kwFor, .kwIf, .kwReturn, .kwWhile, .leftBrace] ++ ExprRule.starters

/-- Whether a rule reads a declaration or a statement. -/
def starts : StmtRule → Bool
  | expressionStatement => true
  | declaration => true
  | statement => true
  | _ => false

/-- A declaration has a first token, of a kind that starts declarations. -/
theorem Reads.first {r : StmtRule} {ts : List Token} {s : r.Tree} {dangling : Bool}
    (h : r.Reads ts s dangling) (hr : r.starts = true) :
    ∃ t rest, ts = t :: rest ∧ t.kind ∈ starters := by
  induction h with
  | expressionStatement h hs =>
    obtain ⟨t, rest, rfl, hk⟩ := h.first rfl
    exact ⟨t, _, rfl, List.mem_append_right _ hk⟩
  | classDecl hk hx hs hm _ _ => exact ⟨_, _, rfl, by rw [hk]; decide⟩
  | funDecl hk h _ => exact ⟨_, _, rfl, by rw [hk]; decide⟩
  | varDecl hk h _ => exact ⟨_, _, rfl, by rw [hk]; decide⟩
  | plain h ih => exact ih rfl
  | expr h ih => exact ih rfl
  | forLoop hk hl hi hc hs hn hr' hb _ _ _ _ => exact ⟨_, _, rfl, by rw [hk]; decide⟩
  | ifElse hk hc hy he hn _ _ _ => exact ⟨_, _, rfl, by rw [hk]; decide⟩
  | ifOnly hk hc hy _ _ => exact ⟨_, _, rfl, by rw [hk]; decide⟩
  | ret hk h _ => exact ⟨_, _, rfl, by rw [hk]; decide⟩
  | loop hk hc hb _ _ => exact ⟨_, _, rfl, by rw [hk]; decide⟩
  | block hb h _ => exact ⟨_, _, rfl, by rw [hb]; decide⟩
  | _ => cases hr

theorem Reads.length_pos {r : StmtRule} {ts : List Token} {s : r.Tree} {dangling : Bool}
    (h : r.Reads ts s dangling) (hr : r.starts = true) : 0 < ts.length := by
  obtain ⟨t, rest, rfl, -⟩ := h.first hr
  exact Nat.succ_pos _

/-! ## The readers of parts of statements -/

/-- The calls that lie between a rule and the next token. -/
def rank : StmtRule → Nat
  | names => 1
  | expressionStatement => 16
  | parenthesized => 1
  | expressionUnless _ => 16
  | varDeclaration => 1
  | returnStatement _ => 16
  | forInitial => 16
  | parameters => 1
  | superclassClause => 1
  | declaration => 18
  | function => 1
  | methods => 2
  | block => 19
  | statement => 17

/-- What a reader has to do: it takes tokens that read as its result, and if the result dangles, no
`else` follows. -/
def Spec (r : StmtRule) (used : List Token) (s : r.Tree) (rest : List Token) : Prop :=
  ∃ dangling, r.Reads used s dangling ∧ (dangling = true → Stops [.kwElse] rest)

theorem Spec.of_reads {r : StmtRule} {used rest : List Token} {s : r.Tree}
    (h : r.Reads used s false) : r.Spec used s rest :=
  ⟨false, h, fun h => nomatch h⟩

/-- Only a statement dangles. -/
def dangles : StmtRule → Bool
  | declaration => true
  | statement => true
  | _ => false

theorem Reads.not_dangling {r : StmtRule} {ts : List Token} {s : r.Tree} {dangling : Bool}
    (h : r.Reads ts s dangling) (hr : r.dangles = false) : dangling = false := by
  cases h <;> first | rfl | cases hr

theorem Spec.reads {r : StmtRule} {used rest : List Token} {s : r.Tree} (h : r.Spec used s rest)
    (hr : r.dangles = false) : r.Reads used s false := by
  obtain ⟨dangling, h, -⟩ := h
  obtain rfl := h.not_dangling hr
  exact h

variable {n : Nat} {ts : List Token}

/-- An expression, read with enough fuel. -/
theorem expression_parses (hn : 32 * ts.length + 16 ≤ n) :
    Parses (Dynascope.expression n) [] ts fun used e _ => ExprRule.expression.Reads used e :=
  ExprRule.parses n .expression ts hn

theorem names_parses (hn : 32 * ts.length + 1 ≤ n) :
    Parses (Parser.names n) [] ts (Spec .names) := by
  induction n generalizing ts with
  | zero => omega
  | succ n ih =>
    unfold Parser.names
    refine Parses.expect (by decide) ?_
    rintro x rest rfl hx
    refine Parses.accept (by decide) (fun _ => Parses.pure (.of_reads (.lastName hx))) ?_
    rintro comma rest rfl hc
    simp only [List.length_cons] at hn
    refine Parses.bind (ih (by omega)) ?_
    rintro xs used rest rfl hxs
    exact Parses.pure (.of_reads (.name hx (List.mem_singleton.mp hc) (hxs.reads rfl)))

theorem expressionStatement_parses (hn : 32 * ts.length + 16 ≤ n) :
    Parses (Dynascope.expressionStatement n) [] ts (Spec .expressionStatement) := by
  refine Parses.bind (expression_parses hn) ?_
  rintro e used rest rfl he
  refine Parses.expect (by decide) ?_
  rintro semi rest rfl hs
  exact Parses.pure (.of_reads (.expressionStatement he hs))

theorem parenthesized_parses (hn : 32 * ts.length + 1 ≤ n) :
    Parses (Dynascope.parenthesized n) [] ts (Spec .parenthesized) := by
  refine Parses.expect (by decide) ?_
  rintro left rest rfl hl
  simp only [List.length_cons] at hn
  refine Parses.bind (expression_parses (by omega)) ?_
  rintro e used rest rfl he
  refine Parses.expect (by decide) ?_
  rintro right rest rfl hr
  exact Parses.pure (.of_reads (by simpa using .parenthesized hl he hr))

theorem expressionUnless_parses {kind : Kind} (hn : 32 * ts.length + 16 ≤ n) :
    Parses (Dynascope.expressionUnless kind n) [] ts (Spec (.expressionUnless kind)) := by
  refine Parses.next fun b => ?_
  cases b with
  | true => exact Parses.pure (.of_reads .omitted)
  | false =>
    refine Parses.bind (expression_parses hn) ?_
    rintro e used rest rfl he
    exact Parses.pure (.of_reads (.given he))

theorem varDeclaration_parses (hn : 32 * ts.length + 1 ≤ n) :
    Parses (Dynascope.varDeclaration n) [] ts (Spec .varDeclaration) := by
  refine Parses.expect (by decide) ?_
  rintro x rest rfl hx
  simp only [List.length_cons] at hn
  refine Parses.accept (by decide) (fun _ => ?_) ?_
  · refine Parses.expect (by decide) ?_
    rintro semi rest rfl hs
    exact Parses.pure (.of_reads (.varPlain hx hs))
  · rintro eq rest rfl heq
    simp only [List.length_cons] at hn
    refine Parses.bind (expression_parses (by omega)) ?_
    rintro e used rest rfl he
    refine Parses.expect (by decide) ?_
    rintro semi rest rfl hs
    exact Parses.pure (.of_reads (by simpa using .varInitial hx (List.mem_singleton.mp heq) he hs))

theorem returnStatement_parses {keyword : Token} (hn : 32 * ts.length + 16 ≤ n) :
    Parses (Dynascope.returnStatement keyword n) [] ts (Spec (.returnStatement keyword)) := by
  refine Parses.bind (expressionUnless_parses hn) ?_
  rintro value used rest rfl hv
  refine Parses.expect (by decide) ?_
  rintro semi rest rfl hs
  exact Parses.pure (.of_reads (.returnStatement (hv.reads rfl) hs))

theorem forInitial_parses (hn : 32 * ts.length + 16 ≤ n) :
    Parses (Dynascope.forInitial n) [] ts (Spec .forInitial) := by
  refine Parses.accept (by decide) (fun _ => ?_) ?_
  · refine Parses.bind (expressionStatement_parses hn) ?_
    rintro s used rest rfl hs
    exact Parses.pure (.of_reads (.forExpr (hs.reads rfl)))
  · rintro t rest rfl ht
    simp only [List.length_cons] at hn
    dsimp only
    split
    next hs => exact Parses.pure (.of_reads (.forNothing hs))
    next hs =>
      have hk : t.kind = .kwVar := by
        simp only [List.mem_cons, List.not_mem_nil, or_false] at ht
        exact ht.resolve_left hs
      refine Parses.bind (varDeclaration_parses (by omega)) ?_
      rintro s used rest rfl hs
      exact Parses.pure (.of_reads (.forVar hk (hs.reads rfl)))

theorem parameters_parses (hn : 32 * ts.length + 1 ≤ n) :
    Parses (Dynascope.parameters n) [] ts (Spec .parameters) := by
  refine Parses.expect (by decide) ?_
  rintro left rest rfl hl
  simp only [List.length_cons] at hn
  have hgiven : Parses (do
      if ← Parser.next .rightParen then return []
      else Parser.names n) [] rest
      fun used xs _ => (used = [] ∧ xs = []) ∨ Reads .names used xs false := by
    refine Parses.next fun b => ?_
    cases b with
    | true => exact Parses.pure (.inl ⟨rfl, rfl⟩)
    | false => exact Parses.last (names_parses (by omega)) fun _ _ _ h => .inr (h.reads rfl)
  refine Parses.bind hgiven ?_
  rintro xs used rest rfl hxs
  refine Parses.expect (by decide) ?_
  rintro right rest rfl hr
  refine Parses.expect (by decide) ?_
  rintro brace rest rfl hb
  rcases hxs with ⟨rfl, rfl⟩ | hxs
  · exact Parses.pure (.of_reads (.noParameters hl hr hb))
  · exact Parses.pure (.of_reads (by simpa using .parameters hl hxs hr hb))

theorem superclassClause_parses :
    Parses Dynascope.superclassClause [] ts (Spec .superclassClause) := by
  refine Parses.bind (P := fun used superclass _ => (used = [] ∧ superclass = none) ∨
    ∃ less x, used = [less, x] ∧ superclass = some x ∧ less.kind = .less ∧ x.kind = .identifier)
    ?given ?_
  case given =>
    refine Parses.accept (by decide) (fun _ => Parses.pure (.inl ⟨rfl, rfl⟩)) ?_
    rintro less rest rfl hl
    refine Parses.expect (by decide) ?_
    rintro x rest rfl hx
    exact Parses.pure (.inr ⟨less, x, rfl, rfl, List.mem_singleton.mp hl, hx⟩)
  rintro superclass used rest rfl hs
  refine Parses.expect (by decide) ?_
  rintro brace rest rfl hb
  rcases hs with ⟨rfl, rfl⟩ | ⟨less, x, rfl, rfl, hl, hx⟩
  · exact Parses.pure (.of_reads (.noSuperclass hb))
  · exact Parses.pure (.of_reads (.superclass hl hx hb))

/-! ## The readers of statements -/

/-- With fuel `n`, the readers of all rules do what they should on tokens for which `n` is
enough. -/
def Parsing (n : Nat) : Prop :=
  ∀ (r : StmtRule) (ts : List Token), 32 * ts.length + r.rank ≤ n →
    Parses (r.parser n) [] ts r.Spec

theorem declaration_parses (ih : Parsing n) (hn : 32 * ts.length + 18 ≤ n + 1) :
    Parses (Dynascope.declaration (n + 1)) [] ts (Spec .declaration) := by
  unfold Dynascope.declaration
  refine Parses.accept (by decide) (fun _ => ?_) ?_
  · refine Parses.last (ih .statement ts (by simp only [rank]; omega)) ?_
    rintro used s rest ⟨dangling, hs, hd⟩
    exact ⟨dangling, .plain hs, hd⟩
  · rintro t rest rfl ht
    simp only [List.length_cons] at hn
    dsimp only
    split
    next hk =>
      refine Parses.expect (by decide) ?_
      rintro x rest rfl hx
      simp only [List.length_cons] at hn
      refine Parses.bind superclassClause_parses ?_
      rintro superclass used rest rfl hs
      simp only [List.length_append] at hn
      refine Parses.bind (ih .methods rest (by simp only [rank]; omega)) ?_
      rintro ms used' rest rfl hm
      exact Parses.pure (.of_reads (by simpa using .classDecl hk hx (hs.reads rfl) (hm.reads rfl)))
    next hk =>
      refine Parses.bind (ih .function rest (by simp only [rank]; omega)) ?_
      rintro f used rest rfl hf
      exact Parses.pure (.of_reads (.funDecl hk (hf.reads rfl)))
    next hc hf =>
      have hk : t.kind = .kwVar := by
        simp only [List.mem_cons, List.not_mem_nil, or_false] at ht
        grind
      exact Parses.last (varDeclaration_parses (by omega)) fun used s _ hs =>
        .of_reads (.varDecl hk (hs.reads rfl))

theorem function_parses (ih : Parsing n) (hn : 32 * ts.length + 1 ≤ n + 1) :
    Parses (Dynascope.function (n + 1)) [] ts (Spec .function) := by
  unfold Dynascope.function
  refine Parses.expect (by decide) ?_
  rintro x rest rfl hx
  simp only [List.length_cons] at hn
  refine Parses.bind (parameters_parses (by omega)) ?_
  rintro xs used rest rfl hp
  simp only [List.length_append] at hn
  refine Parses.bind (ih .block rest (by simp only [rank]; omega)) ?_
  rintro body used' rest rfl hb
  exact Parses.pure (.of_reads (by simpa using .function hx (hp.reads rfl) (hb.reads rfl)))

theorem Reads.function_length_pos {f : FunDecl} {dangling : Bool}
    (h : Reads .function ts f dangling) : 0 < ts.length := by
  cases h
  exact Nat.succ_pos _

theorem methods_parses (ih : Parsing n) (hn : 32 * ts.length + 2 ≤ n + 1) :
    Parses (Dynascope.methods (n + 1)) [] ts (Spec .methods) := by
  unfold Dynascope.methods
  refine Parses.next fun _ => Parses.done fun _ => ?_
  split
  · refine Parses.expect (by decide) ?_
    rintro brace rest rfl hb
    exact Parses.pure (.of_reads (.methodsEnd hb))
  · refine Parses.bind (ih .function ts (by simp only [rank]; omega)) ?_
    rintro m used rest rfl hm
    have hpos := (hm.reads rfl).function_length_pos
    simp only [List.length_append] at hn
    refine Parses.bind (ih .methods rest (by simp only [rank]; omega)) ?_
    rintro ms used' rest rfl hs
    exact Parses.pure (.of_reads (.method (hm.reads rfl) (hs.reads rfl)))

theorem block_parses (ih : Parsing n) (hn : 32 * ts.length + 19 ≤ n + 1) :
    Parses (Dynascope.block (n + 1)) [] ts (Spec .block) := by
  unfold Dynascope.block
  refine Parses.next fun _ => Parses.done fun _ => ?_
  split
  · refine Parses.expect (by decide) ?_
    rintro brace rest rfl hb
    exact Parses.pure (.of_reads (.blockEnd hb))
  · refine Parses.bind (ih .declaration ts (by simp only [rank]; omega)) ?_
    rintro s used rest rfl ⟨dangling, hd, -⟩
    have hpos := hd.length_pos rfl
    simp only [List.length_append] at hn
    refine Parses.bind (ih .block rest (by simp only [rank]; omega)) ?_
    rintro ss used' rest rfl hs
    exact Parses.pure (.of_reads (.blockNext hd (hs.reads rfl)))

/-- The rest of a `for` loop after its keyword. -/
theorem forLoop_parses (ih : Parsing n) {keyword : Token} (hk : keyword.kind = .kwFor)
    (hn : 32 * (ts.length + 1) + 17 ≤ n + 1) :
    Parses (do
      let _ ← Parser.expect .leftParen
      let initial ← Dynascope.forInitial n
      let condition ← Dynascope.expressionUnless .semicolon n
      let _ ← Parser.expect .semicolon
      let increment ← Dynascope.expressionUnless .rightParen n
      let _ ← Parser.expect .rightParen
      return Dynascope.forLoop initial condition increment (← Dynascope.statement n))
      [keyword] ts (Spec .statement) := by
  refine Parses.expect (by decide) ?_
  rintro left rest rfl hl
  simp only [List.length_cons] at hn
  refine Parses.bind (forInitial_parses (by omega)) ?_
  rintro initial used₁ rest rfl hi
  simp only [List.length_append] at hn
  refine Parses.bind (expressionUnless_parses (by omega)) ?_
  rintro condition used₂ rest rfl hc
  refine Parses.expect (by decide) ?_
  rintro semi rest rfl hs
  simp only [List.length_append, List.length_cons] at hn
  refine Parses.bind (expressionUnless_parses (by omega)) ?_
  rintro increment used₃ rest rfl hi'
  refine Parses.expect (by decide) ?_
  rintro right rest rfl hr
  simp only [List.length_append, List.length_cons] at hn
  refine Parses.bind (ih .statement rest (by simp only [rank]; omega)) ?_
  rintro body used₄ rest rfl ⟨dangling, hb, hd⟩
  refine Parses.pure ⟨dangling, ?_, hd⟩
  simpa using .forLoop hk hl (hi.reads rfl) (hc.reads rfl) hs (hi'.reads rfl) hr hb

/-- The rest of an `if` after its keyword. An `else` belongs to the `if` just before it, so the
first branch does not dangle if one follows. -/
theorem choice_parses (ih : Parsing n) {keyword : Token} (hk : keyword.kind = .kwIf)
    (hn : 32 * (ts.length + 1) + 17 ≤ n + 1) :
    Parses (do
      let condition ← Dynascope.parenthesized n
      let yes ← Dynascope.statement n
      match ← Parser.accept [.kwElse] with
      | some _ => return .choice condition yes (← Dynascope.statement n)
      | none => return .choice condition yes .absent)
      [keyword] ts (Spec .statement) := by
  refine Parses.bind (parenthesized_parses (by omega)) ?_
  rintro c used₁ rest rfl hc
  simp only [List.length_append] at hn
  refine Parses.bind (ih .statement rest (by simp only [rank]; omega)) ?_
  rintro yes used₂ rest rfl ⟨dangling, hy, hd⟩
  refine Parses.accept (by decide) (fun hs => ?_) ?_
  · refine Parses.pure ⟨true, ?_, fun _ => hs⟩
    simpa using .ifOnly hk (hc.reads rfl) hy
  · rintro other rest rfl he
    have hyes : dangling = false := by
      cases dangling with
      | false => rfl
      | true => exact absurd he (hd rfl other rfl)
    subst hyes
    simp only [List.length_append, List.length_cons] at hn
    refine Parses.bind (ih .statement rest (by simp only [rank]; omega)) ?_
    rintro no used₃ rest rfl ⟨dangling, hno, hd⟩
    refine Parses.pure ⟨dangling, ?_, hd⟩
    simpa using .ifElse hk (hc.reads rfl) hy (List.mem_singleton.mp he) hno

theorem statement_parses (ih : Parsing n) (hn : 32 * ts.length + 17 ≤ n + 1) :
    Parses (Dynascope.statement (n + 1)) [] ts (Spec .statement) := by
  unfold Dynascope.statement
  refine Parses.accept (by decide) (fun _ => ?_) ?_
  · exact Parses.last (expressionStatement_parses (by omega)) fun used s _ hs =>
      .of_reads (.expr (hs.reads rfl))
  · rintro t rest rfl ht
    simp only [List.length_cons] at hn
    dsimp only
    split
    next hk => exact forLoop_parses ih hk hn
    next hk => exact choice_parses ih hk hn
    next hk =>
      exact Parses.last (returnStatement_parses (by omega)) fun used s _ hs =>
        .of_reads (.ret hk (hs.reads rfl))
    next hk =>
      refine Parses.bind (parenthesized_parses (by omega)) ?_
      rintro c used rest rfl hc
      simp only [List.length_append] at hn
      refine Parses.bind (ih .statement rest (by simp only [rank]; omega)) ?_
      rintro body used' rest rfl ⟨dangling, hb, hd⟩
      refine Parses.pure ⟨dangling, ?_, hd⟩
      simpa using .loop hk (hc.reads rfl) hb
    next h1 h2 h3 h4 =>
      have hk : t.kind = .leftBrace := by
        simp only [List.mem_cons, List.not_mem_nil, or_false] at ht
        grind
      refine Parses.bind (ih .block rest (by simp only [rank]; omega)) ?_
      rintro ss used rest rfl hs
      exact Parses.pure (.of_reads (.block hk (hs.reads rfl)))

/-- **The readers of statements.** With enough fuel for its tokens, a reader takes tokens that read
as its result or fails for a cause. -/
theorem parses (n : Nat) : Parsing n := by
  induction n with
  | zero =>
    intro r ts hn
    cases r <;> simp [rank] at hn
  | succ n ih =>
    intro r ts hn
    cases r with
    | names => exact names_parses hn
    | expressionStatement => exact expressionStatement_parses hn
    | parenthesized => exact parenthesized_parses hn
    | expressionUnless kind => exact expressionUnless_parses hn
    | varDeclaration => exact varDeclaration_parses hn
    | returnStatement keyword => exact returnStatement_parses hn
    | forInitial => exact forInitial_parses hn
    | parameters => exact parameters_parses hn
    | superclassClause => exact superclassClause_parses
    | declaration => exact declaration_parses ih hn
    | function => exact function_parses ih hn
    | methods => exact methods_parses ih hn
    | block => exact block_parses ih hn
    | statement => exact statement_parses ih hn

end StmtRule

end Dynascope
