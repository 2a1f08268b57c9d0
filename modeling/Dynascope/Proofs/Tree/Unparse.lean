import Dynascope.Proofs.Tree.NormalForm

/-!
# Trees as tokens

The printer writes the tokens of a tree: those that the tree holds, and delimiters and keywords
between them. It writes parentheses only where the grammar has them: for a group, around arguments
and parameters, and around conditions.

* `Expr.unparse`, `Stmt.unparse`: the tokens of a tree.
* `Expr.reads_unparse`, `Stmt.reads_unparse`: the tokens of a tree in normal form read as it.
* `parse_unparse`: parsing inverts printing on normal forms, and gives nothing else.
-/

namespace Dynascope

/-- A delimiter or keyword as it stands in a source. -/
def Token.mark (kind : Kind) : Token :=
  { kind := kind, lexeme := kind.name, value := none, position := .start }

/-- The token of a constant. -/
def Literal.token : Literal → Token
  | .nil => .mark .kwNil
  | .bool false => .mark .kwFalse
  | .bool true => .mark .kwTrue
  | .string s => ⟨.string, (Literal.string s).text, some (.string s), .start⟩
  | value => ⟨.number, value.text, some value, .start⟩

mutual

/-- The tokens of an expression. -/
def Expr.unparse : Expr → List Token
  | .absent => []
  | .assign name value => name :: .mark .equal :: value.unparse
  | .binary left operator right => left.unparse ++ operator :: right.unparse
  | .call callee paren arguments =>
    callee.unparse ++ .mark .leftParen :: (unparseArguments arguments ++ paren.toList)
  | .get object name => object.unparse ++ .mark .dot :: name.toList
  | .group inner => .mark .leftParen :: (inner.unparse ++ [.mark .rightParen])
  | .literal value => [value.token]
  | .logical left operator right => left.unparse ++ operator :: right.unparse
  | .set object name value =>
    object.unparse ++ .mark .dot :: (name.toList ++ .mark .equal :: value.unparse)
  | .superMethod keyword method => keyword.toList ++ [.mark .dot, method]
  | .receiver keyword => keyword.toList
  | .unary operator right => operator :: right.unparse
  | .name name => [name]

/-- The tokens of arguments, with commas between them. -/
def unparseArguments : List Expr → List Token
  | [] => []
  | [e] => e.unparse
  | e :: es => e.unparse ++ .mark .comma :: unparseArguments es

end

/-- The tokens of parameters, with commas between them. -/
def unparseNames (xs : List Token) : List Token :=
  xs.intersperse (.mark .comma)

/-- The tokens of an initial value with its equals sign. -/
def Expr.unparseInitial (e : Expr) : List Token :=
  if e.isAbsent then [] else .mark .equal :: e.unparse

/-- The tokens of a superclass with the sign before it. -/
def unparseSuperclass : Option Token → List Token
  | none => []
  | some x => [.mark .less, x]

mutual

/-- The tokens of a statement. -/
def Stmt.unparse : Stmt → List Token
  | .absent => []
  | .block body => .mark .leftBrace :: (unparseBlock body ++ [.mark .rightBrace])
  | .classDecl name superclass methods =>
    .mark .kwClass :: name :: (unparseSuperclass superclass ++
      .mark .leftBrace :: (unparseMethods methods ++ [.mark .rightBrace]))
  | .expr e => e.unparse ++ [.mark .semicolon]
  | .funDecl decl => .mark .kwFun :: decl.unparse
  | .choice condition yes no =>
    .mark .kwIf :: .mark .leftParen :: (condition.unparse ++ .mark .rightParen ::
      (yes.unparse ++ if no.isAbsent then [] else .mark .kwElse :: no.unparse))
  | .ret keyword value => keyword.toList ++ (value.unparse ++ [.mark .semicolon])
  | .varDecl name initial =>
    .mark .kwVar :: name :: (initial.unparseInitial ++ [.mark .semicolon])
  | .loop condition body =>
    .mark .kwWhile :: .mark .leftParen :: (condition.unparse ++ .mark .rightParen :: body.unparse)

/-- The tokens of a function. -/
def FunDecl.unparse : FunDecl → List Token
  | ⟨_, name, params, body⟩ =>
    name :: .mark .leftParen :: (unparseNames params ++ .mark .rightParen :: body.unparse)

/-- The tokens of statements, one after the other. -/
def unparseBlock : List Stmt → List Token
  | [] => []
  | s :: ss => s.unparse ++ unparseBlock ss

/-- The tokens of methods, one after the other. -/
def unparseMethods : List (Option FunDecl) → List Token
  | [] => []
  | none :: ms => unparseMethods ms
  | some m :: ms => m.unparse ++ unparseMethods ms

end

/-! ## Expressions -/

/-- A binary operator belongs to a level. -/
theorem Kind.exists_level {k : Kind} (h : k.precedence ≠ 0) :
    ∃ level : Level, k ∈ level.operators ∧ level.precedence = k.precedence := by
  match k, h with
  | .kwOr, _ => exact ⟨.or, by decide, rfl⟩
  | .kwAnd, _ => exact ⟨.and, by decide, rfl⟩
  | .bangEqual, _ | .equalEqual, _ => exact ⟨.equality, by decide, rfl⟩
  | .greater, _ | .greaterEqual, _ | .less, _ | .lessEqual, _ =>
    exact ⟨.comparison, by decide, rfl⟩
  | .minus, _ | .plus, _ => exact ⟨.term, by decide, rfl⟩
  | .slash, _ | .star, _ => exact ⟨.factor, by decide, rfl⟩

theorem Literal.reads_token (v : Literal) : ExprRule.primary.Reads [v.token] (.literal v) := by
  match v with
  | .nil => exact .nilWord rfl
  | .bool false => exact .falseWord rfl
  | .bool true => exact .trueWord rfl
  | .string s => exact .constant (.inr rfl) rfl
  | .number x => exact .constant (.inl rfl) rfl
  | .foreign n => exact .constant (.inl rfl) rfl

section

open ExprRule (ReadsAt readsAt_level readsAt_operand)

variable {ts us : List Token} {e left right : Expr} {op x : Token}

/-- An operation whose operands bind tightly enough. -/
theorem reads_operation (hop : op.kind.precedence ≠ 0)
    (hl : ReadsAt left.precedence ts left) (hle : op.kind.precedence ≤ left.precedence)
    (hr : ReadsAt right.precedence us right) (hlt : op.kind.precedence < right.precedence) :
    ∃ level : Level, op.kind ∈ level.operators ∧
      ReadsAt op.kind.precedence (ts ++ op :: us) (level.node left op right) := by
  obtain ⟨level, hmem, hp⟩ := op.kind.exists_level hop
  have hleft : (ExprRule.chain level).Reads ts left := readsAt_level.mp (hl.loosen (hp ▸ hle))
  have hright : (ExprRule.operand level).Reads us right :=
    (readsAt_operand level).mp (hr.loosen (hp ▸ hlt))
  refine ⟨level, hmem, ?_⟩
  rw [← hp]
  exact readsAt_level.mpr (hleft.snoc hmem hright)

theorem node_binary {level : Level} (hmem : op.kind ∈ level.operators)
    (h : 3 ≤ op.kind.precedence) : level.node left op right = .binary left op right := by
  rw [Level.precedence_operator hmem] at h
  cases level <;> first | rfl | exact absurd h (by decide)

theorem node_logical {level : Level} (hmem : op.kind ∈ level.operators)
    (h : op.kind = .kwOr ∨ op.kind = .kwAnd) :
    level.node left op right = .logical left op right := by
  have hp := Level.precedence_operator hmem
  cases level <;> first | rfl | (rcases h with h | h <;> rw [h] at hp <;> cases hp)

theorem reads_get (h : ReadsAt e.precedence ts e) (hp : 8 ≤ e.precedence)
    (hx : x.isName = true) : ReadsAt 8 (ts ++ [.mark .dot, x]) (.get e (some x)) := by
  have hcall : ExprRule.call.Reads ts e := h.loosen hp
  exact hcall.call_append (.property rfl (of_decide_eq_true hx) .called)

end

mutual

/-- The tokens of an expression in normal form read as it. -/
theorem Expr.reads_unparse (e : Expr) (h : e.normal = true) :
    ExprRule.ReadsAt e.precedence e.unparse e := by
  match e with
  | .absent => cases h
  | .assign x value =>
    simp only [Expr.normal, Bool.and_eq_true] at h
    have hname : ExprRule.ReadsAt 9 [x] (.name x) := .name (of_decide_eq_true h.1)
    have hvalue := value.reads_unparse h.2
    exact .assign (hname.loosen (by decide : 1 ≤ 9)) rfl (hvalue.loosen (Nat.zero_le _))
  | .binary left op right =>
    simp only [Expr.normal, Bool.and_eq_true, decide_eq_true_eq] at h
    obtain ⟨⟨⟨⟨hop, hle⟩, hlt⟩, hl⟩, hr⟩ := h
    obtain ⟨level, hmem, hread⟩ := reads_operation (by omega) (left.reads_unparse hl) hle
      (right.reads_unparse hr) hlt
    rwa [node_binary hmem hop] at hread
  | .logical left op right =>
    simp only [Expr.normal, Bool.and_eq_true, Bool.or_eq_true, decide_eq_true_eq] at h
    obtain ⟨⟨⟨⟨hop, hle⟩, hlt⟩, hl⟩, hr⟩ := h
    have hne : op.kind.precedence ≠ 0 := by
      rcases hop with hop | hop <;> rw [hop] <;> decide
    obtain ⟨level, hmem, hread⟩ := reads_operation hne (left.reads_unparse hl) hle
      (right.reads_unparse hr) hlt
    rwa [node_logical hmem hop] at hread
  | .call callee paren arguments =>
    simp only [Expr.normal, Bool.and_eq_true, decide_eq_true_eq, Option.any_eq_true] at h
    obtain ⟨⟨⟨hp, right, rfl, hr⟩, hc⟩, ha⟩ := h
    have hcallee : ExprRule.call.Reads callee.unparse callee :=
      (callee.reads_unparse hc).loosen hp
    refine hcallee.call_append ?_
    cases arguments with
    | nil => exact .plain rfl hr .called
    | cons e es => exact .apply rfl (reads_unparseArguments (e :: es) ha nofun) hr .called
  | .get object name =>
    simp only [Expr.normal, Bool.and_eq_true, decide_eq_true_eq, Option.any_eq_true] at h
    obtain ⟨⟨hp, x, rfl, hx⟩, ho⟩ := h
    exact reads_get (object.reads_unparse ho) hp hx
  | .group inner =>
    have hinner := inner.reads_unparse h
    exact .group rfl (hinner.loosen (Nat.zero_le _)) rfl
  | .literal value => exact value.reads_token
  | .set object name value =>
    simp only [Expr.normal, Bool.and_eq_true, decide_eq_true_eq, Option.any_eq_true] at h
    obtain ⟨⟨⟨hp, x, rfl, hx⟩, ho⟩, hv⟩ := h
    have hget := reads_get (object.reads_unparse ho) hp hx
    have hvalue := value.reads_unparse hv
    have hset : ExprRule.expression.Reads
        (object.unparse ++ [.mark .dot, x] ++ .mark .equal :: value.unparse)
        (.set object (some x) value) :=
      .set (hget.loosen (by decide : 1 ≤ 8)) rfl (hvalue.loosen (Nat.zero_le _))
    rwa [List.append_assoc] at hset
  | .superMethod keyword method =>
    simp only [Expr.normal, Bool.and_eq_true, decide_eq_true_eq, Option.any_eq_true] at h
    obtain ⟨⟨keyword, rfl, hk⟩, hm⟩ := h
    exact .superMethod hk rfl (of_decide_eq_true hm)
  | .receiver keyword =>
    simp only [Expr.normal, decide_eq_true_eq, Option.any_eq_true] at h
    obtain ⟨keyword, rfl, hk⟩ := h
    exact .receiver hk
  | .unary op right =>
    simp only [Expr.normal, Bool.and_eq_true, Bool.or_eq_true, decide_eq_true_eq] at h
    obtain ⟨⟨hop, hp⟩, hr⟩ := h
    have hright : ExprRule.unary.Reads right.unparse right := (right.reads_unparse hr).loosen hp
    exact .signed (by simpa using hop) hright
  | .name x => exact .name (of_decide_eq_true h)

theorem reads_unparseArguments (es : List Expr) (h : normalAll es = true) (hne : es ≠ []) :
    ExprRule.arguments.Reads (unparseArguments es) es := by
  match es with
  | [] => exact absurd rfl hne
  | [e] =>
    rw [normalAll, Bool.and_eq_true] at h
    exact .lastArgument ((e.reads_unparse h.1).loosen (Nat.zero_le _))
  | e :: e' :: es =>
    rw [normalAll, Bool.and_eq_true] at h
    have he : ExprRule.expression.Reads e.unparse e := (e.reads_unparse h.1).loosen (Nat.zero_le _)
    exact .argument he rfl (reads_unparseArguments (e' :: es) h.2 nofun)

end

/-! ## Statements -/

/-- The tokens read as a statement, which may stand wherever a declaration may. -/
def ReadsStmt (ts : List Token) (s : Stmt) : Prop :=
  StmtRule.declaration.Reads ts s s.dangles ∧
    (s.isDeclaration = false → StmtRule.statement.Reads ts s s.dangles)

theorem ReadsStmt.of_statement {ts : List Token} {s : Stmt}
    (h : StmtRule.statement.Reads ts s s.dangles) : ReadsStmt ts s :=
  ⟨.plain h, fun _ => h⟩

theorem Expr.reads_expression {e : Expr} (h : e.normal = true) :
    ExprRule.expression.Reads e.unparse e :=
  (e.reads_unparse h).loosen (Nat.zero_le _)

theorem Expr.eq_absent {e : Expr} (h : e.isAbsent = true) : e = .absent := by
  cases e <;> first | rfl | cases h

theorem Stmt.eq_absent {s : Stmt} (h : s.isAbsent = true) : s = .absent := by
  cases s <;> first | rfl | cases h

theorem reads_unparseNames {xs : List Token} (h : xs.all Token.isName = true) (hne : xs ≠ []) :
    StmtRule.names.Reads (unparseNames xs) xs false := by
  induction xs with
  | nil => exact absurd rfl hne
  | cons x xs ih =>
    rw [List.all_cons, Bool.and_eq_true] at h
    have hx : x.kind = .identifier := of_decide_eq_true h.1
    cases xs with
    | nil => exact .lastName hx
    | cons y ys => exact .name hx rfl (ih h.2 nofun)

/-- The condition of an `if` or a loop. -/
theorem reads_condition {c : Expr} (h : c.normal = true) :
    StmtRule.parenthesized.Reads (.mark .leftParen :: (c.unparse ++ [.mark .rightParen])) c false :=
  .parenthesized rfl (Expr.reads_expression h) rfl

theorem reads_parameters {xs : List Token} (h : xs.all Token.isName = true) :
    StmtRule.parameters.Reads
      (.mark .leftParen :: (unparseNames xs ++ [.mark .rightParen, .mark .leftBrace])) xs
      false := by
  cases xs with
  | nil => exact .noParameters rfl rfl rfl
  | cons x xs => exact .parameters rfl (reads_unparseNames h nofun) rfl rfl

theorem reads_superclass {superclass : Option Token} (h : superclass.all Token.isName = true) :
    StmtRule.superclassClause.Reads (unparseSuperclass superclass ++ [.mark .leftBrace]) superclass
      false := by
  cases superclass with
  | none => exact .noSuperclass rfl
  | some x => exact .superclass rfl (of_decide_eq_true h) rfl

/-- A choice with or without `else`. -/
theorem reads_choice {c : Expr} {yes no : Stmt} {ts us : List Token} (hc : c.normal = true)
    (hyes : StmtRule.statement.Reads ts yes yes.dangles)
    (hno : no.isAbsent = true ∨
      (yes.dangles = false ∧ no.isAbsent = false ∧ StmtRule.statement.Reads us no no.dangles)) :
    StmtRule.statement.Reads (.mark .kwIf :: .mark .leftParen :: (c.unparse ++ .mark .rightParen ::
      (ts ++ if no.isAbsent then [] else .mark .kwElse :: us))) (.choice c yes no)
      (Stmt.choice c yes no).dangles := by
  have hcondition := reads_condition hc
  rcases hno with habsent | ⟨hd, habsent, hno⟩
  · obtain rfl := Stmt.eq_absent habsent
    have hif : StmtRule.statement.Reads (.mark .kwIf :: _) _ _ := .ifOnly rfl hcondition hyes
    simpa [Stmt.dangles, Stmt.isAbsent] using hif
  · rw [hd] at hyes
    have helse : (Token.mark .kwElse).kind = .kwElse := rfl
    have hif : StmtRule.statement.Reads (.mark .kwIf :: _) _ _ :=
      .ifElse rfl hcondition hyes helse hno
    simpa [Stmt.dangles, habsent] using hif

/-- A `return` with or without a value. -/
theorem reads_return {keyword : Token} {value : Expr} (hk : keyword.kind = .kwReturn)
    (hv : value.isAbsent = true ∨ value.normal = true) :
    StmtRule.statement.Reads (keyword :: (value.unparse ++ [.mark .semicolon]))
      (.ret (some keyword) value) false := by
  rcases hv with habsent | hv
  · obtain rfl := Expr.eq_absent habsent
    exact .ret hk (.returnStatement .omitted rfl)
  · exact .ret hk (.returnStatement (.given (Expr.reads_expression hv)) rfl)

/-- A variable with or without an initial value. -/
theorem reads_variable {x : Token} {initial : Expr} (hx : x.isName = true)
    (hi : initial.isAbsent = true ∨ initial.normal = true) :
    StmtRule.declaration.Reads
      (.mark .kwVar :: x :: (initial.unparseInitial ++ [.mark .semicolon])) (.varDecl x initial)
      false := by
  have hx : x.kind = .identifier := of_decide_eq_true hx
  by_cases habsent : initial.isAbsent = true
  · obtain rfl := Expr.eq_absent habsent
    exact .varDecl rfl (.varPlain hx rfl)
  · have hi := Expr.reads_expression (hi.resolve_left habsent)
    rw [Expr.unparseInitial, if_neg habsent]
    exact .varDecl rfl (.varInitial hx rfl hi rfl)

mutual

/-- The tokens of a statement in normal form read as it. -/
theorem Stmt.reads_unparse (s : Stmt) (h : s.normal = true) : ReadsStmt s.unparse s := by
  match s with
  | .absent => cases h
  | .block body => exact .of_statement (.block rfl (reads_unparseBlock body h))
  | .classDecl x superclass methods =>
    simp only [Stmt.normal, Bool.and_eq_true] at h
    obtain ⟨⟨hx, hs⟩, hm⟩ := h
    obtain ⟨ms, rfl, hms⟩ := reads_unparseMethods methods hm
    have hclass : StmtRule.declaration.Reads (.mark .kwClass :: x :: _) _ _ :=
      .classDecl rfl (of_decide_eq_true hx) (reads_superclass hs) hms
    rw [List.append_assoc] at hclass
    exact ⟨hclass, nofun⟩
  | .expr e =>
    exact .of_statement (.expr (.expressionStatement (Expr.reads_expression h) rfl))
  | .funDecl decl => exact ⟨.funDecl rfl (decl.reads_unparse h), nofun⟩
  | .choice c yes no =>
    simp only [Stmt.normal, Bool.and_eq_true, Bool.or_eq_true, Bool.not_eq_true'] at h
    obtain ⟨⟨⟨hc, hy⟩, hyd⟩, hno⟩ := h
    have hyes := (yes.reads_unparse hy).2 hyd
    refine .of_statement (reads_choice hc hyes ?_)
    rcases hno with habsent | ⟨⟨hd, hn⟩, hnd⟩
    · exact .inl habsent
    · exact .inr ⟨hd, StmtRule.normal_not_absent hn, (no.reads_unparse hn).2 hnd⟩
  | .ret keyword value =>
    simp only [Stmt.normal, Bool.and_eq_true, Bool.or_eq_true, decide_eq_true_eq,
      Option.any_eq_true] at h
    obtain ⟨⟨keyword, rfl, hk⟩, hv⟩ := h
    exact .of_statement (reads_return hk hv)
  | .varDecl x initial =>
    simp only [Stmt.normal, Bool.and_eq_true, Bool.or_eq_true] at h
    exact ⟨reads_variable h.1 h.2, nofun⟩
  | .loop c body =>
    simp only [Stmt.normal, Bool.and_eq_true, Bool.not_eq_true'] at h
    obtain ⟨⟨hc, hb⟩, hd⟩ := h
    have hbody := (body.reads_unparse hb).2 hd
    have hloop : StmtRule.statement.Reads (.mark .kwWhile :: _) _ _ :=
      .loop rfl (reads_condition hc) hbody
    refine .of_statement ?_
    simpa [Stmt.unparse, Stmt.dangles] using hloop

theorem FunDecl.reads_unparse (f : FunDecl) (h : f.normal = true) :
    StmtRule.function.Reads f.unparse f false := by
  match f with
  | ⟨site, x, params, body⟩ =>
    simp only [FunDecl.normal, Bool.and_eq_true, decide_eq_true_eq] at h
    obtain ⟨⟨⟨rfl, hx⟩, hp⟩, hb⟩ := h
    obtain ⟨ss, rfl, hread⟩ := reads_unparseBody body hb
    have hfunction := StmtRule.Reads.function (of_decide_eq_true hx) (reads_parameters hp) hread
    simpa [FunDecl.unparse, Stmt.unparse] using hfunction

theorem reads_unparseBody (body : Stmt) (h : normalBody body = true) :
    ∃ ss, body = .block ss ∧
      StmtRule.block.Reads (unparseBlock ss ++ [.mark .rightBrace]) ss false := by
  match body with
  | .block ss => exact ⟨ss, rfl, reads_unparseBlock ss h⟩
  | .absent | .classDecl .. | .expr _ | .funDecl _ | .choice .. | .ret .. | .varDecl ..
  | .loop .. =>
    cases h

theorem reads_unparseBlock (ss : List Stmt) (h : normalBlock ss = true) :
    StmtRule.block.Reads (unparseBlock ss ++ [.mark .rightBrace]) ss false := by
  match ss with
  | [] => exact .blockEnd rfl
  | s :: ss =>
    rw [normalBlock, Bool.and_eq_true] at h
    rw [unparseBlock, List.append_assoc]
    exact .blockNext (s.reads_unparse h.1).1 (reads_unparseBlock ss h.2)

theorem reads_unparseMethods (methods : List (Option FunDecl)) (h : normalMethods methods = true) :
    ∃ ms, methods = ms.map some ∧
      StmtRule.methods.Reads (unparseMethods methods ++ [.mark .rightBrace]) ms false := by
  match methods with
  | [] => exact ⟨[], rfl, .methodsEnd rfl⟩
  | none :: _ => cases h
  | some m :: rest =>
    rw [normalMethods, Bool.and_eq_true] at h
    obtain ⟨ms, rfl, hms⟩ := reads_unparseMethods rest h.2
    refine ⟨m :: ms, rfl, ?_⟩
    rw [unparseMethods, List.append_assoc]
    exact .method (m.reads_unparse h.1) hms

end

/-! ## Programs -/

theorem declarations_unparse {ss : List Stmt} (h : ∀ s ∈ ss, s.normal = true) :
    Declarations (ss.flatMap Stmt.unparse) ss := by
  induction ss with
  | nil => exact .nil
  | cons s ss ih =>
    rw [List.flatMap_cons]
    exact .cons (s.reads_unparse (h s (by simp))).1 (ih fun s' hs' => h s' (by simp [hs']))

/-- **Parsing inverts printing.** Statements in normal form are read back from their tokens, without
an error; and every statement read from any tokens is in normal form. -/
theorem parse_unparse :
    (∀ (ss : List Stmt) (e : Token), (∀ s ∈ ss, s.normal = true) → e.kind = .endOfInput →
      parseProgram (ss.flatMap Stmt.unparse ++ [e]) = ⟨ss, []⟩) ∧
    ∀ (ts : List Token), ∀ s ∈ (parseProgram ts).statements, s.normal = true := by
  refine ⟨fun ss e h he => ?_, fun ts s hs => (programReads ts).normal hs⟩
  have hend : Parser.atEnd [e] = true := by simp [Parser.atEnd, he]
  exact (declarations_unparse h).parse hend

/-- A choice whose first branch is a loop, with an operation that leans to the left. -/
def leaningChoice : Stmt :=
  let x : Token := ⟨.identifier, "x", none, .start⟩
  let difference := Expr.binary (.name x) (.mark .minus) (.name x)
  .choice (.name x)
    (.loop (.literal (.bool true))
      (.expr (.assign x (.binary difference (.mark .minus) (.name x)))))
    (.expr (.call (.get (.name x) (some x)) (some (.mark .rightParen)) [difference]))

theorem parse_unparse_leaningChoice : leaningChoice.normal = true ∧
    parseProgram ([leaningChoice].flatMap Stmt.unparse ++ [.endOfInput .start]) =
      ⟨[leaningChoice], []⟩ := by
  have hnormal : leaningChoice.normal = true := rfl
  refine ⟨hnormal, parse_unparse.1 [leaningChoice] (.endOfInput .start) ?_ rfl⟩
  intro s hs
  rw [List.mem_singleton.mp hs]
  exact hnormal

end Dynascope
