import Dynascope.Proofs.Grammar.Productions
import Dynascope.Proofs.Tree.Program

/-!
# What is read can be derived

The tokens that a rule of the reader takes can be derived from the symbol of that rule. The target
of an assignment is read as a disjunction; that a variable or a property came out of it shows in its
tokens.

* `Expr.assignable`: the trees that an assignment turns into its target.
* `ExprRule.Derived`, `ExprRule.Reads.derived`: the rules for expressions.
* `StmtRule.Derived`, `StmtRule.Reads.derived`: the rules for statements.
* `Declarations.derived`: programs.
-/

namespace Dynascope

open Grammar Grammar.Form

/-- Whether a tree can be the target of an assignment. -/
def Expr.assignable : Expr → Bool
  | .name _ => true
  | .get .. => true
  | _ => false

namespace Level

/-- The symbol of an operation of a level. -/
def symbol : Level → Symbol
  | or => .or
  | and => .and
  | equality => .equality
  | comparison => .comparison
  | term => .term
  | factor => .factor

/-- The symbol of an operand of a level. -/
def operandSymbol : Level → Symbol
  | or => .and
  | and => .equality
  | equality => .comparison
  | comparison => .term
  | term => .factor
  | factor => .unary

theorem symbol_production (level : Level) :
    level.symbol.production = separated level.operators (.symbol level.operandSymbol) := by
  cases level <;> rfl

theorem operandSymbol_tighter {level level' : Level} (h : level.tighter? = some level') :
    level.operandSymbol = level'.symbol := by
  cases level <;> cases h <;> rfl

theorem operandSymbol_tightest {level : Level} (h : level.tighter? = none) :
    level.operandSymbol = .unary := by
  cases level <;> cases h
  rfl

theorem assignable_node (level : Level) (left right : Expr) (op : Token) :
    (level.node left op right).assignable = false := by
  cases level <;> rfl

end Level

namespace ExprRule

/-- What can be derived if a rule takes the tokens and gives the tree. A rule for the rest of an
expression gives back what stands before, if it takes no token. -/
def Derived : (r : ExprRule) → List Token → r.Tree → Prop
  | expression, ts, _ => Derives (.symbol .assignment) ts
  | chain level, ts, e =>
    Derives (.symbol level.symbol) ts ∧ (e.assignable = true → Derives target ts)
  | chainRest level left, ts, e =>
    Derives (.many (sequence [.token level.operators, .symbol level.operandSymbol])) ts ∧
      (e.assignable = true → ts = [] ∧ e = left)
  | operand level, ts, e =>
    Derives (.symbol level.operandSymbol) ts ∧ (e.assignable = true → Derives target ts)
  | unary, ts, e => Derives (.symbol .unary) ts ∧ (e.assignable = true → Derives target ts)
  | call, ts, e => Derives (.symbol .call) ts ∧ (e.assignable = true → Derives target ts)
  | callRest c, ts, e =>
    Derives (.many suffix) ts ∧ (e.assignable = true → (ts = [] ∧ e = c) ∨
      Derives (sequence [.many suffix, word .dot, word .identifier]) ts)
  | arguments, ts, _ => Derives (.symbol .arguments) ts
  | primary, ts, e =>
    Derives (.symbol .primary) ts ∧ (e.assignable = true → Derives (word .identifier) ts)

/-- A rule with a tree that is no target. -/
theorem primary_derived {f : Form} {ts : List Token} {e : Expr}
    (hf : f ∈ [word .kwTrue, word .kwFalse, word .kwNil, word .number, word .string,
      word .identifier, word .kwThis,
      sequence [word .leftParen, .symbol .expression, word .rightParen],
      sequence [word .kwSuper, word .dot, word .identifier]])
    (h : Derives f ts) (he : e.assignable = false) : Derived .primary ts e :=
  ⟨.symbol (.oneOf hf h), fun ha => by rw [he] at ha; cases ha⟩

/-- A suffix before a target that ends with a property. -/
theorem derived_more {ts us : List Token} (h : Derives suffix ts)
    (hget : Derives (sequence [.many suffix, word .dot, word .identifier]) us) :
    Derives (sequence [.many suffix, word .dot, word .identifier]) (ts ++ us) := by
  cases hget with
  | seq hmany hproperty =>
    rw [← List.append_assoc]
    exact .seq (.more h hmany) hproperty

/-- A call in front of the rest of its suffixes. -/
theorem derived_suffix {ts us : List Token} {c c' e : Expr} (h : Derives suffix ts)
    (hc : c'.assignable = false) (ih : Derived (.callRest c') us e) :
    Derived (.callRest c) (ts ++ us) e := by
  refine ⟨.more h ih.1, fun ha => ?_⟩
  rcases ih.2 ha with ⟨-, rfl⟩ | hget
  · rw [hc] at ha
    cases ha
  · exact .inr (derived_more h hget)

/-- **Expressions are derivable.** -/
theorem Reads.derived {r : ExprRule} {ts : List Token} {e : r.Tree} (h : r.Reads ts e) :
    r.Derived ts e := by
  induction h with
  | value _ ih => exact .symbol (.right (.left ih.1))
  | assign _ heq _ ihx ihv =>
    exact .symbol (.left (.seq (ihx.2 rfl) (.cons heq (.last ihv))))
  | set _ heq _ ihx ihv =>
    exact .symbol (.left (.seq (ihx.2 rfl) (.cons heq (.last ihv))))
  | @chain level ts us left e _ _ ihl ihr =>
    refine ⟨.symbol ?_, fun ha => ?_⟩
    · rw [level.symbol_production]
      exact .seq ihl.1 (.last ihr.1)
    · obtain ⟨rfl, rfl⟩ := ihr.2 ha
      rw [List.append_nil]
      exact ihl.2 ha
  | stop => exact ⟨.stop, fun _ => ⟨rfl, rfl⟩⟩
  | @link level left right e op ts us hop _ _ ihr ihe =>
    refine ⟨?_, fun ha => ?_⟩
    · have hlink : Derives (sequence [.token level.operators, .symbol level.operandSymbol])
          (op :: ts) := .seq (.token hop) (.last ihr.1)
      exact .more hlink ihe.1
    · obtain ⟨-, rfl⟩ := ihe.2 ha
      rw [Level.assignable_node] at ha
      cases ha
  | tighter hl _ ih =>
    exact ⟨Level.operandSymbol_tighter hl ▸ ih.1, ih.2⟩
  | tightest hl _ ih =>
    exact ⟨Level.operandSymbol_tightest hl ▸ ih.1, ih.2⟩
  | signed hop _ ih =>
    exact ⟨.symbol (.left (.seq (.token hop) (.last ih.1))), nofun⟩
  | unsigned _ ih => exact ⟨.symbol (.oneOf (by simp) ih.1), ih.2⟩
  | call _ _ ihc ihe =>
    refine ⟨.symbol (.seq ihc.1 (.last ihe.1)), fun ha => ?_⟩
    rcases ihe.2 ha with ⟨rfl, rfl⟩ | hget
    · rw [List.append_nil]
      exact .oneOf (by simp) (ihc.2 ha)
    · -- The last property of a call is the target.
      cases hget with
      | seq hmany hproperty =>
        have hcall : Derives (.symbol .call) _ := .symbol (.seq ihc.1 (.last hmany))
        rw [← List.append_assoc]
        exact .left (.seq hcall hproperty)
  | called => exact ⟨.stop, fun _ => .inl ⟨rfl, rfl⟩⟩
  | @plain c e left right us hl hr _ ih =>
    have hsuffix : Derives suffix [left, right] := .left (.cons hl (.seq .none (.ends hr)))
    exact derived_suffix hsuffix rfl ih
  | @apply c e left right args ts us hl _ hr _ iha ih =>
    have hsuffix : Derives suffix (left :: (ts ++ [right])) :=
      .left (.cons hl (.seq (.some iha) (.ends hr)))
    have hall : Derived (.callRest c) (left :: (ts ++ [right]) ++ us) e :=
      derived_suffix hsuffix rfl ih
    simpa using hall
  | @property c e dot x us hd hx _ ih =>
    have hsuffix : Derives suffix [dot, x] := .oneOf (by simp) (.cons hd (.ends hx))
    refine ⟨.more hsuffix ih.1, fun ha => ?_⟩
    rcases ih.2 ha with ⟨rfl, -⟩ | hget
    · exact .inr (.seq .stop (.cons hd (.ends hx)))
    · exact .inr (derived_more hsuffix hget)
  | lastArgument _ ih => exact .symbol (.separated_single (.symbol ih))
  | argument _ hc _ ih ihs =>
    cases ihs with
    | symbol ihs =>
      exact .symbol (.separated_cons (.symbol ih) (List.mem_singleton.mpr hc) ihs)
  | falseWord h => exact primary_derived (by simp) (.word h) rfl
  | trueWord h => exact primary_derived (by simp) (.word h) rfl
  | nilWord h => exact primary_derived (by simp) (.word h) rfl
  | constant h _ =>
    rcases h with h | h
    · exact primary_derived (by simp) (.word h) rfl
    · exact primary_derived (by simp) (.word h) rfl
  | superMethod hk hd hx => exact primary_derived (by simp) (.cons hk (.cons hd (.ends hx))) rfl
  | receiver hk => exact primary_derived (by simp) (.word hk) rfl
  | name hx => exact ⟨.symbol (.oneOf (by simp) (.word hx)), fun _ => .word hx⟩
  | @group left right ts e hl _ hr ih =>
    have hgroup : Derives (sequence [word .leftParen, .symbol .expression, word .rightParen])
        (left :: (ts ++ [right])) := .cons hl (.seq (.symbol ih) (.ends hr))
    exact primary_derived (by simp) hgroup rfl

theorem Reads.expression_derived {ts : List Token} {e : Expr} (h : expression.Reads ts e) :
    Derives (.symbol .expression) ts :=
  .symbol h.derived

end ExprRule

namespace StmtRule

/-- What can be derived if a rule takes the tokens. The keyword of a declaration or of a `return` is
read before the rule, and the opening brace of a body with the parameters or the superclass. -/
def Derived : StmtRule → List Token → Prop
  | names, ts => Derives (.symbol .parameters) ts
  | expressionStatement, ts => Derives (.symbol .exprStmt) ts
  | parenthesized, ts =>
    Derives (sequence [word .leftParen, .symbol .expression, word .rightParen]) ts
  | expressionUnless _, ts => Derives (opt (.symbol .expression)) ts
  | varDeclaration, ts => ∀ keyword : Token, keyword.kind = .kwVar →
    Derives (.symbol .varDecl) (keyword :: ts)
  | returnStatement _, ts => Derives (sequence [opt (.symbol .expression), word .semicolon]) ts
  | forInitial, ts =>
    Derives (oneOf [.symbol .varDecl, .symbol .exprStmt, word .semicolon]) ts
  | parameters, ts =>
    Derives (sequence [word .leftParen, opt (.symbol .parameters), word .rightParen,
      word .leftBrace]) ts
  | superclassClause, ts =>
    Derives (sequence [opt (sequence [word .less, word .identifier]), word .leftBrace]) ts
  | declaration, ts => Derives (.symbol .declaration) ts
  | function, ts => Derives (.symbol .function) ts
  | methods, ts => Derives (sequence [.many (.symbol .function), word .rightBrace]) ts
  | block, ts => Derives (sequence [.many (.symbol .declaration), word .rightBrace]) ts
  | statement, ts => Derives (.symbol .statement) ts

/-- One more item in front of a closing brace. -/
theorem derived_body {f : Form} {ts us : List Token} (h : Derives f ts)
    (hs : Derives (sequence [.many f, word .rightBrace]) us) :
    Derives (sequence [.many f, word .rightBrace]) (ts ++ us) := by
  cases hs with
  | seq hmany hbrace =>
    rw [← List.append_assoc]
    exact .seq (.more h hmany) hbrace

/-- A function from its parts; the opening brace of the body stands with the parameters. -/
theorem function_derived {x : Token} {ts us : List Token} (hx : x.kind = .identifier)
    (hp : Derived .parameters ts) (hb : Derived .block us) :
    Derived .function (x :: (ts ++ us)) := by
  obtain ⟨ts, brace, rfl, hparams, hbrace⟩ := Derives.sequence_split
    [word .leftParen, opt (.symbol .parameters), word .rightParen] hp
  have hblock : Derives (sequence [.symbol .block]) (brace ++ us) :=
    .last (.symbol (.sequence_append hbrace hb))
  rw [List.append_assoc]
  exact .symbol (.cons hx (.sequence_append hparams hblock))

/-- **Statements are derivable.** -/
theorem Reads.derived {r : StmtRule} {ts : List Token} {s : r.Tree} {dangling : Bool}
    (h : r.Reads ts s dangling) : r.Derived ts := by
  induction h with
  | lastName hx => exact .symbol (.separated_single (.word hx))
  | name hx hc _ ih =>
    cases ih with
    | symbol ih => exact .symbol (.separated_cons (.word hx) (List.mem_singleton.mpr hc) ih)
  | expressionStatement h hs => exact .symbol (.seq h.expression_derived (.ends hs))
  | parenthesized hl h hr => exact .cons hl (.seq h.expression_derived (.ends hr))
  | omitted => exact .none
  | given h => exact .some h.expression_derived
  | varPlain hx hs =>
    intro keyword hk
    exact .symbol (.cons hk (.cons hx (.seq .none (.ends hs))))
  | varInitial hx heq h hs =>
    intro keyword hk
    have hinitial := Derives.some (.cons heq (.last h.expression_derived))
    exact .symbol (.cons hk (.cons hx (.seq hinitial (.ends hs))))
  | returnStatement _ hs ih => exact .seq ih (.ends hs)
  | forNothing hs => exact .oneOf (by simp) (.word hs)
  | forVar hk _ ih => exact .left (ih _ hk)
  | forExpr _ ih => exact .right (.left ih)
  | noParameters hl hr hb => exact .cons hl (.seq .none (.cons hr (.ends hb)))
  | parameters hl _ hr hb ih => exact .cons hl (.seq (.some ih) (.cons hr (.ends hb)))
  | noSuperclass hb => exact .seq .none (.ends hb)
  | superclass hl hx hb => exact .seq (.some (.cons hl (.ends hx))) (.ends hb)
  | classDecl hk hx _ _ ihs ihm =>
    exact .symbol (.left (.symbol (.cons hk (.cons hx (.sequence_append ihs ihm)))))
  | funDecl hk _ ih => exact .symbol (.right (.left (.symbol (.cons hk (.last ih)))))
  | varDecl hk _ ih => exact .symbol (.right (.right (.left (ih _ hk))))
  | plain _ ih => exact .symbol (.right (.right (.right (.left ih))))
  | function hx _ _ ihp ihb => exact function_derived hx ihp ihb
  | methodsEnd hb => exact .seq .stop (.ends hb)
  | method _ _ ih ihs => exact derived_body ih ihs
  | blockEnd hb => exact .seq .stop (.ends hb)
  | blockNext _ _ ih ihs => exact derived_body ih ihs
  | expr _ ih => exact .symbol (.oneOf (by simp) ih)
  | forLoop hk hl _ _ hs _ hr _ ihi ihc ihn ihb =>
    have hfor : Derives (.symbol .forStmt) _ := .symbol (.cons hk (.cons hl (.seq ihi
      (.seq ihc (.cons hs (.seq ihn (.cons hr (.last ihb))))))))
    exact .symbol (.oneOf (by simp) hfor)
  | ifElse hk _ _ he _ ihc ihy ihn =>
    have hif : Derives (.symbol .ifStmt) _ := .symbol (.cons hk (.sequence_append ihc
      (.seq ihy (.last (.some (.cons he (.last ihn)))))))
    exact .symbol (.oneOf (by simp) hif)
  | ifOnly hk _ _ ihc ihy =>
    have hif : Derives (.symbol .ifStmt) _ := .symbol (.cons hk (.sequence_append ihc
      (.seq ihy (.last .none))))
    rw [List.append_nil] at hif
    exact .symbol (.oneOf (by simp) hif)
  | ret hk _ ih =>
    have hret : Derives (.symbol .returnStmt) _ := .symbol (.cons hk ih)
    exact .symbol (.oneOf (by simp) hret)
  | loop hk _ _ ihc ihb =>
    have hwhile : Derives (.symbol .whileStmt) _ := .symbol (.cons hk (.sequence_append ihc
      (.last ihb)))
    exact .symbol (.oneOf (by simp) hwhile)
  | block hb _ ih =>
    have hblock : Derives (.symbol .block) _ := .symbol (.cons hb ih)
    exact .symbol (.oneOf (by simp) hblock)

end StmtRule

theorem Declarations.derived {ts : List Token} {ss : List Stmt} (h : Declarations ts ss) :
    Derives (.many (.symbol .declaration)) ts := by
  induction h with
  | nil => exact .stop
  | cons h _ ih => exact .more h.derived ih

end Dynascope
