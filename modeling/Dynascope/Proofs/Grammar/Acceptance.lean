import Dynascope.Proofs.Grammar.Derivation
import Dynascope.Proofs.Tree.ExprChain
import Mathlib.Data.List.Forall2

/-!
# What can be derived is read

* `Grammar.Symbol.Readable`, `Grammar.Form.Readable`: what the rules of the reader say about the
  tokens of a symbol and of a form.
* `Grammar.Derives.readable`: derivations are closed under this reading, one lemma per production.
  An `else` in a derivation may belong to any `if` before it; `StmtRule.Reads.attach` moves it to
  the last one.
* `Declarations.of_parts`, `map_parse_of_parts`: parts that are one declaration each are read one
  after the other, each as it is read alone.
* `accepts_iff_derives`: a program is read without an error if and only if it can be derived, and
  then with one statement per declaration.
-/

namespace Dynascope

open Grammar

/-- Every number and string token has a value. -/
def Valued (ts : List Token) : Prop :=
  ∀ t ∈ ts, t.kind = .number ∨ t.kind = .string → t.value.isSome

theorem Valued.left {ts us : List Token} (h : Valued (ts ++ us)) : Valued ts :=
  fun t ht => h t (List.mem_append_left us ht)

theorem Valued.right {ts us : List Token} (h : Valued (ts ++ us)) : Valued us :=
  fun t ht => h t (List.mem_append_right ts ht)

/-- An `else` after a statement that ends with an `if` without `else` belongs to that `if`. -/
theorem StmtRule.Reads.attach {r : StmtRule} {ts : List Token} {s : r.Tree} {dangling : Bool}
    (h : r.Reads ts s dangling) (hr : r = .statement) (hd : dangling = true) {other : Token}
    {us : List Token} {no : Stmt} {dangling' : Bool} (he : other.kind = .kwElse)
    (hno : StmtRule.statement.Reads us no dangling') :
    ∃ s' d, StmtRule.statement.Reads (ts ++ other :: us) s' d := by
  induction h with
  | forLoop hk hl hi hc hs hn hr' _ _ _ _ ih =>
    obtain ⟨body, d, hb⟩ := ih rfl hd
    exact ⟨_, d, by simpa using .forLoop hk hl hi hc hs hn hr' hb⟩
  | ifElse hk hc hy he' _ _ _ ih =>
    obtain ⟨no', d, hn⟩ := ih rfl hd
    exact ⟨_, d, by simpa using .ifElse hk hc hy he' hn⟩
  | @ifOnly _ _ _ _ _ dangling hk hc hy _ ih =>
    cases dangling with
    | false => exact ⟨_, _, by simpa using .ifElse hk hc hy he hno⟩
    | true =>
      obtain ⟨yes, d, hy⟩ := ih rfl rfl
      exact ⟨_, true, by simpa using .ifOnly hk hc hy⟩
  | loop hk hc _ _ ih =>
    obtain ⟨body, d, hb⟩ := ih rfl hd
    exact ⟨_, d, by simpa using .loop hk hc hb⟩
  | expr => cases hd
  | ret => cases hd
  | block => cases hd
  | _ => cases hr

/-! ## Forms and symbols as rules of the reader -/

/-- Tokens in parts with a property, one after the other. -/
inductive Repeated (P : List Token → Prop) : List Token → Prop where
  | nil : Repeated P []
  | cons {ts us : List Token} (h : P ts) (hs : Repeated P us) : Repeated P (ts ++ us)

namespace Grammar

/-- The reader has a rule for the tokens of a symbol. -/
def Symbol.Readable : Symbol → List Token → Prop
  | declaration, ts => ∃ s dangling, StmtRule.declaration.Reads ts s dangling
  | classDecl, ts => ∃ s, StmtRule.declaration.Reads ts s false
  | funDecl, ts => ∃ s, StmtRule.declaration.Reads ts s false
  | function, ts => ∃ f, StmtRule.function.Reads ts f false
  | parameters, ts => ∃ xs, StmtRule.names.Reads ts xs false
  | varDecl, ts => ∃ keyword us s, ts = keyword :: us ∧ keyword.kind = .kwVar ∧
    StmtRule.varDeclaration.Reads us s false
  | exprStmt, ts => ∃ s, StmtRule.expressionStatement.Reads ts s false
  | block, ts => ∃ brace us ss, ts = brace :: us ∧ brace.kind = .leftBrace ∧
    StmtRule.block.Reads us ss false
  | statement, ts => ∃ s dangling, StmtRule.statement.Reads ts s dangling
  | forStmt, ts => ∃ s dangling, StmtRule.statement.Reads ts s dangling
  | ifStmt, ts => ∃ s dangling, StmtRule.statement.Reads ts s dangling
  | returnStmt, ts => ∃ s, StmtRule.statement.Reads ts s false
  | whileStmt, ts => ∃ s dangling, StmtRule.statement.Reads ts s dangling
  | expression, ts => ∃ e, ExprRule.expression.Reads ts e
  | assignment, ts => ∃ e, ExprRule.expression.Reads ts e
  | or, ts => ∃ e, (ExprRule.chain .or).Reads ts e
  | and, ts => ∃ e, (ExprRule.chain .and).Reads ts e
  | equality, ts => ∃ e, (ExprRule.chain .equality).Reads ts e
  | comparison, ts => ∃ e, (ExprRule.chain .comparison).Reads ts e
  | term, ts => ∃ e, (ExprRule.chain .term).Reads ts e
  | factor, ts => ∃ e, (ExprRule.chain .factor).Reads ts e
  | unary, ts => ∃ e, ExprRule.unary.Reads ts e
  | call, ts => ∃ e, ExprRule.call.Reads ts e
  | arguments, ts => ∃ es, ExprRule.arguments.Reads ts es
  | primary, ts => ∃ e, ExprRule.primary.Reads ts e

namespace Form

/-- The reader has rules for the tokens of a form. -/
def Readable : Form → List Token → Prop
  | token kinds, ts => ∃ t, ts = [t] ∧ t.kind ∈ kinds
  | symbol s, ts => s.Readable ts
  | nothing, ts => ts = []
  | seq f g, ts => ∃ us vs, ts = us ++ vs ∧ f.Readable us ∧ g.Readable vs
  | either f g, ts => f.Readable ts ∨ g.Readable ts
  | many f, ts => Repeated f.Readable ts

variable {f : Form} {fs : List Form} {ts : List Token} {kind : Kind}

theorem readable_symbol {s : Symbol} : (symbol s).Readable ts ↔ s.Readable ts := Iff.rfl

theorem readable_word : (word kind).Readable ts ↔ ∃ t, ts = [t] ∧ t.kind = kind := by
  simp only [word, Readable, List.mem_singleton]

theorem readable_opt : (opt f).Readable ts ↔ f.Readable ts ∨ ts = [] := Iff.rfl

theorem readable_oneOf : (oneOf fs).Readable ts ↔ ∃ f ∈ fs, f.Readable ts := by
  induction fs with
  | nil => simp [oneOf, Readable]
  | cons f fs ih => simp [oneOf, Readable, ih]

theorem readable_last : (sequence [f]).Readable ts ↔ f.Readable ts := by
  simp [sequence, Readable]

theorem readable_cons {g : Form} : (sequence (f :: g :: fs)).Readable ts ↔
    ∃ us vs, ts = us ++ vs ∧ f.Readable us ∧ (sequence (g :: fs)).Readable vs := Iff.rfl

theorem readable_many : (many f).Readable ts ↔ Repeated f.Readable ts := Iff.rfl

theorem readable_separated {kinds : List Kind} : (separated kinds f).Readable ts ↔
    ∃ us vs, ts = us ++ vs ∧ f.Readable us ∧
      Repeated (sequence [token kinds, f]).Readable vs := by
  simp only [separated, readable_cons, readable_last, readable_many]

/-- What a separator starts. -/
theorem readable_link {kinds : List Kind} (h : (sequence [token kinds, f]).Readable ts) :
    ∃ t us, ts = t :: us ∧ t.kind ∈ kinds ∧ f.Readable us := by
  obtain ⟨_, us, rfl, ⟨t, rfl, ht⟩, hf⟩ := readable_cons.mp h
  exact ⟨t, us, rfl, ht, readable_last.mp hf⟩

end Form

/-! ## Productions for expressions -/

open Form

variable {ts : List Token}

/-- An operand of a level, by its symbol. -/
theorem readable_operand {level : Level} (h : level.operandSymbol.Readable ts) :
    ∃ e, (ExprRule.operand level).Reads ts e := by
  cases level with
  | factor =>
    obtain ⟨e, he⟩ := h
    exact ⟨e, .tightest rfl he⟩
  | _ =>
    obtain ⟨e, he⟩ := h
    exact ⟨e, .tighter rfl he⟩

theorem readable_chainRest {level : Level} (left : Expr)
    (h : Repeated (sequence [token level.operators, symbol level.operandSymbol]).Readable ts) :
    ∃ e, (ExprRule.chainRest level left).Reads ts e := by
  induction h generalizing left with
  | nil => exact ⟨left, .stop⟩
  | cons h _ ih =>
    obtain ⟨op, us, rfl, hop, hr⟩ := readable_link h
    obtain ⟨right, hr⟩ := readable_operand hr
    obtain ⟨e, he⟩ := ih (level.node left op right)
    exact ⟨e, .link hop hr he⟩

/-- The production of a level is closed. -/
theorem readable_level {level : Level} (h : level.symbol.production.Readable ts) :
    ∃ e, (ExprRule.chain level).Reads ts e := by
  rw [level.symbol_production, readable_separated] at h
  obtain ⟨us, vs, rfl, hl, hs⟩ := h
  obtain ⟨left, hl⟩ := readable_operand hl
  obtain ⟨e, he⟩ := readable_chainRest left hs
  exact ⟨e, .chain hl he⟩

theorem readable_unary (h : Symbol.unary.production.Readable ts) : Symbol.unary.Readable ts := by
  simp only [Symbol.production, readable_oneOf, List.mem_cons, List.not_mem_nil, or_false] at h
  obtain ⟨f, rfl | rfl, h⟩ := h
  · obtain ⟨op, us, rfl, hop, e, he⟩ := readable_link h
    exact ⟨_, .signed hop he⟩
  · obtain ⟨e, he⟩ := h
    exact ⟨e, .unsigned he⟩

theorem readable_callRest (c : Expr) (h : Repeated suffix.Readable ts) :
    ∃ e, (ExprRule.callRest c).Reads ts e := by
  induction h generalizing c with
  | nil => exact ⟨c, .called⟩
  | cons h _ ih =>
    simp only [suffix, readable_oneOf, List.mem_cons, List.not_mem_nil, or_false] at h
    obtain ⟨f, rfl | rfl, h⟩ := h
    · simp only [readable_cons, readable_last, readable_word, readable_opt] at h
      obtain ⟨_, _, rfl, ⟨left, rfl, hl⟩, us, _, rfl, hargs, right, rfl, hr⟩ := h
      rcases hargs with ⟨args, ha⟩ | rfl
      · obtain ⟨e, he⟩ := ih (.call c (some right) args)
        exact ⟨e, by simpa using .apply hl ha hr he⟩
      · obtain ⟨e, he⟩ := ih (.call c (some right) [])
        exact ⟨e, .plain hl hr he⟩
    · simp only [readable_cons, readable_last, readable_word] at h
      obtain ⟨_, _, rfl, ⟨dot, rfl, hd⟩, x, rfl, hx⟩ := h
      obtain ⟨e, he⟩ := ih (.get c x)
      exact ⟨e, .property hd hx he⟩

theorem readable_call (h : Symbol.call.production.Readable ts) : Symbol.call.Readable ts := by
  simp only [Symbol.production, readable_cons, readable_last, readable_many] at h
  obtain ⟨us, vs, rfl, ⟨c, hc⟩, hs⟩ := h
  obtain ⟨e, he⟩ := readable_callRest c hs
  exact ⟨e, .call hc he⟩

theorem readable_arguments (h : Symbol.arguments.production.Readable ts) :
    Symbol.arguments.Readable ts := by
  simp only [Symbol.production, readable_separated] at h
  obtain ⟨us, vs, rfl, ⟨e, he⟩, hs⟩ := h
  induction hs generalizing us e with
  | nil => exact ⟨[e], by simpa using .lastArgument he⟩
  | cons h _ ih =>
    obtain ⟨comma, ws, rfl, hc, e', he'⟩ := readable_link h
    obtain ⟨es, hes⟩ := ih ws e' he'
    exact ⟨e :: es, by simpa using .argument he (List.mem_singleton.mp hc) hes⟩

/-- A target is read as a variable or as a property. -/
theorem readable_target (h : target.Readable ts) : ∃ e, e.assignable = true ∧
    (ExprRule.chain .or).Reads ts e := by
  simp only [target, readable_oneOf, List.mem_cons, List.not_mem_nil, or_false] at h
  obtain ⟨f, rfl | rfl, h⟩ := h
  · simp only [readable_cons, readable_last, readable_word] at h
    obtain ⟨us, _, rfl, ⟨c, hc⟩, _, _, rfl, ⟨dot, rfl, hd⟩, x, rfl, hx⟩ := h
    have hget : ExprRule.ReadsAt 8 (us ++ [dot, x]) (.get c x) :=
      hc.call_append (.property hd hx .called)
    exact ⟨_, rfl, hget.loosen (by decide : 1 ≤ 8)⟩
  · obtain ⟨x, rfl, hx⟩ := readable_word.mp h
    have hname : ExprRule.ReadsAt 9 [x] (.name x) := .name hx
    exact ⟨_, rfl, hname.loosen (by decide : 1 ≤ 9)⟩

theorem readable_assignment (h : Symbol.assignment.production.Readable ts) :
    Symbol.assignment.Readable ts := by
  simp only [Symbol.production, readable_oneOf, List.mem_cons, List.not_mem_nil, or_false] at h
  obtain ⟨f, rfl | rfl, h⟩ := h
  · simp only [readable_cons, readable_last, readable_word, readable_symbol] at h
    obtain ⟨us, _, rfl, ht, _, vs, rfl, ⟨eq, rfl, heq⟩, v, hv⟩ := h
    obtain ⟨e, he, hread⟩ := readable_target ht
    cases e with
    | name x => exact ⟨_, .assign hread heq hv⟩
    | get o x => exact ⟨_, .set hread heq hv⟩
    | _ => cases he
  · obtain ⟨e, he⟩ := h
    exact ⟨e, .value he⟩

theorem readable_primary (hv : Valued ts) (h : Symbol.primary.production.Readable ts) :
    Symbol.primary.Readable ts := by
  have hconstant : ∀ t : Token, Valued [t] → t.kind = .number ∨ t.kind = .string →
      Symbol.primary.Readable [t] := by
    intro t ht hk
    obtain ⟨v, hv⟩ := Option.isSome_iff_exists.mp (ht t (by simp) hk)
    exact ⟨_, .constant hk hv⟩
  simp only [Symbol.production, readable_oneOf, List.mem_cons, List.not_mem_nil, or_false] at h
  obtain ⟨f, rfl | rfl | rfl | rfl | rfl | rfl | rfl | rfl | rfl, h⟩ := h
  · obtain ⟨t, rfl, ht⟩ := readable_word.mp h
    exact ⟨_, .trueWord ht⟩
  · obtain ⟨t, rfl, ht⟩ := readable_word.mp h
    exact ⟨_, .falseWord ht⟩
  · obtain ⟨t, rfl, ht⟩ := readable_word.mp h
    exact ⟨_, .nilWord ht⟩
  · obtain ⟨t, rfl, ht⟩ := readable_word.mp h
    exact hconstant t hv (.inl ht)
  · obtain ⟨t, rfl, ht⟩ := readable_word.mp h
    exact hconstant t hv (.inr ht)
  · obtain ⟨t, rfl, ht⟩ := readable_word.mp h
    exact ⟨_, .name ht⟩
  · obtain ⟨t, rfl, ht⟩ := readable_word.mp h
    exact ⟨_, .receiver ht⟩
  · simp only [readable_cons, readable_last, readable_word] at h
    obtain ⟨_, _, rfl, ⟨left, rfl, hl⟩, us, _, rfl, ⟨e, he⟩, right, rfl, hr⟩ := h
    exact ⟨_, .group hl he hr⟩
  · simp only [readable_cons, readable_last, readable_word] at h
    obtain ⟨_, _, rfl, ⟨keyword, rfl, hk⟩, _, _, rfl, ⟨dot, rfl, hd⟩, x, rfl, hx⟩ := h
    exact ⟨_, .superMethod hk hd hx⟩

/-! ## Productions for statements -/

theorem readable_optional {kind : Kind} (h : (opt (symbol .expression)).Readable ts) :
    ∃ value, (StmtRule.expressionUnless kind).Reads ts value false := by
  rcases readable_opt.mp h with ⟨e, he⟩ | rfl
  · exact ⟨some e, .given he⟩
  · exact ⟨none, .omitted⟩

theorem readable_parameters (h : Symbol.parameters.production.Readable ts) :
    Symbol.parameters.Readable ts := by
  simp only [Symbol.production, readable_separated, readable_word] at h
  obtain ⟨_, vs, rfl, ⟨x, rfl, hx⟩, hs⟩ := h
  induction hs generalizing x with
  | nil => exact ⟨[x], .lastName hx⟩
  | cons h _ ih =>
    obtain ⟨comma, _, rfl, hc, hx'⟩ := readable_link h
    obtain ⟨y, rfl, hy⟩ := readable_word.mp hx'
    obtain ⟨xs, hxs⟩ := ih y hy
    exact ⟨x :: xs, .name hx (List.mem_singleton.mp hc) hxs⟩

theorem readable_varDecl (h : Symbol.varDecl.production.Readable ts) :
    Symbol.varDecl.Readable ts := by
  simp only [Symbol.production, readable_cons, readable_last, readable_word, readable_opt] at h
  obtain ⟨_, _, rfl, ⟨keyword, rfl, hk⟩, _, _, rfl, ⟨x, rfl, hx⟩, _, _, rfl, hinitial, semi, rfl,
    hs⟩ := h
  rcases hinitial with ⟨_, us, rfl, ⟨eq, rfl, heq⟩, e, he⟩ | rfl
  · exact ⟨keyword, _, _, rfl, hk, .varInitial hx heq he hs⟩
  · exact ⟨keyword, _, _, rfl, hk, .varPlain hx hs⟩

theorem readable_exprStmt (h : Symbol.exprStmt.production.Readable ts) :
    Symbol.exprStmt.Readable ts := by
  simp only [Symbol.production, readable_cons, readable_last, readable_word] at h
  obtain ⟨us, _, rfl, ⟨e, he⟩, semi, rfl, hs⟩ := h
  exact ⟨_, .expressionStatement he hs⟩

/-- The statements of a body and its closing brace. -/
theorem readable_statements {brace : Token} (h : Repeated (symbol .declaration).Readable ts)
    (hb : brace.kind = .rightBrace) : ∃ ss, StmtRule.block.Reads (ts ++ [brace]) ss false := by
  induction h with
  | nil => exact ⟨[], .blockEnd hb⟩
  | cons h _ ih =>
    obtain ⟨s, dangling, hs⟩ := h
    obtain ⟨ss, hss⟩ := ih
    exact ⟨s :: ss, by simpa using .blockNext hs hss⟩

theorem readable_methods {brace : Token} (h : Repeated (symbol .function).Readable ts)
    (hb : brace.kind = .rightBrace) : ∃ ms, StmtRule.methods.Reads (ts ++ [brace]) ms false := by
  induction h with
  | nil => exact ⟨[], .methodsEnd hb⟩
  | cons h _ ih =>
    obtain ⟨m, hm⟩ := h
    obtain ⟨ms, hms⟩ := ih
    exact ⟨m :: ms, by simpa using .method hm hms⟩

theorem readable_block (h : Symbol.block.production.Readable ts) : Symbol.block.Readable ts := by
  simp only [Symbol.production, readable_cons, readable_last, readable_word, readable_many] at h
  obtain ⟨_, _, rfl, ⟨left, rfl, hl⟩, us, _, rfl, hbody, right, rfl, hr⟩ := h
  obtain ⟨ss, hss⟩ := readable_statements hbody hr
  exact ⟨left, _, ss, rfl, hl, hss⟩

theorem readable_function (h : Symbol.function.production.Readable ts) :
    Symbol.function.Readable ts := by
  simp only [Symbol.production, readable_cons, readable_last, readable_word, readable_opt] at h
  obtain ⟨_, _, rfl, ⟨x, rfl, hx⟩, _, _, rfl, ⟨left, rfl, hl⟩, us, _, rfl, hparams, _, _, rfl,
    ⟨right, rfl, hr⟩, brace, vs, ss, rfl, hb, hbody⟩ := h
  rcases hparams with ⟨xs, hxs⟩ | rfl
  · have hfunction := StmtRule.Reads.function hx (.parameters hl hxs hr hb) hbody
    exact ⟨⟨0, x, xs, .block ss⟩, by simpa using hfunction⟩
  · have hfunction := StmtRule.Reads.function hx (.noParameters hl hr hb) hbody
    exact ⟨_, hfunction⟩

theorem readable_classDecl (h : Symbol.classDecl.production.Readable ts) :
    Symbol.classDecl.Readable ts := by
  simp only [Symbol.production, readable_cons, readable_last, readable_word, readable_opt,
    readable_many] at h
  obtain ⟨_, _, rfl, ⟨keyword, rfl, hk⟩, _, _, rfl, ⟨x, rfl, hx⟩, _, _, rfl, hsuper, _, _, rfl,
    ⟨left, rfl, hl⟩, us, _, rfl, hbody, right, rfl, hr⟩ := h
  obtain ⟨ms, hms⟩ := readable_methods hbody hr
  rcases hsuper with ⟨_, _, rfl, ⟨less, rfl, hless⟩, y, rfl, hy⟩ | rfl
  · have hclass := StmtRule.Reads.classDecl hk hx (.superclass hless hy hl) hms
    exact ⟨_, hclass⟩
  · have hclass := StmtRule.Reads.classDecl hk hx (.noSuperclass hl) hms
    exact ⟨_, hclass⟩

theorem readable_forInitial
    (h : (oneOf [symbol .varDecl, symbol .exprStmt, word .semicolon]).Readable ts) :
    ∃ initial, StmtRule.forInitial.Reads ts initial false := by
  simp only [readable_oneOf, List.mem_cons, List.not_mem_nil, or_false] at h
  obtain ⟨f, rfl | rfl | rfl, h⟩ := h
  · obtain ⟨keyword, us, s, rfl, hk, hs⟩ := h
    exact ⟨some s, .forVar hk hs⟩
  · obtain ⟨s, hs⟩ := h
    exact ⟨some s, .forExpr hs⟩
  · obtain ⟨semi, rfl, hs⟩ := readable_word.mp h
    exact ⟨none, .forNothing hs⟩

theorem readable_forStmt (h : Symbol.forStmt.production.Readable ts) :
    Symbol.forStmt.Readable ts := by
  simp only [Symbol.production, readable_cons, readable_last, readable_word] at h
  obtain ⟨_, _, rfl, ⟨keyword, rfl, hk⟩, _, _, rfl, ⟨left, rfl, hl⟩, us, _, rfl, hinitial, vs, _,
    rfl, hcondition, _, _, rfl, ⟨semi, rfl, hs⟩, ws, _, rfl, hincrement, _, _, rfl,
    ⟨right, rfl, hr⟩, body, dangling, hbody⟩ := h
  obtain ⟨initial, hinitial⟩ := readable_forInitial hinitial
  obtain ⟨condition, hcondition⟩ := readable_optional hcondition
  obtain ⟨increment, hincrement⟩ := readable_optional hincrement
  exact ⟨_, dangling, .forLoop hk hl hinitial hcondition hs hincrement hr hbody⟩

/-- The one production that leaves a choice: an `else` after a first branch that dangles. -/
theorem readable_ifStmt (h : Symbol.ifStmt.production.Readable ts) :
    Symbol.ifStmt.Readable ts := by
  simp only [Symbol.production, readable_cons, readable_last, readable_word, readable_opt] at h
  obtain ⟨_, _, rfl, ⟨keyword, rfl, hk⟩, _, _, rfl, ⟨left, rfl, hl⟩, us, _, rfl, ⟨c, hc⟩, _, _, rfl,
    ⟨right, rfl, hr⟩, vs, _, rfl, ⟨yes, dangling, hy⟩, helse⟩ := h
  have hcondition := StmtRule.Reads.parenthesized hl hc hr
  rcases helse with ⟨_, ws, rfl, ⟨other, rfl, he⟩, no, dangling', hno⟩ | rfl
  · cases dangling with
    | false =>
      refine ⟨.choice c yes no, dangling', ?_⟩
      simpa using StmtRule.Reads.ifElse hk hcondition hy he hno
    | true =>
      obtain ⟨yes', d, hy'⟩ := hy.attach rfl rfl he hno
      refine ⟨.choice c yes' .absent, true, ?_⟩
      simpa using StmtRule.Reads.ifOnly hk hcondition hy'
  · refine ⟨.choice c yes .absent, true, ?_⟩
    simpa using StmtRule.Reads.ifOnly hk hcondition hy

theorem readable_returnStmt (h : Symbol.returnStmt.production.Readable ts) :
    Symbol.returnStmt.Readable ts := by
  simp only [Symbol.production, readable_cons, readable_last, readable_word] at h
  obtain ⟨_, _, rfl, ⟨keyword, rfl, hk⟩, us, _, rfl, hvalue, semi, rfl, hs⟩ := h
  obtain ⟨value, hvalue⟩ := readable_optional hvalue
  exact ⟨_, .ret hk (.returnStatement hvalue hs)⟩

theorem readable_whileStmt (h : Symbol.whileStmt.production.Readable ts) :
    Symbol.whileStmt.Readable ts := by
  simp only [Symbol.production, readable_cons, readable_last, readable_word] at h
  obtain ⟨_, _, rfl, ⟨keyword, rfl, hk⟩, _, _, rfl, ⟨left, rfl, hl⟩, us, _, rfl, ⟨c, hc⟩, _, _, rfl,
    ⟨right, rfl, hr⟩, body, dangling, hb⟩ := h
  refine ⟨.loop c body, dangling, ?_⟩
  simpa using StmtRule.Reads.loop hk (.parenthesized hl hc hr) hb

theorem readable_statement (h : Symbol.statement.production.Readable ts) :
    Symbol.statement.Readable ts := by
  simp only [Symbol.production, readable_oneOf, List.mem_cons, List.not_mem_nil, or_false] at h
  obtain ⟨f, rfl | rfl | rfl | rfl | rfl | rfl, h⟩ := h
  · obtain ⟨s, hs⟩ := h
    exact ⟨s, false, .expr hs⟩
  · exact h
  · exact h
  · obtain ⟨s, hs⟩ := h
    exact ⟨s, false, hs⟩
  · exact h
  · obtain ⟨brace, us, ss, rfl, hb, hss⟩ := h
    exact ⟨.block ss, false, .block hb hss⟩

theorem readable_declaration (h : Symbol.declaration.production.Readable ts) :
    Symbol.declaration.Readable ts := by
  simp only [Symbol.production, readable_oneOf, List.mem_cons, List.not_mem_nil, or_false] at h
  obtain ⟨f, rfl | rfl | rfl | rfl, h⟩ := h
  · obtain ⟨s, hs⟩ := h
    exact ⟨s, false, hs⟩
  · obtain ⟨s, hs⟩ := h
    exact ⟨s, false, hs⟩
  · obtain ⟨keyword, us, s, rfl, hk, hs⟩ := h
    exact ⟨s, false, .varDecl hk hs⟩
  · obtain ⟨s, dangling, hs⟩ := h
    exact ⟨s, dangling, .plain hs⟩

/-! ## Derivations -/

/-- Every production is closed. -/
theorem Symbol.readable_of_production (s : Symbol) (hv : Valued ts)
    (h : s.production.Readable ts) : s.Readable ts := by
  cases s with
  | declaration => exact readable_declaration h
  | classDecl => exact readable_classDecl h
  | funDecl =>
    simp only [Symbol.production, readable_cons, readable_last, readable_word] at h
    obtain ⟨_, us, rfl, ⟨keyword, rfl, hk⟩, f, hf⟩ := h
    exact ⟨_, .funDecl hk hf⟩
  | function => exact readable_function h
  | parameters => exact readable_parameters h
  | varDecl => exact readable_varDecl h
  | statement => exact readable_statement h
  | exprStmt => exact readable_exprStmt h
  | forStmt => exact readable_forStmt h
  | ifStmt => exact readable_ifStmt h
  | returnStmt => exact readable_returnStmt h
  | whileStmt => exact readable_whileStmt h
  | block => exact readable_block h
  | expression => exact h
  | assignment => exact readable_assignment h
  | or => exact @readable_level ts .or h
  | and => exact @readable_level ts .and h
  | equality => exact @readable_level ts .equality h
  | comparison => exact @readable_level ts .comparison h
  | term => exact @readable_level ts .term h
  | factor => exact @readable_level ts .factor h
  | unary => exact readable_unary h
  | call => exact readable_call h
  | arguments => exact readable_arguments h
  | primary => exact readable_primary hv h

theorem Derives.readable {f : Form} (h : Derives f ts) (hv : Valued ts) : f.Readable ts := by
  induction h with
  | @token kinds t h => exact ⟨t, rfl, h⟩
  | symbol _ ih => exact Symbol.readable_of_production _ hv (ih hv)
  | nothing => rfl
  | seq _ _ ihf ihg => exact ⟨_, _, rfl, ihf hv.left, ihg hv.right⟩
  | left _ ih => exact .inl (ih hv)
  | right _ ih => exact .inr (ih hv)
  | stop => exact .nil
  | more _ _ ih ihs => exact .cons (ih hv.left) (ihs hv.right)

end Grammar

/-- A derivation of declarations is a list of declarations. -/
theorem declarations_of_repeated {ts : List Token}
    (h : Repeated (Form.symbol .declaration).Readable ts) : ∃ ss, Declarations ts ss := by
  induction h with
  | nil => exact ⟨[], .nil⟩
  | cons h _ ih =>
    obtain ⟨s, dangling, hs⟩ := h
    obtain ⟨ss, hss⟩ := ih
    exact ⟨s :: ss, .cons hs hss⟩

/-- Derivable parts are read one by one. -/
theorem parts_of_derives {ds : List (List Token)} (hv : Valued ds.flatten)
    (h : ∀ d ∈ ds, Derives (.symbol .declaration) d) :
    ∃ ss, List.Forall₂ (fun d s => ∃ dangling, StmtRule.declaration.Reads d s dangling) ds ss := by
  induction ds with
  | nil => exact ⟨[], .nil⟩
  | cons d ds ih =>
    rw [List.flatten_cons] at hv
    obtain ⟨s, dangling, hs⟩ := (h d (by simp)).readable hv.left
    obtain ⟨ss, hss⟩ := ih hv.right fun d' hd' => h d' (by simp [hd'])
    exact ⟨s :: ss, .cons ⟨dangling, hs⟩ hss⟩

/-- Token lists of one declaration each, one after the other. -/
theorem Declarations.of_parts {ds : List (List Token)} {ss : List Stmt}
    (h : List.Forall₂ (fun d s => ∃ dangling, StmtRule.declaration.Reads d s dangling) ds ss) :
    Declarations ds.flatten ss := by
  induction h with
  | nil => exact .nil
  | cons h _ ih =>
    obtain ⟨dangling, h⟩ := h
    exact .cons h ih

/-- Each part is read alone as it is read among the others. -/
theorem map_parse_of_parts {ds : List (List Token)} {ss : List Stmt} {rest : List Token}
    (hend : Parser.atEnd rest = true)
    (h : List.Forall₂ (fun d s => ∃ dangling, StmtRule.declaration.Reads d s dangling) ds ss) :
    ss.map (fun s => Parsed.mk [s] []) = ds.map fun d => parseProgram (d ++ rest) := by
  induction h with
  | nil => rfl
  | cons h _ ih =>
    obtain ⟨dangling, h⟩ := h
    rw [List.map_cons, List.map_cons, ih, (Declarations.single h).parse hend]

/-- **The grammar is accepted exactly.** Tokens before the end of the input, with a value for every
number and string, are read without an error if and only if they can be derived as declarations.
Then there is one statement for each declaration, in order: the one that the rule for declarations
reads from the tokens of this declaration, and that these tokens alone are read as. -/
theorem accepts_iff_derives {ts : List Token} {e : Token} (hts : NoEnd ts) (hv : Valued ts)
    (he : e.kind = .endOfInput) :
    ((parseProgram (ts ++ [e])).errors = [] ↔ Derives (.many (.symbol .declaration)) ts) ∧
    ∀ ds : List (List Token), ds.flatten = ts → (∀ d ∈ ds, Derives (.symbol .declaration) d) →
      Declarations ts (parseProgram (ts ++ [e])).statements ∧
      List.Forall₂ (fun d s => ∃ dangling, StmtRule.declaration.Reads d s dangling) ds
        (parseProgram (ts ++ [e])).statements ∧
      (parseProgram (ts ++ [e])).statements.map (fun s => Parsed.mk [s] []) =
        ds.map fun d => parseProgram (d ++ [e]) := by
  have hend : Parser.atEnd [e] = true := by simp [Parser.atEnd, he]
  refine ⟨⟨fun h => ?_, fun h => ?_⟩, fun ds hds h => ?_⟩
  · obtain ⟨used, rest, heq, hused, hrest, hs⟩ := (programReads (ts ++ [e])).declarations h
    obtain rfl := eq_of_noEnd hts hused he hrest heq
    exact hs.derived
  · obtain ⟨ss, hs⟩ := declarations_of_repeated (h.readable hv)
    rw [hs.parse hend]
  · subst hds
    obtain ⟨ss, hparts⟩ := parts_of_derives hv h
    have hs : Declarations ds.flatten ss := .of_parts hparts
    rw [hs.parse hend]
    exact ⟨hs, hparts, map_parse_of_parts hend hparts⟩

/-- Tokens with two places for an `else`, and a string. -/
def danglingElse : List Token :=
  ([.kwIf, .leftParen, .identifier, .rightParen, .kwIf, .leftParen, .identifier, .rightParen,
    .identifier, .semicolon, .kwElse] : List Kind).map (fun k => ⟨k, k.name, none, .start⟩) ++
  [⟨.string, "\"s\"", some (.string "s"), .start⟩, ⟨.semicolon, ";", none, .start⟩]

theorem danglingElse_derives : NoEnd danglingElse ∧ Valued danglingElse ∧
    (parseProgram (danglingElse ++ [.endOfInput .start])).errors = [] ∧
    Derives (.many (.symbol .declaration)) danglingElse := by
  have hts : NoEnd danglingElse := by unfold NoEnd; decide
  have hv : Valued danglingElse := by unfold Valued; decide
  have hparse : (parseProgram (danglingElse ++ [.endOfInput .start])).errors = [] := rfl
  exact ⟨hts, hv, hparse, (accepts_iff_derives hts hv rfl).1.mp hparse⟩

end Dynascope
