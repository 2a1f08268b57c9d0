import Dynascope.Proofs.Tree.StmtRule

/-!
# What may follow a statement

Most rules for statements end with a token of their own, so anything may follow. The exceptions are
a list of names, an expression that may be missing, and a dangling statement, which an `else` after
it would extend.

* `StmtRule.Follows`: the tokens that may follow those of a rule.
* `StmtRule.Reads.run`: tokens that read as a tree are read as that tree, whatever follows them that
  may follow.
-/

namespace Dynascope

open Dynascope.Parser

namespace StmtRule

/-- The tokens `rest` may follow tokens of the rule. An expression that may be missing is followed
by the token that tells. -/
def Follows : StmtRule → (rest : List Token) → Prop
  | names, rest => Stops [.comma] rest
  | expressionUnless kind, rest =>
    kind ∈ [Kind.semicolon, .rightParen] ∧ ∃ t rest', rest = t :: rest' ∧ t.kind = kind
  | _, _ => True

/-- What follows the first statement of a block. -/
theorem Reads.block_first {ts : List Token} {ss : List Stmt} {dangling : Bool}
    (h : Reads .block ts ss dangling) :
    ∃ t rest, ts = t :: rest ∧ t.kind ∈ .rightBrace :: starters := by
  cases h with
  | blockEnd hb => exact ⟨_, _, rfl, by rw [hb]; decide⟩
  | blockNext h _ =>
    obtain ⟨t, rest, rfl, hk⟩ := h.first rfl
    exact ⟨t, _, rfl, List.mem_cons_of_mem _ hk⟩

theorem Reads.names_first {ts xs : List Token} {dangling : Bool}
    (h : Reads .names ts xs dangling) : ∃ x rest, ts = x :: rest ∧ x.kind = .identifier := by
  cases h with
  | lastName hx => exact ⟨_, _, rfl, hx⟩
  | name hx _ _ => exact ⟨_, _, rfl, hx⟩

theorem Reads.function_first {ts : List Token} {f : FunDecl} {dangling : Bool}
    (h : Reads .function ts f dangling) : ∃ x rest, ts = x :: rest ∧ x.kind = .identifier := by
  cases h with
  | function hx _ _ => exact ⟨_, _, rfl, hx⟩

/-- An expression with its semicolon does not start like another statement. -/
theorem Reads.expression_stops {ts : List Token} {s : Stmt} {dangling : Bool}
    (h : Reads .expressionStatement ts s dangling) {kinds : List Kind}
    (hk : ∀ k ∈ ExprRule.starters, k ∉ kinds) (rest : List Token) : Stops kinds (ts ++ rest) := by
  cases h with
  | expressionStatement h _ =>
    obtain ⟨t, ts, rfl, hfirst⟩ := h.first rfl
    exact .cons (hk _ hfirst)

/-- A statement does not start like a declaration. -/
theorem Reads.statement_stops {ts : List Token} {s : Stmt} {dangling : Bool}
    (h : Reads .statement ts s dangling) (rest : List Token) :
    Stops [.kwClass, .kwFun, .kwVar] (ts ++ rest) := by
  cases h with
  | expr h => exact h.expression_stops (by decide) rest
  | forLoop hk => exact .cons (by rw [hk]; decide)
  | ifElse hk => exact .cons (by rw [hk]; decide)
  | ifOnly hk => exact .cons (by rw [hk]; decide)
  | ret hk => exact .cons (by rw [hk]; decide)
  | loop hk => exact .cons (by rw [hk]; decide)
  | block hb => exact .cons (by rw [hb]; decide)

variable {n : Nat} {ts rest : List Token} {s : Stmt} {dangling : Bool}

/-! ## The readers of parts of statements -/

/-- An expression before a token that ends it. -/
theorem expression_run {e : Expr} {t : Token} (h : ExprRule.expression.Reads ts e)
    (ht : t.kind ∈ [Kind.semicolon, .rightParen]) (hn : 32 * ts.length + 16 ≤ n) :
    Dynascope.expression n (ts ++ t :: rest) = .ok e (t :: rest) := by
  refine h.run (.cons ?_) hn
  simp only [List.mem_cons, List.not_mem_nil, or_false] at ht
  rcases ht with ht | ht <;> rw [ht] <;> decide

theorem names_run {xs : List Token} (h : Reads .names ts xs dangling) (hs : Stops [.comma] rest)
    (hn : 32 * ts.length + 1 ≤ n) : Parser.names n (ts ++ rest) = .ok xs rest := by
  induction n generalizing ts xs with
  | zero => omega
  | succ n ih =>
    cases h with
    | lastName hx =>
      rw [List.singleton_append, Parser.names, bind_ok (expect_ok hx), bind_ok (accept_none hs)]
      rfl
    | name hx hc h =>
      simp only [List.length_cons] at hn
      have hmore := ih h (by omega)
      rw [List.cons_append, List.cons_append, Parser.names, bind_ok (expect_ok hx),
        bind_ok (accept_some (List.mem_singleton.mpr hc))]
      exact bind_ok hmore

theorem expressionStatement_run (h : Reads .expressionStatement ts s dangling)
    (hn : 32 * ts.length + 16 ≤ n) :
    Dynascope.expressionStatement n (ts ++ rest) = .ok s rest := by
  cases h with
  | @expressionStatement ts e semi h hs =>
    simp only [List.length_append] at hn
    have hexpr : Dynascope.expression n (ts ++ semi :: rest) = .ok e (semi :: rest) :=
      expression_run h (by rw [hs]; decide) (by omega)
    rw [List.append_assoc, List.singleton_append, Dynascope.expressionStatement, bind_ok hexpr,
      bind_ok (expect_ok hs)]
    rfl

theorem parenthesized_run {e : Expr} (h : Reads .parenthesized ts e dangling)
    (hn : 32 * ts.length + 1 ≤ n) :
    Dynascope.parenthesized n (ts ++ rest) = .ok e rest := by
  cases h with
  | @parenthesized left right ts e hl h hr =>
    simp only [List.length_cons, List.length_append] at hn
    have hexpr : Dynascope.expression n (ts ++ right :: rest) = .ok e (right :: rest) :=
      expression_run h (by rw [hr]; decide) (by omega)
    rw [List.cons_append, List.append_assoc, List.singleton_append, Dynascope.parenthesized,
      bind_ok (expect_ok hl), bind_ok hexpr, bind_ok (expect_ok hr)]
    rfl

theorem expressionUnless_run {kind : Kind} {value : Option Expr}
    (h : Reads (.expressionUnless kind) ts value dangling)
    (hf : Follows (.expressionUnless kind) rest) (hn : 32 * ts.length + 16 ≤ n) :
    Dynascope.expressionUnless kind n (ts ++ rest) = .ok value rest := by
  obtain ⟨hkind, t, rest, rfl, hk⟩ := hf
  cases h with
  | omitted => exact bind_ok (next_true hk)
  | @given _ _ e h =>
    have hexpr : Dynascope.expression n (ts ++ t :: rest) = .ok e (t :: rest) :=
      expression_run h (hk ▸ hkind) hn
    obtain ⟨first, ts, rfl, hfirst⟩ := h.first rfl
    -- The token that tells that the expression is missing does not start an expression.
    have hne : first.kind ≠ kind := by
      simp only [List.mem_cons, List.not_mem_nil, or_false] at hkind
      intro he
      rw [he] at hfirst
      rcases hkind with rfl | rfl <;> revert hfirst <;> decide
    exact (bind_ok (next_false hne)).trans (bind_ok hexpr)

theorem varDeclaration_run (h : Reads .varDeclaration ts s dangling)
    (hn : 32 * ts.length + 1 ≤ n) :
    Dynascope.varDeclaration n (ts ++ rest) = .ok s rest := by
  cases h with
  | varPlain hx hs =>
    rw [List.cons_append, List.singleton_append, Dynascope.varDeclaration, bind_ok (expect_ok hx),
      bind_ok (accept_none (.cons (by rw [hs]; decide)))]
    exact bind_ok (expect_ok hs)
  | @varInitial x eq semi ts e hx heq h hs =>
    simp only [List.length_cons, List.length_append] at hn
    have hexpr : Dynascope.expression n (ts ++ semi :: rest) = .ok e (semi :: rest) :=
      expression_run h (by rw [hs]; decide) (by omega)
    rw [List.cons_append, List.cons_append, List.append_assoc, List.singleton_append,
      Dynascope.varDeclaration, bind_ok (expect_ok hx),
      bind_ok (accept_some (List.mem_singleton.mpr heq))]
    exact (bind_ok hexpr).trans (bind_ok (expect_ok hs))

theorem returnStatement_run {keyword : Token} (h : Reads (.returnStatement keyword) ts s dangling)
    (hn : 32 * ts.length + 16 ≤ n) :
    Dynascope.returnStatement keyword n (ts ++ rest) = .ok s rest := by
  cases h with
  | @returnStatement _ semi ts value h hs =>
    simp only [List.length_append] at hn
    have hvalue : Dynascope.expressionUnless .semicolon n (ts ++ semi :: rest) =
        .ok value (semi :: rest) :=
      expressionUnless_run h ⟨by decide, semi, rest, rfl, hs⟩ (by omega)
    rw [List.append_assoc, List.singleton_append, Dynascope.returnStatement, bind_ok hvalue,
      bind_ok (expect_ok hs)]
    rfl

theorem forInitial_run {initial : Option Stmt} (h : Reads .forInitial ts initial dangling)
    (hn : 32 * ts.length + 16 ≤ n) :
    Dynascope.forInitial n (ts ++ rest) = .ok initial rest := by
  cases h with
  | forNothing hs =>
    rw [List.singleton_append, Dynascope.forInitial, bind_ok (accept_some (by rw [hs]; decide))]
    simp only [hs]
    rfl
  | @forVar keyword ts s hk h =>
    simp only [List.length_cons] at hn
    have hvar : Dynascope.varDeclaration n (ts ++ rest) = .ok s rest :=
      varDeclaration_run h (by omega)
    rw [List.cons_append, Dynascope.forInitial, bind_ok (accept_some (by rw [hk]; decide))]
    simp only [hk]
    exact bind_ok hvar
  | @forExpr _ s h =>
    have hexpr : Dynascope.expressionStatement n (ts ++ rest) = .ok s rest :=
      expressionStatement_run h hn
    have hnone : accept [.semicolon, .kwVar] (ts ++ rest) = .ok none (ts ++ rest) :=
      accept_none (h.expression_stops (by decide) rest)
    rw [Dynascope.forInitial, bind_ok hnone]
    exact bind_ok hexpr

theorem parameters_run {xs : List Token} (h : Reads .parameters ts xs dangling)
    (hn : 32 * ts.length + 1 ≤ n) :
    Dynascope.parameters n (ts ++ rest) = .ok xs rest := by
  cases h with
  | @noParameters left right brace hl hr hb =>
    have hgiven : (do
        if ← next .rightParen then return []
        else Parser.names n) (right :: brace :: rest) = .ok [] (right :: brace :: rest) :=
      bind_ok (next_true hr)
    rw [List.cons_append, List.cons_append, List.singleton_append, Dynascope.parameters,
      bind_ok (expect_ok hl), bind_ok hgiven, bind_ok (expect_ok hr), bind_ok (expect_ok hb)]
    rfl
  | @parameters left right brace ts _ hl h hr hb =>
    simp only [List.length_cons, List.length_append] at hn
    have hnames : Parser.names n (ts ++ right :: brace :: rest) =
        .ok xs (right :: brace :: rest) :=
      names_run h (.cons (by rw [hr]; decide)) (by omega)
    have hgiven : (do
        if ← next .rightParen then return []
        else Parser.names n) (ts ++ right :: brace :: rest) = .ok xs (right :: brace :: rest) := by
      obtain ⟨first, ts, rfl, hfirst⟩ := h.names_first
      exact (bind_ok (next_false (by rw [hfirst]; decide))).trans hnames
    rw [List.cons_append, List.append_assoc, List.cons_append, List.singleton_append,
      Dynascope.parameters, bind_ok (expect_ok hl), bind_ok hgiven, bind_ok (expect_ok hr),
      bind_ok (expect_ok hb)]
    rfl

theorem superclassClause_run {superclass : Option Token}
    (h : Reads .superclassClause ts superclass dangling) :
    Dynascope.superclassClause (ts ++ rest) = .ok superclass rest := by
  cases h with
  | @noSuperclass brace hb =>
    refine (bind_ok (?_ : _ = EStateM.Result.ok none (brace :: rest))).trans
      (bind_ok (expect_ok hb))
    exact bind_ok (accept_none (.cons (by rw [hb]; decide)))
  | @superclass less x brace hl hx hb =>
    refine (bind_ok (?_ : _ = EStateM.Result.ok (some x) (brace :: rest))).trans
      (bind_ok (expect_ok hb))
    exact (bind_ok (accept_some (List.mem_singleton.mpr hl))).trans (bind_ok (expect_ok hx))

/-! ## The readers of statements -/

/-- With fuel `n`, the readers of all rules read what reads as a tree, as far as `n` is enough. -/
def Running (n : Nat) : Prop :=
  ∀ {r : StmtRule} {ts : List Token} {s : r.Tree} {dangling : Bool} {rest : List Token},
    r.Reads ts s dangling → Follows r rest → (dangling = true → Stops [.kwElse] rest) →
      32 * ts.length + r.rank ≤ n → r.parser n (ts ++ rest) = .ok s rest

/-- What follows a statement that is not dangling may be an `else`. -/
theorem noElse : false = true → Stops [.kwElse] rest :=
  fun h => absurd h Bool.false_ne_true

theorem declaration_run (ih : Running n) (h : Reads .declaration ts s dangling)
    (hd : dangling = true → Stops [.kwElse] rest) (hn : 32 * ts.length + 18 ≤ n + 1) :
    Dynascope.declaration (n + 1) (ts ++ rest) = .ok s rest := by
  cases h with
  | @classDecl keyword x superclass ms ts us hk hx hs hm =>
    simp only [List.length_cons, List.length_append] at hn
    have hsuper : Dynascope.superclassClause (ts ++ (us ++ rest)) = .ok superclass (us ++ rest) :=
      superclassClause_run hs
    have hmethods : Dynascope.methods n (us ++ rest) = .ok ms rest :=
      ih hm trivial noElse (by simp only [rank]; omega)
    rw [List.cons_append, List.cons_append, List.append_assoc, Dynascope.declaration,
      bind_ok (accept_some (by rw [hk]; decide))]
    simp only [hk]
    rw [bind_ok (expect_ok hx), bind_ok hsuper, bind_ok hmethods]
    rfl
  | @funDecl keyword ts f hk h =>
    simp only [List.length_cons] at hn
    have hfunction : Dynascope.function n (ts ++ rest) = .ok f rest :=
      ih h trivial noElse (by simp only [rank]; omega)
    rw [List.cons_append, Dynascope.declaration, bind_ok (accept_some (by rw [hk]; decide))]
    simp only [hk]
    exact bind_ok hfunction
  | @varDecl keyword ts _ hk h =>
    simp only [List.length_cons] at hn
    rw [List.cons_append, Dynascope.declaration, bind_ok (accept_some (by rw [hk]; decide))]
    simp only [hk]
    exact varDeclaration_run h (by omega)
  | plain h =>
    rw [Dynascope.declaration, bind_ok (accept_none (h.statement_stops rest))]
    exact ih h trivial hd (by simp only [rank]; omega)

theorem function_run (ih : Running n) {f : FunDecl} (h : Reads .function ts f dangling)
    (hn : 32 * ts.length + 1 ≤ n + 1) :
    Dynascope.function (n + 1) (ts ++ rest) = .ok f rest := by
  cases h with
  | @function x ts us xs body hx hp hb =>
    simp only [List.length_cons, List.length_append] at hn
    have hparams : Dynascope.parameters n (ts ++ (us ++ rest)) = .ok xs (us ++ rest) :=
      parameters_run hp (by omega)
    have hbody : Dynascope.block n (us ++ rest) = .ok body rest :=
      ih hb trivial noElse (by simp only [rank]; omega)
    rw [List.cons_append, List.append_assoc, Dynascope.function, bind_ok (expect_ok hx),
      bind_ok hparams, bind_ok hbody]
    rfl

/-- Neither a closing brace nor the end of the input is next. -/
theorem goes_on {α : Type} {t : Token} (hb : t.kind ≠ .rightBrace) (he : t.kind ≠ .endOfInput)
    (p q : Parser α) :
    (do if (← next .rightBrace) || (← done) then p else q) (t :: ts) = q (t :: ts) := by
  rw [bind_ok (next_false hb), bind_ok (done_eq _)]
  simp [atEnd, he]

/-- A closing brace is next. -/
theorem goes_off {α : Type} {t : Token} (hb : t.kind = .rightBrace) (p q : Parser α) :
    (do if (← next .rightBrace) || (← done) then p else q) (t :: ts) = p (t :: ts) := by
  rw [bind_ok (next_true hb), bind_ok (done_eq _)]
  rfl

theorem methods_run (ih : Running n) {ms : List FunDecl} (h : Reads .methods ts ms dangling)
    (hn : 32 * ts.length + 2 ≤ n + 1) :
    Dynascope.methods (n + 1) (ts ++ rest) = .ok ms rest := by
  cases h with
  | methodsEnd hb =>
    rw [List.singleton_append, Dynascope.methods, goes_off hb, bind_ok (expect_ok hb)]
    rfl
  | @method ts us m ms h hs =>
    simp only [List.length_append] at hn
    have hpos := h.function_length_pos
    have hmethod : Dynascope.function n (ts ++ (us ++ rest)) = .ok m (us ++ rest) :=
      ih h trivial noElse (by simp only [rank]; omega)
    have hmore : Dynascope.methods n (us ++ rest) = .ok ms rest :=
      ih hs trivial noElse (by simp only [rank]; omega)
    obtain ⟨x, ts, rfl, hx⟩ := h.function_first
    rw [List.append_assoc, List.cons_append, Dynascope.methods,
      goes_on (by rw [hx]; decide) (by rw [hx]; decide)]
    rw [← List.cons_append, bind_ok hmethod, bind_ok hmore]
    rfl

theorem block_run (ih : Running n) {ss : List Stmt} (h : Reads .block ts ss dangling)
    (hn : 32 * ts.length + 19 ≤ n + 1) :
    Dynascope.block (n + 1) (ts ++ rest) = .ok ss rest := by
  cases h with
  | blockEnd hb =>
    rw [List.singleton_append, Dynascope.block, goes_off hb, bind_ok (expect_ok hb)]
    rfl
  | @blockNext ts us s ss dangling h hs =>
    simp only [List.length_append] at hn
    have hpos := h.length_pos rfl
    -- No `else` follows inside a block.
    have helse : Stops [.kwElse] (us ++ rest) := by
      obtain ⟨t, us, rfl, ht⟩ := hs.block_first
      exact .cons fun he => by rw [List.mem_singleton.mp he] at ht; revert ht; decide
    have hfirst : Dynascope.declaration n (ts ++ (us ++ rest)) = .ok s (us ++ rest) :=
      ih h trivial (fun _ => helse) (by simp only [rank]; omega)
    have hmore : Dynascope.block n (us ++ rest) = .ok ss rest :=
      ih hs trivial noElse (by simp only [rank]; omega)
    obtain ⟨t, ts, rfl, ht⟩ := h.first rfl
    have hb : t.kind ≠ .rightBrace := fun he => by rw [he] at ht; revert ht; decide
    have he : t.kind ≠ .endOfInput := fun he => by rw [he] at ht; revert ht; decide
    rw [List.append_assoc, List.cons_append, Dynascope.block, goes_on hb he]
    rw [← List.cons_append, bind_ok hfirst, bind_ok hmore]
    rfl

theorem statement_run (ih : Running n) (h : Reads .statement ts s dangling)
    (hd : dangling = true → Stops [.kwElse] rest) (hn : 32 * ts.length + 17 ≤ n + 1) :
    Dynascope.statement (n + 1) (ts ++ rest) = .ok s rest := by
  cases h with
  | expr h =>
    rw [Dynascope.statement, bind_ok (accept_none (h.expression_stops (by decide) rest))]
    exact expressionStatement_run h (by omega)
  | @forLoop keyword left semi right ts us vs ws initial condition increment body _ hk hl hi hc hs
      hin hr hb =>
    simp only [List.length_cons, List.length_append] at hn
    have hinitial : Dynascope.forInitial n (ts ++ (us ++ semi :: (vs ++ right :: (ws ++ rest)))) =
        .ok initial (us ++ semi :: (vs ++ right :: (ws ++ rest))) :=
      forInitial_run hi (by omega)
    have hcondition : Dynascope.expressionUnless .semicolon n
        (us ++ semi :: (vs ++ right :: (ws ++ rest))) =
        .ok condition (semi :: (vs ++ right :: (ws ++ rest))) :=
      expressionUnless_run hc ⟨by decide, semi, _, rfl, hs⟩ (by omega)
    have hincrement : Dynascope.expressionUnless .rightParen n (vs ++ right :: (ws ++ rest)) =
        .ok increment (right :: (ws ++ rest)) :=
      expressionUnless_run hin ⟨by decide, right, _, rfl, hr⟩ (by omega)
    have hbody : Dynascope.statement n (ws ++ rest) = .ok body rest :=
      ih hb trivial hd (by simp only [rank]; omega)
    simp only [List.cons_append, List.append_assoc]
    rw [Dynascope.statement, bind_ok (accept_some (by rw [hk]; decide))]
    simp only [hk]
    rw [bind_ok (expect_ok hl), bind_ok hinitial, bind_ok hcondition, bind_ok (expect_ok hs),
      bind_ok hincrement, bind_ok (expect_ok hr), bind_ok hbody]
    rfl
  | @ifElse keyword other ts us vs c yes no _ hk hc hy he hno =>
    simp only [List.length_cons, List.length_append] at hn
    have hcondition : Dynascope.parenthesized n (ts ++ (us ++ other :: (vs ++ rest))) =
        .ok c (us ++ other :: (vs ++ rest)) := parenthesized_run hc (by omega)
    have hyes : Dynascope.statement n (us ++ other :: (vs ++ rest)) =
        .ok yes (other :: (vs ++ rest)) := ih hy trivial noElse (by simp only [rank]; omega)
    have hother : Dynascope.statement n (vs ++ rest) = .ok no rest :=
      ih hno trivial hd (by simp only [rank]; omega)
    simp only [List.cons_append, List.append_assoc]
    rw [Dynascope.statement, bind_ok (accept_some (by rw [hk]; decide))]
    simp only [hk]
    rw [bind_ok hcondition, bind_ok hyes, bind_ok (accept_some (List.mem_singleton.mpr he))]
    exact bind_ok hother
  | @ifOnly keyword ts us c yes _ hk hc hy =>
    simp only [List.length_cons, List.length_append] at hn
    have hcondition : Dynascope.parenthesized n (ts ++ (us ++ rest)) = .ok c (us ++ rest) :=
      parenthesized_run hc (by omega)
    have hyes : Dynascope.statement n (us ++ rest) = .ok yes rest :=
      ih hy trivial (fun _ => hd rfl) (by simp only [rank]; omega)
    rw [List.cons_append, List.append_assoc, Dynascope.statement,
      bind_ok (accept_some (by rw [hk]; decide))]
    simp only [hk]
    rw [bind_ok hcondition, bind_ok hyes, bind_ok (accept_none (hd rfl))]
    rfl
  | @ret keyword ts _ hk h =>
    simp only [List.length_cons] at hn
    rw [List.cons_append, Dynascope.statement, bind_ok (accept_some (by rw [hk]; decide))]
    simp only [hk]
    exact returnStatement_run h (by omega)
  | @loop keyword ts us c body _ hk hc hb =>
    simp only [List.length_cons, List.length_append] at hn
    have hcondition : Dynascope.parenthesized n (ts ++ (us ++ rest)) = .ok c (us ++ rest) :=
      parenthesized_run hc (by omega)
    have hbody : Dynascope.statement n (us ++ rest) = .ok body rest :=
      ih hb trivial hd (by simp only [rank]; omega)
    rw [List.cons_append, List.append_assoc, Dynascope.statement,
      bind_ok (accept_some (by rw [hk]; decide))]
    simp only [hk]
    rw [bind_ok hcondition, bind_ok hbody]
    rfl
  | @block brace ts ss hb h =>
    simp only [List.length_cons] at hn
    have hblock : Dynascope.block n (ts ++ rest) = .ok ss rest :=
      ih h trivial noElse (by simp only [rank]; omega)
    rw [List.cons_append, Dynascope.statement, bind_ok (accept_some (by rw [hb]; decide))]
    simp only [hb]
    exact bind_ok hblock

theorem running (n : Nat) : Running n := by
  induction n with
  | zero =>
    intro r ts s dangling rest _ _ _ hn
    cases r <;> simp [rank] at hn
  | succ n ih =>
    intro r ts s dangling rest h hf hd hn
    cases r with
    | names => exact names_run h hf hn
    | expressionStatement => exact expressionStatement_run h hn
    | parenthesized => exact parenthesized_run h hn
    | expressionUnless kind => exact expressionUnless_run h hf hn
    | varDeclaration => exact varDeclaration_run h hn
    | returnStatement keyword => exact returnStatement_run h hn
    | forInitial => exact forInitial_run h hn
    | parameters => exact parameters_run h hn
    | superclassClause => exact superclassClause_run h
    | declaration => exact declaration_run ih h hd hn
    | function => exact function_run ih h hn
    | methods => exact methods_run ih h hn
    | block => exact block_run ih h hn
    | statement => exact statement_run ih h hd hn

/-- **Greedy reading of statements.** The tokens of a declaration are read as that declaration,
unless an `else` after them extends it. -/
theorem Reads.run (h : Reads .declaration ts s dangling)
    (hd : dangling = true → Stops [.kwElse] rest) (hn : 32 * ts.length + 18 ≤ n) :
    Dynascope.declaration n (ts ++ rest) = .ok s rest :=
  running n h trivial hd hn

end StmtRule

end Dynascope
