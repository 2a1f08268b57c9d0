import Dynascope.Proofs.Tree.Parses

/-!
# The rules for expressions

* `ExprRule`: the rules, one for each reader of expressions; `ExprRule.Tree` is what a rule reads.
* `ExprRule.Reads r ts t`: the tokens `ts` read as `t` by the rule `r`. The relation knows neither
  fuel nor what follows the tokens.
* `ExprRule.parses`: with enough fuel, the reader of a rule takes tokens that read as its result, or
  fails for a cause. `ExprRule.rank` counts the calls between two tokens.
* `ExprRule.Reads.first`: the token that an expression starts with.
-/

namespace Dynascope

namespace Level

/-- The number of tighter levels. -/
def looseness : Level → Nat
  | factor => 0
  | term => 1
  | comparison => 2
  | equality => 3
  | and => 4
  | or => 5

theorem looseness_tighter {level level' : Level} (h : level.tighter? = some level') :
    level'.looseness + 1 = level.looseness := by
  cases level <;> cases h <;> rfl

end Level

/-- The rules for expressions. -/
inductive ExprRule where
  | expression
  | chain (level : Level)
  | chainRest (level : Level) (left : Expr)
  | operand (level : Level)
  | unary
  | call
  | callRest (callee : Expr)
  | arguments
  | primary

namespace ExprRule

/-- What a rule reads. -/
abbrev Tree : ExprRule → Type
  | arguments => List Expr
  | _ => Expr

/-- The reader of a rule. -/
def parser : (r : ExprRule) → (fuel : Nat) → Parser r.Tree
  | expression, n => Dynascope.expression n
  | chain level, n => Dynascope.chain n level
  | chainRest level left, n => Dynascope.chainRest n level left
  | operand level, n => Dynascope.operand n level
  | unary, n => Dynascope.unary n
  | call, n => Dynascope.call n
  | callRest callee, n => Dynascope.callRest n callee
  | arguments, n => Dynascope.arguments n
  | primary, n => Dynascope.primary n

/-- The tokens read as the tree by the rule. -/
inductive Reads : (r : ExprRule) → List Token → r.Tree → Prop where
  | value {ts : List Token} {e : Expr} (h : Reads (.chain .or) ts e) : Reads .expression ts e
  | assign {ts us : List Token} {x eq : Token} {v : Expr} (hx : Reads (.chain .or) ts (.name x))
      (heq : eq.kind = .equal) (hv : Reads .expression us v) :
    Reads .expression (ts ++ eq :: us) (.assign x v)
  | set {ts us : List Token} {o : Expr} {x : Option Token} {eq : Token} {v : Expr}
      (hx : Reads (.chain .or) ts (.get o x)) (heq : eq.kind = .equal)
      (hv : Reads .expression us v) :
    Reads .expression (ts ++ eq :: us) (.set o x v)
  | chain {level : Level} {ts us : List Token} {left e : Expr}
      (hl : Reads (.operand level) ts left) (hr : Reads (.chainRest level left) us e) :
    Reads (.chain level) (ts ++ us) e
  | stop {level : Level} {left : Expr} : Reads (.chainRest level left) [] left
  | link {level : Level} {left right e : Expr} {op : Token} {ts us : List Token}
      (hop : op.kind ∈ level.operators) (hr : Reads (.operand level) ts right)
      (he : Reads (.chainRest level (level.node left op right)) us e) :
    Reads (.chainRest level left) (op :: (ts ++ us)) e
  | tighter {level level' : Level} {ts : List Token} {e : Expr} (hl : level.tighter? = some level')
      (h : Reads (.chain level') ts e) : Reads (.operand level) ts e
  | tightest {level : Level} {ts : List Token} {e : Expr} (hl : level.tighter? = none)
      (h : Reads .unary ts e) : Reads (.operand level) ts e
  | signed {op : Token} {ts : List Token} {e : Expr} (hop : op.kind ∈ [Kind.bang, .minus])
      (h : Reads .unary ts e) : Reads .unary (op :: ts) (.unary op e)
  | unsigned {ts : List Token} {e : Expr} (h : Reads .call ts e) : Reads .unary ts e
  | call {ts us : List Token} {c e : Expr} (hc : Reads .primary ts c)
      (he : Reads (.callRest c) us e) : Reads .call (ts ++ us) e
  | called {c : Expr} : Reads (.callRest c) [] c
  | plain {c e : Expr} {left right : Token} {us : List Token} (hl : left.kind = .leftParen)
      (hr : right.kind = .rightParen) (he : Reads (.callRest (.call c (some right) [])) us e) :
    Reads (.callRest c) (left :: right :: us) e
  | apply {c e : Expr} {left right : Token} {args : List Expr} {ts us : List Token}
      (hl : left.kind = .leftParen) (ha : Reads .arguments ts args)
      (hr : right.kind = .rightParen) (he : Reads (.callRest (.call c (some right) args)) us e) :
    Reads (.callRest c) (left :: (ts ++ right :: us)) e
  | property {c e : Expr} {dot x : Token} {us : List Token} (hd : dot.kind = .dot)
      (hx : x.kind = .identifier) (he : Reads (.callRest (.get c (some x))) us e) :
    Reads (.callRest c) (dot :: x :: us) e
  | lastArgument {ts : List Token} {e : Expr} (h : Reads .expression ts e) :
    Reads .arguments ts [e]
  | argument {ts us : List Token} {comma : Token} {e : Expr} {es : List Expr}
      (h : Reads .expression ts e) (hc : comma.kind = .comma) (hs : Reads .arguments us es) :
    Reads .arguments (ts ++ comma :: us) (e :: es)
  | falseWord {t : Token} (h : t.kind = .kwFalse) : Reads .primary [t] (.literal (.bool false))
  | trueWord {t : Token} (h : t.kind = .kwTrue) : Reads .primary [t] (.literal (.bool true))
  | nilWord {t : Token} (h : t.kind = .kwNil) : Reads .primary [t] (.literal .nil)
  | constant {t : Token} {v : Literal} (h : t.kind = .number ∨ t.kind = .string)
      (hv : t.value = some v) : Reads .primary [t] (.literal v)
  | superMethod {keyword dot x : Token} (hk : keyword.kind = .kwSuper) (hd : dot.kind = .dot)
      (hx : x.kind = .identifier) : Reads .primary [keyword, dot, x] (.superMethod (some keyword) x)
  | receiver {keyword : Token} (hk : keyword.kind = .kwThis) :
    Reads .primary [keyword] (.receiver (some keyword))
  | name {x : Token} (hx : x.kind = .identifier) : Reads .primary [x] (.name x)
  | group {left right : Token} {ts : List Token} {e : Expr} (hl : left.kind = .leftParen)
      (h : Reads .expression ts e) (hr : right.kind = .rightParen) :
    Reads .primary (left :: (ts ++ [right])) (.group e)

/-! ## The first token -/

/-- The kinds of the tokens that start an expression. -/
def starters : List Kind :=
  [.bang, .minus, .kwFalse, .kwTrue, .kwNil, .number, .string, .kwSuper, .kwThis, .identifier,
   .leftParen]

/-- Whether a rule starts an expression. -/
def starts : ExprRule → Bool
  | chainRest .. => false
  | callRest .. => false
  | _ => true

/-- An expression has a first token, of a kind that starts expressions. -/
theorem Reads.first {r : ExprRule} {ts : List Token} {e : r.Tree} (h : r.Reads ts e)
    (hr : r.starts = true) : ∃ t rest, ts = t :: rest ∧ t.kind ∈ starters := by
  induction h with
  | value h ih => exact ih rfl
  | assign hx heq hv ihx _ => obtain ⟨t, rest, rfl, hk⟩ := ihx rfl; exact ⟨t, _, rfl, hk⟩
  | set hx heq hv ihx _ => obtain ⟨t, rest, rfl, hk⟩ := ihx rfl; exact ⟨t, _, rfl, hk⟩
  | chain hl hr ihl _ => obtain ⟨t, rest, rfl, hk⟩ := ihl rfl; exact ⟨t, _, rfl, hk⟩
  | tighter hl h ih => exact ih rfl
  | tightest hl h ih => exact ih rfl
  | @signed op ts e hop h ih =>
    refine ⟨op, ts, rfl, ?_⟩
    simp only [List.mem_cons, List.not_mem_nil, or_false] at hop
    rcases hop with hop | hop <;> rw [hop] <;> decide
  | unsigned h ih => exact ih rfl
  | call hc he ihc _ => obtain ⟨t, rest, rfl, hk⟩ := ihc rfl; exact ⟨t, _, rfl, hk⟩
  | lastArgument h ih => exact ih rfl
  | argument h hc hs ih _ => obtain ⟨t, rest, rfl, hk⟩ := ih rfl; exact ⟨t, _, rfl, hk⟩
  | falseWord h => exact ⟨_, _, rfl, by rw [h]; decide⟩
  | trueWord h => exact ⟨_, _, rfl, by rw [h]; decide⟩
  | nilWord h => exact ⟨_, _, rfl, by rw [h]; decide⟩
  | constant h hv => exact ⟨_, _, rfl, by rcases h with h | h <;> rw [h] <;> decide⟩
  | superMethod hk hd hx => exact ⟨_, _, rfl, by rw [hk]; decide⟩
  | receiver hk => exact ⟨_, _, rfl, by rw [hk]; decide⟩
  | name hx => exact ⟨_, _, rfl, by rw [hx]; decide⟩
  | group hl h hr _ => exact ⟨_, _, rfl, by rw [hl]; decide⟩
  | stop => cases hr
  | link hop hr' he _ _ => cases hr
  | called => cases hr
  | plain hl hr' he _ => cases hr
  | apply hl ha hr' he _ _ => cases hr
  | property hd hx he _ => cases hr

theorem Reads.length_pos {r : ExprRule} {ts : List Token} {e : r.Tree} (h : r.Reads ts e)
    (hr : r.starts = true) : 0 < ts.length := by
  obtain ⟨t, rest, rfl, -⟩ := h.first hr
  exact Nat.succ_pos _

/-! ## The readers -/

/-- The calls that lie between a rule and the next token. -/
def rank : ExprRule → Nat
  | primary => 1
  | callRest _ => 1
  | chainRest _ _ => 1
  | call => 2
  | unary => 3
  | operand level => 4 + 2 * level.looseness
  | chain level => 5 + 2 * level.looseness
  | expression => 16
  | arguments => 17

/-- With fuel `n`, the readers of all rules do what they should on tokens for which `n` is
enough. -/
def Parsing (n : Nat) : Prop :=
  ∀ (r : ExprRule) (ts : List Token), 32 * ts.length + r.rank ≤ n →
    Parses (r.parser n) [] ts fun used e _ => r.Reads used e

variable {n : Nat} {ts : List Token}

theorem expression_parses (ih : Parsing n) (hn : 32 * ts.length + 16 ≤ n + 1) :
    Parses (Dynascope.expression (n + 1)) [] ts fun used e _ => Reads .expression used e := by
  unfold Dynascope.expression
  refine Parses.bind (ih (.chain .or) ts (by simp only [rank, Level.looseness]; omega)) ?_
  rintro target used rest rfl ht
  refine Parses.accept (by decide) (fun _ => Parses.pure (.value ht)) ?_
  rintro eq rest rfl heq
  simp only [List.length_append, List.length_cons] at hn
  refine Parses.bind (ih .expression rest (by simp only [rank]; omega)) ?_
  rintro v used' rest rfl hv
  have heq : eq.kind = .equal := List.mem_singleton.mp heq
  split
  · exact Parses.pure (by simpa using .assign ht heq hv)
  · exact Parses.pure (by simpa using .set ht heq hv)
  · exact Parses.throw (.target (by simp) heq)

theorem chain_parses (ih : Parsing n) {level : Level}
    (hn : 32 * ts.length + (chain level).rank ≤ n + 1) :
    Parses (Dynascope.chain (n + 1) level) [] ts fun used e _ => Reads (.chain level) used e := by
  unfold Dynascope.chain
  simp only [rank] at hn
  refine Parses.bind (ih (.operand level) ts (by simp only [rank]; omega)) ?_
  rintro left used rest rfl hl
  have hpos := hl.length_pos rfl
  simp only [List.length_append] at hn
  exact Parses.last (ih (.chainRest level left) rest (by simp only [rank]; omega))
    fun used' e _ he => .chain hl he

theorem chainRest_parses (ih : Parsing n) {level : Level} {left : Expr}
    (hn : 32 * ts.length + 1 ≤ n + 1) :
    Parses (Dynascope.chainRest (n + 1) level left) [] ts fun used e _ =>
      Reads (.chainRest level left) used e := by
  unfold Dynascope.chainRest
  refine Parses.accept (by cases level <;> decide) (fun _ => Parses.pure .stop) ?_
  rintro op rest rfl hop
  have hl : level.looseness ≤ 5 := by cases level <;> decide
  simp only [List.length_cons] at hn
  refine Parses.bind (ih (.operand level) rest (by simp only [rank]; omega)) ?_
  rintro right used rest rfl hr
  simp only [List.length_append] at hn
  exact Parses.last (ih (.chainRest level _) rest (by simp only [rank]; omega))
    fun used' e _ he => by simpa using .link hop hr he

theorem operand_parses (ih : Parsing n) {level : Level}
    (hn : 32 * ts.length + (operand level).rank ≤ n + 1) :
    Parses (Dynascope.operand (n + 1) level) [] ts fun used e _ =>
      Reads (.operand level) used e := by
  unfold Dynascope.operand
  simp only [rank] at hn
  split
  next level' hl =>
    have := Level.looseness_tighter hl
    exact Parses.last (ih (.chain level') ts (by simp only [rank]; omega)) fun used e _ he =>
      .tighter hl he
  next hl =>
    exact Parses.last (ih .unary ts (by simp only [rank]; omega)) fun used e _ he => .tightest hl he

theorem unary_parses (ih : Parsing n) (hn : 32 * ts.length + 3 ≤ n + 1) :
    Parses (Dynascope.unary (n + 1)) [] ts fun used e _ => Reads .unary used e := by
  unfold Dynascope.unary
  refine Parses.accept (by decide) (fun _ => ?_) ?_
  · exact Parses.last (ih .call ts (by simp only [rank]; omega)) fun used e _ he => .unsigned he
  · rintro op rest rfl hop
    simp only [List.length_cons] at hn
    refine Parses.bind (ih .unary rest (by simp only [rank]; omega)) ?_
    rintro e used rest rfl he
    exact Parses.pure (.signed hop he)

theorem call_parses (ih : Parsing n) (hn : 32 * ts.length + 2 ≤ n + 1) :
    Parses (Dynascope.call (n + 1)) [] ts fun used e _ => Reads .call used e := by
  unfold Dynascope.call
  refine Parses.bind (ih .primary ts (by simp only [rank]; omega)) ?_
  rintro c used rest rfl hc
  have hpos := hc.length_pos rfl
  simp only [List.length_append] at hn
  exact Parses.last (ih (.callRest c) rest (by simp only [rank]; omega)) fun used' e _ he =>
    .call hc he

theorem arguments_parses (ih : Parsing n) (hn : 32 * ts.length + 17 ≤ n + 1) :
    Parses (Dynascope.arguments (n + 1)) [] ts fun used e _ => Reads .arguments used e := by
  unfold Dynascope.arguments
  refine Parses.bind (ih .expression ts (by simp only [rank]; omega)) ?_
  rintro e used rest rfl he
  refine Parses.accept (by decide) (fun _ => Parses.pure (.lastArgument he)) ?_
  rintro comma rest rfl hc
  simp only [List.length_append, List.length_cons] at hn
  refine Parses.bind (ih .arguments rest (by simp only [rank]; omega)) ?_
  rintro es used' rest rfl hes
  exact Parses.pure (by simpa using .argument he (List.mem_singleton.mp hc) hes)

theorem callRest_parses (ih : Parsing n) {c : Expr} (hn : 32 * ts.length + 1 ≤ n + 1) :
    Parses (Dynascope.callRest (n + 1) c) [] ts fun used e _ => Reads (.callRest c) used e := by
  unfold Dynascope.callRest
  refine Parses.accept (by decide) (fun _ => Parses.pure .called) ?_
  rintro t rest rfl ht
  simp only [List.length_cons] at hn
  dsimp only
  split
  next hl =>
    -- Without arguments the reader of arguments is not called.
    have hgiven : Parses (do
        if ← Parser.next .rightParen then return []
        else Dynascope.arguments n) [] rest
        fun used args _ => (used = [] ∧ args = []) ∨ Reads .arguments used args := by
      refine Parses.next fun b => ?_
      cases b with
      | true => exact Parses.pure (.inl ⟨rfl, rfl⟩)
      | false =>
        exact Parses.last (ih .arguments rest (by simp only [rank]; omega)) fun _ _ _ => .inr
    refine Parses.bind hgiven ?_
    rintro args used rest rfl ha
    refine Parses.expect (by decide) ?_
    rintro right rest rfl hr
    simp only [List.length_append, List.length_cons] at hn
    refine Parses.last (ih (.callRest _) rest (by simp only [rank]; omega)) fun used' e _ he => ?_
    rcases ha with ⟨rfl, rfl⟩ | ha
    · exact .plain hl hr he
    · simpa using .apply hl ha hr he
  next hl =>
    have hd : t.kind = .dot := by
      simp only [List.mem_cons, List.not_mem_nil, or_false] at ht
      exact ht.resolve_left hl
    refine Parses.expect (by decide) ?_
    rintro x rest rfl hx
    simp only [List.length_cons] at hn
    exact Parses.last (ih (.callRest _) rest (by simp only [rank]; omega)) fun used' e _ he =>
      .property hd hx he

theorem primary_parses (ih : Parsing n) (hn : 32 * ts.length + 1 ≤ n + 1) :
    Parses (Dynascope.primary (n + 1)) [] ts fun used e _ => Reads .primary used e := by
  unfold Dynascope.primary
  refine Parses.accept (by decide) (fun _ => Parses.failHere) ?_
  rintro t rest rfl ht
  simp only [List.length_cons] at hn
  dsimp only
  split
  next hk => exact Parses.pure (.falseWord hk)
  next hk => exact Parses.pure (.trueWord hk)
  next hk => exact Parses.pure (.nilWord hk)
  next hk =>
    refine Parses.expect (by decide) ?_
    rintro dot rest rfl hd
    refine Parses.expect (by decide) ?_
    rintro x rest rfl hx
    exact Parses.pure (.superMethod hk hd hx)
  next hk => exact Parses.pure (.receiver hk)
  next hk => exact Parses.pure (.name hk)
  next hk =>
    refine Parses.bind (ih .expression rest (by simp only [rank]; omega)) ?_
    rintro e used rest rfl he
    refine Parses.expect (by decide) ?_
    rintro right rest rfl hr
    exact Parses.pure (by simpa using .group hk he hr)
  next h1 h2 h3 h4 h5 h6 h7 =>
    have hk : t.kind = .number ∨ t.kind = .string := by
      simp only [List.mem_cons, List.not_mem_nil, or_false] at ht
      grind
    unfold Token.constant
    split
    next v hv => exact Parses.pure (.constant hk hv)
    next hv => exact Parses.throw (.noValue (by simp) hk hv)

/-- **The readers of expressions.** With enough fuel for its tokens, a reader takes tokens that read
as its result or fails for a cause. -/
theorem parses (n : Nat) : Parsing n := by
  induction n with
  | zero =>
    intro r ts hn
    cases r <;> simp [rank] at hn
  | succ n ih =>
    intro r ts hn
    cases r with
    | expression => exact expression_parses ih hn
    | chain level => exact chain_parses ih hn
    | chainRest level left => exact chainRest_parses ih hn
    | operand level => exact operand_parses ih hn
    | unary => exact unary_parses ih hn
    | call => exact call_parses ih hn
    | callRest callee => exact callRest_parses ih hn
    | arguments => exact arguments_parses ih hn
    | primary => exact primary_parses ih hn

end ExprRule

end Dynascope
