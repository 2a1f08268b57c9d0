import Dynascope.Proofs.Tree.ExprRule

/-!
# What may follow an expression

A reader of expressions is greedy: it goes on as long as the next token extends what it has read.

* `ExprRule.extending`: the kinds of the tokens that a rule would go on with.
* `ExprRule.Reads.run`: tokens that read as a tree are read as that tree, whatever follows them that
  does not extend it.
-/

namespace Dynascope

open Dynascope.Parser

/-- The kinds of the tokens that extend an operation of a level, or one of its operands. -/
def Level.extending : Level → List Kind
  | factor => [.leftParen, .dot, .slash, .star]
  | term => [.leftParen, .dot, .slash, .star, .minus, .plus]
  | comparison => [.leftParen, .dot, .slash, .star, .minus, .plus, .greater, .greaterEqual, .less,
      .lessEqual]
  | equality => [.leftParen, .dot, .slash, .star, .minus, .plus, .greater, .greaterEqual, .less,
      .lessEqual, .bangEqual, .equalEqual]
  | and => [.leftParen, .dot, .slash, .star, .minus, .plus, .greater, .greaterEqual, .less,
      .lessEqual, .bangEqual, .equalEqual, .kwAnd]
  | or => [.leftParen, .dot, .slash, .star, .minus, .plus, .greater, .greaterEqual, .less,
      .lessEqual, .bangEqual, .equalEqual, .kwAnd, .kwOr]

namespace ExprRule

/-- The kinds of the tokens that a rule goes on with if they come next. -/
def extending : ExprRule → List Kind
  | primary => []
  | call => [.leftParen, .dot]
  | callRest _ => [.leftParen, .dot]
  | unary => [.leftParen, .dot]
  | operand level => (level.tighter?.map Level.extending).getD [.leftParen, .dot]
  | chain level => level.extending
  | chainRest level _ => level.extending
  | expression => .equal :: Level.extending .or
  | arguments => .comma :: .equal :: Level.extending .or

theorem operators_subset_extending (level : Level) : level.operators ⊆ level.extending := by
  cases level <;> decide

theorem operand_extending_subset (level : Level) :
    (operand level).extending ⊆ level.extending := by
  cases level <;> decide

/-- An operator of a level does not extend the operand before it. -/
theorem operator_not_extending {level : Level} {k : Kind} (h : k ∈ level.operators) :
    k ∉ (operand level).extending := by
  cases level <;> revert k <;> decide

/-- What follows an operand: an operator of its level, or what follows the whole chain. -/
theorem Reads.operand_stops {level : Level} {left e : Expr} {us rest : List Token}
    (h : Reads (.chainRest level left) us e) (hs : Stops level.extending rest) :
    Stops (operand level).extending (us ++ rest) := by
  cases h with
  | stop => exact hs.mono (operand_extending_subset level)
  | link hop hr he => exact .cons (operator_not_extending hop)

/-- A call does not start with a sign. -/
theorem Reads.call_stops {ts : List Token} {e : Expr} (h : Reads .call ts e) (rest : List Token) :
    Stops [.bang, .minus] (ts ++ rest) := by
  cases h with
  | call hc he =>
    cases hc with
    | constant h hv => rcases h with h | h <;> exact .cons (by rw [h]; decide)
    | falseWord h => exact .cons (by rw [h]; decide)
    | trueWord h => exact .cons (by rw [h]; decide)
    | nilWord h => exact .cons (by rw [h]; decide)
    | superMethod h _ _ => exact .cons (by rw [h]; decide)
    | receiver h => exact .cons (by rw [h]; decide)
    | name h => exact .cons (by rw [h]; decide)
    | group h _ _ => exact .cons (by rw [h]; decide)

/-! ## The readers -/

/-- With fuel `n`, the readers of all rules read what reads as a tree, as far as `n` is enough. -/
def Running (n : Nat) : Prop :=
  ∀ {r : ExprRule} {ts : List Token} {e : r.Tree} {rest : List Token}, r.Reads ts e →
    Stops r.extending rest → 32 * ts.length + r.rank ≤ n → r.parser n (ts ++ rest) = .ok e rest

variable {n : Nat} {ts rest : List Token} {e : Expr}

/-- The target of an assignment is read up to the sign, and the value after it. -/
theorem Reads.assignment_run (ih : Running n) {us : List Token} {target v : Expr} {eq : Token}
    (ht : Reads (.chain .or) ts target) (heq : eq.kind = .equal) (hv : Reads .expression us v)
    (hs : Stops expression.extending rest) (hn : 32 * (ts ++ eq :: us).length + 16 ≤ n + 1) :
    Dynascope.chain n .or (ts ++ eq :: us ++ rest) = .ok target (eq :: (us ++ rest)) ∧
      Dynascope.expression n (us ++ rest) = .ok v rest := by
  simp only [List.length_append, List.length_cons] at hn
  rw [List.append_assoc, List.cons_append]
  refine ⟨ih ht (.cons ?_) ?_, ih hv hs ?_⟩
  · rw [heq]
    decide
  · simp only [rank, Level.looseness]
    omega
  · simp only [rank]
    omega

theorem expression_run (ih : Running n) (h : Reads .expression ts e)
    (hs : Stops expression.extending rest) (hn : 32 * ts.length + 16 ≤ n + 1) :
    Dynascope.expression (n + 1) (ts ++ rest) = .ok e rest := by
  cases h with
  | value h =>
    have hchain : Dynascope.chain n .or (ts ++ rest) = .ok e rest :=
      ih h (hs.mono (List.subset_cons_self ..)) (by simp only [rank, Level.looseness]; omega)
    have hequal : accept [.equal] rest = .ok none rest :=
      accept_none (hs.mono (by decide))
    rw [Dynascope.expression, bind_ok hchain, bind_ok hequal]
    rfl
  | assign hx heq hv =>
    obtain ⟨htarget, hvalue⟩ := hx.assignment_run ih heq hv hs hn
    rw [Dynascope.expression, bind_ok htarget, bind_ok (accept_some (List.mem_singleton.mpr heq))]
    exact bind_ok hvalue
  | set hx heq hv =>
    obtain ⟨htarget, hvalue⟩ := hx.assignment_run ih heq hv hs hn
    rw [Dynascope.expression, bind_ok htarget, bind_ok (accept_some (List.mem_singleton.mpr heq))]
    exact bind_ok hvalue

theorem chain_run (ih : Running n) {level : Level} (h : Reads (.chain level) ts e)
    (hs : Stops level.extending rest) (hn : 32 * ts.length + (chain level).rank ≤ n + 1) :
    Dynascope.chain (n + 1) level (ts ++ rest) = .ok e rest := by
  cases h with
  | @chain _ ts us left _ hl hr =>
    simp only [List.length_append, rank] at hn
    have hleft : Dynascope.operand n level (ts ++ (us ++ rest)) = .ok left (us ++ rest) :=
      ih hl (hr.operand_stops hs) (by simp only [rank]; omega)
    have hpos := hl.length_pos rfl
    have hrest : Dynascope.chainRest n level left (us ++ rest) = .ok e rest :=
      ih hr hs (by simp only [rank]; omega)
    rw [List.append_assoc, Dynascope.chain, bind_ok hleft, hrest]

theorem chainRest_run (ih : Running n) {level : Level} {left : Expr}
    (h : Reads (.chainRest level left) ts e) (hs : Stops level.extending rest)
    (hn : 32 * ts.length + 1 ≤ n + 1) :
    Dynascope.chainRest (n + 1) level left (ts ++ rest) = .ok e rest := by
  cases h with
  | stop =>
    have hnone : accept level.operators rest = .ok none rest :=
      accept_none (hs.mono (operators_subset_extending level))
    rw [List.nil_append, Dynascope.chainRest, bind_ok hnone]
    rfl
  | @link _ _ right _ op ts us hop hr he =>
    simp only [List.length_append, List.length_cons] at hn
    have hl : level.looseness ≤ 5 := by cases level <;> decide
    have hright : Dynascope.operand n level (ts ++ (us ++ rest)) = .ok right (us ++ rest) :=
      ih hr (he.operand_stops hs) (by simp only [rank]; omega)
    have hrest : Dynascope.chainRest n level (level.node left op right) (us ++ rest) =
        .ok e rest := ih he hs (by simp only [rank]; omega)
    rw [List.cons_append, List.append_assoc, Dynascope.chainRest, bind_ok (accept_some hop)]
    exact (bind_ok hright).trans hrest

theorem operand_run (ih : Running n) {level : Level} (h : Reads (.operand level) ts e)
    (hs : Stops (operand level).extending rest)
    (hn : 32 * ts.length + (operand level).rank ≤ n + 1) :
    Dynascope.operand (n + 1) level (ts ++ rest) = .ok e rest := by
  simp only [rank] at hn
  cases h with
  | tighter hl h =>
    have hloose := Level.looseness_tighter hl
    simp only [extending, hl, Option.map_some, Option.getD_some] at hs
    rw [Dynascope.operand, hl]
    exact ih h hs (by simp only [rank]; omega)
  | tightest hl h =>
    simp only [extending, hl, Option.map_none, Option.getD_none] at hs
    rw [Dynascope.operand, hl]
    exact ih h hs (by simp only [rank]; omega)

theorem unary_run (ih : Running n) (h : Reads .unary ts e) (hs : Stops unary.extending rest)
    (hn : 32 * ts.length + 3 ≤ n + 1) :
    Dynascope.unary (n + 1) (ts ++ rest) = .ok e rest := by
  cases h with
  | @signed op ts e hop h =>
    simp only [List.length_cons] at hn
    have hright : Dynascope.unary n (ts ++ rest) = .ok e rest :=
      ih h hs (by simp only [rank]; omega)
    rw [List.cons_append, Dynascope.unary, bind_ok (accept_some hop)]
    exact bind_ok hright
  | unsigned h =>
    rw [Dynascope.unary, bind_ok (accept_none (h.call_stops rest))]
    exact ih h hs (by simp only [rank]; omega)

theorem call_run (ih : Running n) (h : Reads .call ts e) (hs : Stops call.extending rest)
    (hn : 32 * ts.length + 2 ≤ n + 1) :
    Dynascope.call (n + 1) (ts ++ rest) = .ok e rest := by
  cases h with
  | @call ts us c _ hc he =>
    simp only [List.length_append] at hn
    have hcallee : Dynascope.primary n (ts ++ (us ++ rest)) = .ok c (us ++ rest) :=
      ih hc (fun _ _ h => nomatch h) (by simp only [rank]; omega)
    have hpos := hc.length_pos rfl
    have hrest : Dynascope.callRest n c (us ++ rest) = .ok e rest :=
      ih he hs (by simp only [rank]; omega)
    rw [List.append_assoc, Dynascope.call, bind_ok hcallee, hrest]

theorem callRest_run (ih : Running n) {c : Expr} (h : Reads (.callRest c) ts e)
    (hs : Stops (callRest c).extending rest) (hn : 32 * ts.length + 1 ≤ n + 1) :
    Dynascope.callRest (n + 1) c (ts ++ rest) = .ok e rest := by
  cases h with
  | called =>
    have hnone : accept [.leftParen, .dot] rest = .ok none rest := accept_none hs
    rw [List.nil_append, Dynascope.callRest, bind_ok hnone]
    rfl
  | @plain _ _ left right us hl hr he =>
    simp only [List.length_cons] at hn
    have hargs : (do
        if ← next .rightParen then return []
        else Dynascope.arguments n) (right :: (us ++ rest)) = .ok [] (right :: (us ++ rest)) :=
      bind_ok (next_true hr)
    have hrest : Dynascope.callRest n (.call c (some right) []) (us ++ rest) = .ok e rest :=
      ih he hs (by simp only [rank]; omega)
    rw [List.cons_append, List.cons_append, Dynascope.callRest,
      bind_ok (accept_some (by simp [hl]))]
    dsimp only
    rw [if_pos hl, bind_ok hargs, bind_ok (expect_ok hr), hrest]
  | @apply _ _ left right args ts us hl ha hr he =>
    simp only [List.length_cons, List.length_append] at hn
    have hargs : Dynascope.arguments n (ts ++ right :: (us ++ rest)) =
        .ok args (right :: (us ++ rest)) :=
      ih ha (.cons (by rw [hr]; decide)) (by simp only [rank]; omega)
    have hrest : Dynascope.callRest n (.call c (some right) args) (us ++ rest) = .ok e rest :=
      ih he hs (by simp only [rank]; omega)
    -- The first token of the arguments is not a closing parenthesis.
    obtain ⟨first, ts', rfl, hfirst⟩ := ha.first rfl
    have hnext : next .rightParen (first :: (ts' ++ right :: (us ++ rest))) =
        .ok false (first :: (ts' ++ right :: (us ++ rest))) :=
      next_false fun h => by rw [h] at hfirst; revert hfirst; decide
    rw [List.cons_append, Dynascope.callRest, bind_ok (accept_some (by simp [hl]))]
    dsimp only
    rw [if_pos hl, List.append_assoc, List.cons_append, List.cons_append,
      bind_ok ((bind_ok hnext).trans hargs), bind_ok (expect_ok hr), hrest]
  | @property _ _ dot x us hd hx he =>
    simp only [List.length_cons] at hn
    have hrest : Dynascope.callRest n (.get c x) (us ++ rest) = .ok e rest :=
      ih he hs (by simp only [rank]; omega)
    have hl : dot.kind ≠ .leftParen := by rw [hd]; decide
    rw [List.cons_append, List.cons_append, Dynascope.callRest,
      bind_ok (accept_some (by simp [hd]))]
    dsimp only
    rw [if_neg hl, bind_ok (expect_ok hx), hrest]

theorem arguments_run (ih : Running n) {es : List Expr} (h : Reads .arguments ts es)
    (hs : Stops arguments.extending rest) (hn : 32 * ts.length + 17 ≤ n + 1) :
    Dynascope.arguments (n + 1) (ts ++ rest) = .ok es rest := by
  cases h with
  | @lastArgument _ e h =>
    have hexpr : Dynascope.expression n (ts ++ rest) = .ok e rest :=
      ih h (hs.mono (List.subset_cons_self ..)) (by simp only [rank]; omega)
    have hnone : accept [.comma] rest = .ok none rest := accept_none (hs.mono (by decide))
    rw [Dynascope.arguments, bind_ok hexpr, bind_ok hnone]
    rfl
  | @argument ts us comma e es h hc hes =>
    simp only [List.length_append, List.length_cons] at hn
    have hexpr : Dynascope.expression n (ts ++ comma :: (us ++ rest)) =
        .ok e (comma :: (us ++ rest)) :=
      ih h (.cons (by rw [hc]; decide)) (by simp only [rank]; omega)
    have hmore : Dynascope.arguments n (us ++ rest) = .ok es rest :=
      ih hes hs (by simp only [rank]; omega)
    rw [List.append_assoc, List.cons_append, Dynascope.arguments, bind_ok hexpr,
      bind_ok (accept_some (List.mem_singleton.mpr hc))]
    exact bind_ok hmore

theorem primary_run (ih : Running n) (h : Reads .primary ts e) (hn : 32 * ts.length + 1 ≤ n + 1) :
    Dynascope.primary (n + 1) (ts ++ rest) = .ok e rest := by
  cases h with
  | falseWord h =>
    rw [List.singleton_append, Dynascope.primary, bind_ok (accept_some (by rw [h]; decide))]
    simp only [h]
    rfl
  | trueWord h =>
    rw [List.singleton_append, Dynascope.primary, bind_ok (accept_some (by rw [h]; decide))]
    simp only [h]
    rfl
  | nilWord h =>
    rw [List.singleton_append, Dynascope.primary, bind_ok (accept_some (by rw [h]; decide))]
    simp only [h]
    rfl
  | constant h hv =>
    rw [List.singleton_append, Dynascope.primary,
      bind_ok (accept_some (by rcases h with h | h <;> rw [h] <;> decide))]
    rcases h with h | h <;> simp only [h, Token.constant, hv] <;> rfl
  | superMethod hk hd hx =>
    rw [List.cons_append, Dynascope.primary, bind_ok (accept_some (by rw [hk]; decide))]
    simp only [hk]
    rw [List.cons_append, List.singleton_append, bind_ok (expect_ok hd), bind_ok (expect_ok hx)]
    rfl
  | receiver hk =>
    rw [List.singleton_append, Dynascope.primary, bind_ok (accept_some (by rw [hk]; decide))]
    simp only [hk]
    rfl
  | name hx =>
    rw [List.singleton_append, Dynascope.primary, bind_ok (accept_some (by rw [hx]; decide))]
    simp only [hx]
    rfl
  | @group left right ts e hl h hr =>
    simp only [List.length_cons, List.length_append] at hn
    have hinner : Dynascope.expression n (ts ++ right :: rest) = .ok e (right :: rest) :=
      ih h (.cons (by rw [hr]; decide)) (by simp only [rank]; omega)
    rw [List.cons_append, Dynascope.primary, bind_ok (accept_some (by rw [hl]; decide))]
    simp only [hl]
    rw [List.append_assoc, List.singleton_append, bind_ok hinner, bind_ok (expect_ok hr)]
    rfl

theorem running (n : Nat) : Running n := by
  induction n with
  | zero =>
    intro r ts e rest _ _ hn
    cases r <;> simp [rank] at hn
  | succ n ih =>
    intro r ts e rest h hs hn
    cases r with
    | expression => exact expression_run ih h hs hn
    | chain level => exact chain_run ih h hs hn
    | chainRest level left => exact chainRest_run ih h hs hn
    | operand level => exact operand_run ih h hs hn
    | unary => exact unary_run ih h hs hn
    | call => exact call_run ih h hs hn
    | callRest callee => exact callRest_run ih h hs hn
    | arguments => exact arguments_run ih h hs hn
    | primary => exact primary_run ih h hn

/-- **Greedy reading.** Tokens that read as a tree are read as that tree by the reader of the rule,
if the token after them does not extend it. -/
theorem Reads.run {r : ExprRule} {ts : List Token} {e : r.Tree} (h : r.Reads ts e)
    {rest : List Token} (hs : Stops r.extending rest) {n : Nat}
    (hn : 32 * ts.length + r.rank ≤ n) : r.parser n (ts ++ rest) = .ok e rest :=
  running n h hs hn

end ExprRule

end Dynascope
