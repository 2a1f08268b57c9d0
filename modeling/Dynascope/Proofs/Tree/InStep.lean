import Dynascope.Proofs.Tree.ExprRule
import Dynascope.Proofs.Tree.LikeReads

/-!
# Two readings side by side

One reader reads two lists of tokens. As long as the tokens stand for each other, it does the same
with both, up to the end of each list. How the lists end, and what follows their ends, shows only in
a failure there. The fuel may differ: any two amounts that are enough do the same.

* `Comparison`: which tokens stand for each other, and what each list has from its end on.
* `Abreast C k ts ts'`: both lists have `k` tokens before their ends, which stand for each other.
* `Failure C k e e'`: the errors of two readings that failed with `k` tokens left. Both are at
  tokens that stand for each other, or both at the ends.
* `InStep C k Q p p' ts ts'`: two readers end alike on lists with `k` tokens; `Q` holds of the
  results and the number of tokens left. The rules (`InStep.bind`, `InStep.accept` and so on) follow
  a reader's code.
* `ExpressionsInStep`: the readers of expressions, all at once. `expressionsInStep` is the induction
  on the fuel.
-/

namespace Dynascope

open Dynascope.Parser

/-! ## Lists of tokens -/

/-- How two lists of tokens are compared. -/
structure Comparison where
  /-- Which tokens stand for each other. -/
  tokens : Likeness
  /-- The first list from its end on. -/
  last : List Token
  /-- The second list from its end on. -/
  last' : List Token
  ended : atEnd last = true
  ended' : atEnd last' = true

/-- Two lists with `k` tokens before their ends, which stand for each other. -/
inductive Abreast (C : Comparison) : (k : Nat) → List Token → List Token → Prop where
  | ended : Abreast C 0 C.last C.last'
  | cons {k : Nat} {t t' : Token} {ts ts' : List Token} (hs : C.tokens.Same t t')
      (ht : t.kind ≠ .endOfInput) (h : Abreast C k ts ts') :
    Abreast C (k + 1) (t :: ts) (t' :: ts')

/-- The error for a fault before some tokens: it is at the first of them, if there is one. -/
def ParseFault.before (fault : ParseFault) : List Token → ParseError
  | [] => ⟨.noToken, none⟩
  | t :: _ => ⟨fault, some t⟩

/-- Whether a fault is found by a look at the next token. -/
def ParseFault.Ahead (fault : ParseFault) : Prop :=
  fault = .unexpectedToken ∨ ∃ kind, fault = .expected kind

theorem ParseFault.Ahead.ne_noToken {fault : ParseFault} (h : fault.Ahead) : fault ≠ .noToken := by
  rcases h with rfl | ⟨kind, rfl⟩ <;> nofun

/-- The errors of two readings that failed with `k` tokens left. -/
inductive Failure (C : Comparison) : (k : Nat) → ParseError → ParseError → Prop where
  | passed {k : Nat} {fault : ParseFault} {t t' : Token} (hs : C.tokens.Same t t')
      (ht : t.kind ≠ .endOfInput) (hf : fault ≠ .noToken) :
    Failure C k ⟨fault, some t⟩ ⟨fault, some t'⟩
  | ended {fault : ParseFault} (hf : fault.Ahead) :
    Failure C 0 (fault.before C.last) (fault.before C.last')

variable {C : Comparison} {k : Nat} {ts ts' : List Token}

namespace Parser

theorem failHere_eq {α : Type} (fault : ParseFault) (ts : List Token) :
    (failHere fault : Parser α) ts = .error (fault.before ts) ts := by
  cases ts <;> rfl

end Parser

/-- Both lists end, or neither does. -/
theorem Abreast.atEnd_iff (h : Abreast C k ts ts') :
    (atEnd ts = true ↔ k = 0) ∧ atEnd ts' = atEnd ts := by
  cases h with
  | ended => exact ⟨iff_of_true C.ended rfl, by rw [C.ended, C.ended']⟩
  | cons hs ht _ =>
    have hleft : ∀ u : Token, ∀ us, u.kind ≠ .endOfInput → atEnd (u :: us) = false := by
      intro u us hu
      simpa [atEnd] using hu
    rw [hleft _ _ ht, hleft _ _ (by rwa [C.tokens.kind hs])]
    exact ⟨by simp, rfl⟩

/-! ## Readings -/

variable {α β : Type} {Q : α → α → Nat → Prop} {R : β → β → Nat → Prop}

/-- Two readings of lists with `k` tokens ended alike, with no more tokens left: both succeeded, or
both failed. -/
inductive EndAlike (C : Comparison) (k : Nat) (Q : α → α → Nat → Prop) :
    EStateM.Result ParseError (List Token) α → EStateM.Result ParseError (List Token) α →
      Prop where
  | ok {a a' : α} {j : Nat} {rest rest' : List Token} (hq : Q a a' j) (hj : j ≤ k)
      (h : Abreast C j rest rest') : EndAlike C k Q (.ok a rest) (.ok a' rest')
  | error {e e' : ParseError} {j : Nat} {rest rest' : List Token} (he : Failure C j e e')
      (hj : j ≤ k) (h : Abreast C j rest rest') : EndAlike C k Q (.error e rest) (.error e' rest')

/-- Two readers end alike on two lists with `k` tokens. -/
def InStep (C : Comparison) (k : Nat) (Q : α → α → Nat → Prop) (p p' : Parser α)
    (ts ts' : List Token) : Prop :=
  EndAlike C k Q (p ts) (p' ts')

namespace InStep

theorem pure {a a' : α} (h : Abreast C k ts ts') (hq : Q a a' k) :
    InStep C k Q (Pure.pure a) (Pure.pure a') ts ts' :=
  .ok hq (Nat.le_refl k) h

/-- A failure at tokens that were passed. -/
theorem throw {fault : ParseFault} {t t' : Token} (h : Abreast C k ts ts')
    (hs : C.tokens.Same t t') (ht : t.kind ≠ .endOfInput) (hf : fault ≠ .noToken) :
    InStep C k Q (MonadExcept.throw (⟨fault, some t⟩ : ParseError))
      (MonadExcept.throw (⟨fault, some t'⟩ : ParseError)) ts ts' :=
  .error (.passed hs ht hf) (Nat.le_refl k) h

/-- A failure at the next tokens. -/
theorem failHere {fault : ParseFault} (h : Abreast C k ts ts') (hf : fault.Ahead) :
    InStep C k Q (Parser.failHere fault) (Parser.failHere fault) ts ts' := by
  unfold InStep
  rw [failHere_eq, failHere_eq]
  cases h with
  | ended => exact .error (.ended hf) (Nat.le_refl 0) .ended
  | cons hs ht hrest =>
    exact .error (.passed hs ht hf.ne_noToken) (Nat.le_refl _) (.cons hs ht hrest)

/-- A reading that ends a longer one, which began with `k` tokens. -/
theorem last {Q' : α → α → Nat → Prop} {p p' : Parser α} {j : Nat}
    (h : InStep C j Q p p' ts ts') (hj : j ≤ k) (hQ : ∀ a a' i, Q a a' i → i ≤ j → Q' a a' i) :
    InStep C k Q' p p' ts ts' := by
  unfold InStep at h ⊢
  generalize p ts = r at h
  generalize p' ts' = r' at h
  cases h with
  | ok hq hi hrest => exact .ok (hQ _ _ _ hq hi) (Nat.le_trans hi hj) hrest
  | error he hi hrest => exact .error he (Nat.le_trans hi hj) hrest

/-- A reader followed by another one. -/
theorem bind {p p' : Parser α} {f f' : α → Parser β} (h : InStep C k Q p p' ts ts')
    (hf : ∀ a a' j rest rest', Q a a' j → j ≤ k → Abreast C j rest rest' →
      InStep C j R (f a) (f' a') rest rest') :
    InStep C k R (p >>= f) (p' >>= f') ts ts' := by
  unfold InStep at h ⊢
  generalize hr : p ts = r at h
  generalize hr' : p' ts' = r' at h
  cases h with
  | ok hq hj hrest =>
    rw [ok_bind hr, ok_bind hr']
    exact last (hf _ _ _ _ _ hq hj hrest) hj fun _ _ _ hq' _ => hq'
  | error he hj hrest =>
    rw [error_bind hr, error_bind hr']
    exact .error he hj hrest

/-- A token is taken if its kind is among some kinds. -/
theorem accept {kinds : List Kind} {f f' : Option Token → Parser β} (hend : .endOfInput ∉ kinds)
    (h : Abreast C k ts ts') (hnone : InStep C k R (f none) (f' none) ts ts')
    (hsome : ∀ t t' j rest rest', k = j + 1 → C.tokens.Same t t' → t.kind ∈ kinds →
      Abreast C j rest rest' → InStep C j R (f (some t)) (f' (some t')) rest rest') :
    InStep C k R (Parser.accept kinds >>= f) (Parser.accept kinds >>= f') ts ts' := by
  unfold InStep
  cases h with
  | ended =>
    rw [bind_ok (accept_none (stops_of_atEnd C.ended hend)),
      bind_ok (accept_none (stops_of_atEnd C.ended' hend))]
    exact hnone
  | @cons j t t' rest rest' hs ht hrest =>
    by_cases hk : t.kind ∈ kinds
    · rw [bind_ok (accept_some hk), bind_ok (accept_some (by rwa [C.tokens.kind hs]))]
      exact last (hsome t t' j rest rest' rfl hs hk hrest) (Nat.le_succ j) fun _ _ _ hq _ => hq
    · rw [bind_ok (accept_none (.cons hk)),
        bind_ok (accept_none (.cons (by rwa [C.tokens.kind hs])))]
      exact hnone

/-- A token of a kind has to come next. -/
theorem expect {kind : Kind} {f f' : Token → Parser β} (hend : kind ≠ .endOfInput)
    (h : Abreast C k ts ts')
    (hf : ∀ t t' j rest rest', k = j + 1 → C.tokens.Same t t' → t.kind = kind →
      Abreast C j rest rest' → InStep C j R (f t) (f' t') rest rest') :
    InStep C k R (Parser.expect kind >>= f) (Parser.expect kind >>= f') ts ts' := by
  have hone : InStep C k (fun t t' j => C.tokens.Same t t' ∧ t.kind = kind ∧ k = j + 1)
      (Parser.expect kind) (Parser.expect kind) ts ts' := by
    refine accept (fun hmem => hend (List.mem_singleton.mp hmem).symm) h
      (failHere h (.inr ⟨kind, rfl⟩)) ?_
    intro t t' j rest rest' hk hs ht hrest
    exact pure hrest ⟨hs, List.mem_singleton.mp ht, hk⟩
  refine bind hone ?_
  rintro t t' j rest rest' ⟨hs, ht, hk⟩ - hrest
  exact hf t t' j rest rest' hk hs ht hrest

/-- The next token is looked at. -/
theorem next {kind : Kind} {f f' : Bool → Parser β} (hend : kind ≠ .endOfInput)
    (h : Abreast C k ts ts') (hf : ∀ b, InStep C k R (f b) (f' b) ts ts') :
    InStep C k R (Parser.next kind >>= f) (Parser.next kind >>= f') ts ts' := by
  unfold InStep
  rw [bind_ok (next_eq kind ts), bind_ok (next_eq kind ts')]
  have hsame : (ts'.head?.any fun t => t.kind = kind) = ts.head?.any fun t => t.kind = kind := by
    have hfalse : ∀ {us : List Token}, atEnd us = true →
        (us.head?.any fun t => decide (t.kind = kind)) = false := by
      intro us hus
      cases us with
      | nil => rfl
      | cons u us =>
        have hu : u.kind = .endOfInput := atEnd_cons.mp hus
        simpa [hu] using hend.symm
    cases h with
    | ended => rw [hfalse C.ended, hfalse C.ended']
    | cons hs _ _ => simp [C.tokens.kind hs]
  rw [hsame]
  exact hf _

/-- The end is looked for. -/
theorem done {f f' : Bool → Parser β} (h : Abreast C k ts ts')
    (hf : ∀ b, (b = true ↔ k = 0) → InStep C k R (f b) (f' b) ts ts') :
    InStep C k R (Parser.done >>= f) (Parser.done >>= f') ts ts' := by
  unfold InStep
  rw [bind_ok (done_eq ts), bind_ok (done_eq ts'), h.atEnd_iff.2]
  exact hf _ h.atEnd_iff.1

end InStep

/-! ## The readers of expressions -/

/-- Expressions that are alike, with fewer than `k` tokens left. -/
def ReadExpr (C : Comparison) (k : Nat) (e e' : Expr) (j : Nat) : Prop :=
  e.Like C.tokens e' ∧ j < k

/-- With fuel `n` and `n'`, the readers of expressions do the same with lists of tokens for which
both amounts are enough. -/
structure ExpressionsInStep (C : Comparison) (n n' : Nat) : Prop where
  expression : ∀ {k ts ts'}, 32 * k + 16 ≤ n ∧ 32 * k + 16 ≤ n' → Abreast C k ts ts' →
    InStep C k (ReadExpr C k) (expression n) (expression n') ts ts'
  chain : ∀ {k ts ts'} (level : Level),
    32 * k + 2 * level.looseness + 5 ≤ n ∧ 32 * k + 2 * level.looseness + 5 ≤ n' →
    Abreast C k ts ts' → InStep C k (ReadExpr C k) (chain n level) (chain n' level) ts ts'
  chainRest : ∀ {k ts ts'} (level : Level) {left left' : Expr},
    32 * k + 1 ≤ n ∧ 32 * k + 1 ≤ n' → left.Like C.tokens left' → Abreast C k ts ts' →
    InStep C k (fun e e' _ => e.Like C.tokens e') (chainRest n level left)
      (chainRest n' level left') ts ts'
  operand : ∀ {k ts ts'} (level : Level),
    32 * k + 2 * level.looseness + 4 ≤ n ∧ 32 * k + 2 * level.looseness + 4 ≤ n' →
    Abreast C k ts ts' → InStep C k (ReadExpr C k) (operand n level) (operand n' level) ts ts'
  unary : ∀ {k ts ts'}, 32 * k + 3 ≤ n ∧ 32 * k + 3 ≤ n' → Abreast C k ts ts' →
    InStep C k (ReadExpr C k) (unary n) (unary n') ts ts'
  call : ∀ {k ts ts'}, 32 * k + 2 ≤ n ∧ 32 * k + 2 ≤ n' → Abreast C k ts ts' →
    InStep C k (ReadExpr C k) (call n) (call n') ts ts'
  callRest : ∀ {k ts ts'} {callee callee' : Expr}, 32 * k + 1 ≤ n ∧ 32 * k + 1 ≤ n' →
    callee.Like C.tokens callee' → Abreast C k ts ts' →
    InStep C k (fun e e' _ => e.Like C.tokens e') (callRest n callee) (callRest n' callee') ts ts'
  arguments : ∀ {k ts ts'}, 32 * k + 17 ≤ n ∧ 32 * k + 17 ≤ n' → Abreast C k ts ts' →
    InStep C k (fun es es' _ => LikeExprs C.tokens es es') (arguments n) (arguments n') ts ts'
  primary : ∀ {k ts ts'}, 32 * k + 1 ≤ n ∧ 32 * k + 1 ≤ n' → Abreast C k ts ts' →
    InStep C k (ReadExpr C k) (primary n) (primary n') ts ts'

namespace ExpressionsInStep

variable {n n' : Nat}

theorem expression_inStep (ih : ExpressionsInStep C n n')
    (hn : 32 * k + 16 ≤ n + 1 ∧ 32 * k + 16 ≤ n' + 1) (h : Abreast C k ts ts') :
    InStep C k (ReadExpr C k) (Dynascope.expression (n + 1))
      (Dynascope.expression (n' + 1)) ts ts' := by
  unfold Dynascope.expression
  refine .bind (ih.chain .or (by simp only [Level.looseness]; omega) h) ?_
  rintro target target' j rest rest' ⟨htarget, hj⟩ - h
  refine .accept (by decide) h (.pure h ⟨htarget, hj⟩) ?_
  rintro eq eq' i rest rest' rfl hs heq h
  refine .bind (ih.expression (by omega) h) ?_
  rintro v v' _ rest rest' ⟨hv, hi⟩ - h
  have hne : eq.kind ≠ .endOfInput := by rw [List.mem_singleton.mp heq]; decide
  cases htarget with
  | name hx => exact .pure h ⟨.assign hx hv, by omega⟩
  | get ho hx => exact .pure h ⟨.set ho hx hv, by omega⟩
  | _ => exact .throw h hs hne (by decide)

theorem chain_inStep (ih : ExpressionsInStep C n n') (level : Level)
    (hn : 32 * k + 2 * level.looseness + 5 ≤ n + 1 ∧ 32 * k + 2 * level.looseness + 5 ≤ n' + 1)
    (h : Abreast C k ts ts') :
    InStep C k (ReadExpr C k) (Dynascope.chain (n + 1) level)
      (Dynascope.chain (n' + 1) level) ts ts' := by
  unfold Dynascope.chain
  refine .bind (ih.operand level (by omega) h) ?_
  rintro left left' j rest rest' ⟨hleft, hj⟩ - h
  exact .last (ih.chainRest level (by omega) hleft h) (Nat.le_refl j) fun e e' i he hi =>
    ⟨he, by omega⟩

theorem chainRest_inStep (ih : ExpressionsInStep C n n') (level : Level) {left left' : Expr}
    (hn : 32 * k + 1 ≤ n + 1 ∧ 32 * k + 1 ≤ n' + 1) (hleft : left.Like C.tokens left')
    (h : Abreast C k ts ts') :
    InStep C k (fun e e' _ => e.Like C.tokens e') (Dynascope.chainRest (n + 1) level left)
      (Dynascope.chainRest (n' + 1) level left') ts ts' := by
  unfold Dynascope.chainRest
  refine .accept (by cases level <;> decide) h (.pure h hleft) ?_
  rintro op op' j rest rest' rfl hs - h
  have hlevel : level.looseness ≤ 5 := by cases level <;> decide
  refine .bind (ih.operand level (by omega) h) ?_
  rintro right right' i rest rest' ⟨hright, hi⟩ - h
  exact ih.chainRest level (by omega) (.node level hleft hs hright) h

theorem operand_inStep (ih : ExpressionsInStep C n n') (level : Level)
    (hn : 32 * k + 2 * level.looseness + 4 ≤ n + 1 ∧ 32 * k + 2 * level.looseness + 4 ≤ n' + 1)
    (h : Abreast C k ts ts') :
    InStep C k (ReadExpr C k) (Dynascope.operand (n + 1) level)
      (Dynascope.operand (n' + 1) level) ts ts' := by
  unfold Dynascope.operand
  split
  next level' hl =>
    have := Level.looseness_tighter hl
    exact ih.chain level' (by omega) h
  next => exact ih.unary (by omega) h

theorem unary_inStep (ih : ExpressionsInStep C n n')
    (hn : 32 * k + 3 ≤ n + 1 ∧ 32 * k + 3 ≤ n' + 1) (h : Abreast C k ts ts') :
    InStep C k (ReadExpr C k) (Dynascope.unary (n + 1)) (Dynascope.unary (n' + 1)) ts ts' := by
  unfold Dynascope.unary
  refine .accept (by decide) h (ih.call (by omega) h) ?_
  rintro op op' j rest rest' rfl hs - h
  refine .bind (ih.unary (by omega) h) ?_
  rintro e e' i rest rest' ⟨he, hi⟩ - h
  exact .pure h ⟨.unary hs he, by omega⟩

theorem call_inStep (ih : ExpressionsInStep C n n')
    (hn : 32 * k + 2 ≤ n + 1 ∧ 32 * k + 2 ≤ n' + 1) (h : Abreast C k ts ts') :
    InStep C k (ReadExpr C k) (Dynascope.call (n + 1)) (Dynascope.call (n' + 1)) ts ts' := by
  unfold Dynascope.call
  refine .bind (ih.primary (by omega) h) ?_
  rintro c c' j rest rest' ⟨hc, hj⟩ - h
  exact .last (ih.callRest (by omega) hc h) (Nat.le_refl j) fun e e' i he hi => ⟨he, by omega⟩

theorem arguments_inStep (ih : ExpressionsInStep C n n')
    (hn : 32 * k + 17 ≤ n + 1 ∧ 32 * k + 17 ≤ n' + 1) (h : Abreast C k ts ts') :
    InStep C k (fun es es' _ => LikeExprs C.tokens es es') (Dynascope.arguments (n + 1))
      (Dynascope.arguments (n' + 1)) ts ts' := by
  unfold Dynascope.arguments
  refine .bind (ih.expression (by omega) h) ?_
  rintro e e' j rest rest' ⟨he, hj⟩ - h
  refine .accept (by decide) h (.pure h (.cons he .nil)) ?_
  rintro comma comma' i rest rest' rfl - - h
  refine .bind (ih.arguments (by omega) h) ?_
  rintro es es' _ rest rest' hes - h
  exact .pure h (.cons he hes)

theorem callRest_inStep (ih : ExpressionsInStep C n n') {callee callee' : Expr}
    (hn : 32 * k + 1 ≤ n + 1 ∧ 32 * k + 1 ≤ n' + 1) (hc : callee.Like C.tokens callee')
    (h : Abreast C k ts ts') :
    InStep C k (fun e e' _ => e.Like C.tokens e') (Dynascope.callRest (n + 1) callee)
      (Dynascope.callRest (n' + 1) callee') ts ts' := by
  unfold Dynascope.callRest
  refine .accept (by decide) h (.pure h hc) ?_
  rintro t t' j rest rest' rfl hs - h
  dsimp only
  rw [C.tokens.kind hs]
  split
  · have hgiven : InStep C j (fun es es' _ => LikeExprs C.tokens es es')
        (do if ← Parser.next .rightParen then return [] else Dynascope.arguments n)
        (do if ← Parser.next .rightParen then return [] else Dynascope.arguments n')
        rest rest' := by
      refine .next (by decide) h fun b => ?_
      cases b with
      | true => exact .pure h .nil
      | false => exact ih.arguments (by omega) h
    refine .bind hgiven ?_
    rintro es es' i rest rest' hes hi h
    refine .expect (by decide) h ?_
    rintro right right' i rest rest' rfl hright - h
    exact ih.callRest (by omega) (.call hc (.some hright) hes) h
  · refine .expect (by decide) h ?_
    rintro x x' i rest rest' rfl hx - h
    exact ih.callRest (by omega) (.get hc (.some hx)) h

theorem primary_inStep (ih : ExpressionsInStep C n n')
    (hn : 32 * k + 1 ≤ n + 1 ∧ 32 * k + 1 ≤ n' + 1) (h : Abreast C k ts ts') :
    InStep C k (ReadExpr C k) (Dynascope.primary (n + 1)) (Dynascope.primary (n' + 1)) ts ts' := by
  unfold Dynascope.primary
  refine .accept (by decide) h (.failHere h (.inl rfl)) ?_
  rintro t t' j rest rest' rfl hs ht h
  have hne : t.kind ≠ .endOfInput := fun he => by rw [he] at ht; revert ht; decide
  dsimp only
  rw [C.tokens.kind hs]
  split
  · exact .pure h ⟨.literal, Nat.lt_succ_self j⟩
  · exact .pure h ⟨.literal, Nat.lt_succ_self j⟩
  · exact .pure h ⟨.literal, Nat.lt_succ_self j⟩
  · refine .expect (by decide) h ?_
    rintro dot dot' i rest rest' rfl - - h
    refine .expect (by decide) h ?_
    rintro x x' i rest rest' rfl hx - h
    exact .pure h ⟨.superMethod (.some hs) hx, by omega⟩
  · exact .pure h ⟨.receiver (.some hs), Nat.lt_succ_self j⟩
  · exact .pure h ⟨.name hs, Nat.lt_succ_self j⟩
  · refine .bind (ih.expression (by omega) h) ?_
    rintro e e' i rest rest' ⟨he, hi⟩ - h
    refine .expect (by decide) h ?_
    rintro right right' i rest rest' rfl - - h
    exact .pure h ⟨.group he, by omega⟩
  · unfold Token.constant
    rw [C.tokens.value hs]
    split
    · exact .pure h ⟨.literal, Nat.lt_succ_self j⟩
    · exact .throw h hs hne nofun

end ExpressionsInStep

/-- **Expressions side by side.** Any two amounts of fuel that are enough do the same with lists of
tokens that are abreast. -/
theorem expressionsInStep (C : Comparison) (n n' : Nat) : ExpressionsInStep C n n' := by
  induction n generalizing n' with
  | zero =>
    constructor <;> intros <;> omega
  | succ n ih =>
    cases n' with
    | zero => constructor <;> intros <;> omega
    | succ n' =>
      have ih := ih n'
      exact ⟨ih.expression_inStep, ih.chain_inStep, ih.chainRest_inStep, ih.operand_inStep,
        ih.unary_inStep, ih.call_inStep, ih.callRest_inStep, ih.arguments_inStep,
        ih.primary_inStep⟩

end Dynascope
