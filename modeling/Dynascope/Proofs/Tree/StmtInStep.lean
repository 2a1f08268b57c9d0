import Dynascope.Proofs.Tree.InStep

/-!
# Two programs side by side

The readers of statements, and the parser as a whole, do the same with lists of tokens that are
abreast.

* `StatementsInStep`: the readers of statements and of their parts, all at once.
  `statementsInStep` is the induction on the fuel.
* `Abreast.synchronize`: recovery drops as many tokens from both lists.
* `Failures C es es'`: the errors of two programs. They are at tokens that stand for each other,
  except perhaps the last ones, which are then at the ends.
* `parseProgram_abreast`: two such lists give statements and errors that are alike.
-/

namespace Dynascope

open Dynascope.Parser

variable {C : Comparison} {n n' k : Nat} {ts ts' : List Token}

/-! ## The readers of parts of statements -/

/-- Statements that are alike, with fewer than `k` tokens left. -/
def ReadStmt (C : Comparison) (k : Nat) (s s' : Stmt) (j : Nat) : Prop :=
  s.Like C.tokens s' ∧ j < k

theorem expression_inStep (hn : 32 * k + 16 ≤ n ∧ 32 * k + 16 ≤ n') (h : Abreast C k ts ts') :
    InStep C k (ReadExpr C k) (expression n) (expression n') ts ts' :=
  (expressionsInStep C n n').expression hn h

theorem names_inStep (hn : 32 * k + 1 ≤ n ∧ 32 * k + 1 ≤ n') (h : Abreast C k ts ts') :
    InStep C k (fun xs xs' _ => C.tokens.SameAll xs xs') (names n) (names n') ts ts' := by
  induction n generalizing n' k ts ts' with
  | zero => omega
  | succ n ih =>
    cases n' with
    | zero => omega
    | succ n' =>
      unfold names
      refine .expect (by decide) h ?_
      rintro x x' j rest rest' rfl hx - h
      refine .accept (by decide) h (.pure h (.cons hx .nil)) ?_
      rintro comma comma' j rest rest' rfl - - h
      refine .bind (ih (by omega) h) ?_
      rintro xs xs' _ rest rest' hxs - h
      exact .pure h (.cons hx hxs)

theorem expressionStatement_inStep (hn : 32 * k + 16 ≤ n ∧ 32 * k + 16 ≤ n')
    (h : Abreast C k ts ts') :
    InStep C k (ReadStmt C k) (expressionStatement n) (expressionStatement n') ts ts' := by
  refine .bind (expression_inStep hn h) ?_
  rintro e e' j rest rest' ⟨he, hj⟩ - h
  refine .expect (by decide) h ?_
  rintro semi semi' j rest rest' rfl - - h
  exact .pure h ⟨.expr he, by omega⟩

theorem parenthesized_inStep (hn : 32 * k + 1 ≤ n ∧ 32 * k + 1 ≤ n') (h : Abreast C k ts ts') :
    InStep C k (ReadExpr C k) (parenthesized n) (parenthesized n') ts ts' := by
  refine .expect (by decide) h ?_
  rintro left left' j rest rest' rfl - - h
  refine .bind (expression_inStep (by omega) h) ?_
  rintro e e' i rest rest' ⟨he, hi⟩ - h
  refine .expect (by decide) h ?_
  rintro right right' i rest rest' rfl - - h
  exact .pure h ⟨he, by omega⟩

theorem expressionUnless_inStep {kind : Kind} (hkind : kind ≠ .endOfInput)
    (hn : 32 * k + 16 ≤ n ∧ 32 * k + 16 ≤ n') (h : Abreast C k ts ts') :
    InStep C k (fun e e' _ => Option.Rel (Expr.Like C.tokens) e e') (expressionUnless kind n)
      (expressionUnless kind n') ts ts' := by
  refine .next hkind h fun b => ?_
  cases b with
  | true => exact .pure h .none
  | false =>
    refine .bind (expression_inStep hn h) ?_
    rintro e e' j rest rest' ⟨he, -⟩ - h
    exact .pure h (.some he)

theorem varDeclaration_inStep (hn : 32 * k + 1 ≤ n ∧ 32 * k + 1 ≤ n') (h : Abreast C k ts ts') :
    InStep C k (ReadStmt C k) (varDeclaration n) (varDeclaration n') ts ts' := by
  refine .expect (by decide) h ?_
  rintro x x' j rest rest' rfl hx - h
  refine .accept (by decide) h ?_ ?_
  · refine .expect (by decide) h ?_
    rintro semi semi' j rest rest' rfl - - h
    exact .pure h ⟨.varDecl hx .absent, by omega⟩
  · rintro eq eq' j rest rest' rfl - - h
    refine .bind (expression_inStep (by omega) h) ?_
    rintro e e' i rest rest' ⟨he, hi⟩ - h
    refine .expect (by decide) h ?_
    rintro semi semi' i rest rest' rfl - - h
    exact .pure h ⟨.varDecl hx he, by omega⟩

theorem returnStatement_inStep {keyword keyword' : Token} (hk : C.tokens.Same keyword keyword')
    (hn : 32 * k + 16 ≤ n ∧ 32 * k + 16 ≤ n') (h : Abreast C k ts ts') :
    InStep C k (ReadStmt C k) (returnStatement keyword n) (returnStatement keyword' n') ts ts' := by
  refine .bind (expressionUnless_inStep (by decide) hn h) ?_
  rintro value value' j rest rest' hvalue hj h
  refine .expect (by decide) h ?_
  rintro semi semi' j rest rest' rfl - - h
  refine .pure h ⟨.ret (.some hk) ?_, by omega⟩
  cases hvalue with
  | none => exact .absent
  | some he => exact he

theorem forInitial_inStep (hn : 32 * k + 16 ≤ n ∧ 32 * k + 16 ≤ n') (h : Abreast C k ts ts') :
    InStep C k (fun s s' _ => Option.Rel (Stmt.Like C.tokens) s s') (forInitial n)
      (forInitial n') ts ts' := by
  refine .accept (by decide) h ?_ ?_
  · refine .bind (expressionStatement_inStep hn h) ?_
    rintro s s' j rest rest' ⟨hs, -⟩ - h
    exact .pure h (.some hs)
  · rintro t t' j rest rest' rfl hs - h
    dsimp only
    rw [C.tokens.kind hs]
    split
    · exact .pure h .none
    · refine .bind (varDeclaration_inStep (by omega) h) ?_
      rintro s s' i rest rest' ⟨hs, -⟩ - h
      exact .pure h (.some hs)

theorem parameters_inStep (hn : 32 * k + 1 ≤ n ∧ 32 * k + 1 ≤ n') (h : Abreast C k ts ts') :
    InStep C k (fun xs xs' j => C.tokens.SameAll xs xs' ∧ j < k) (parameters n) (parameters n')
      ts ts' := by
  refine .expect (by decide) h ?_
  rintro left left' j rest rest' rfl - - h
  have hgiven : InStep C j (fun xs xs' _ => C.tokens.SameAll xs xs')
      (do if ← next .rightParen then return [] else names n)
      (do if ← next .rightParen then return [] else names n') rest rest' := by
    refine .next (by decide) h fun b => ?_
    cases b with
    | true => exact .pure h .nil
    | false => exact names_inStep (by omega) h
  refine .bind hgiven ?_
  rintro xs xs' i rest rest' hxs hi h
  refine .expect (by decide) h ?_
  rintro right right' i rest rest' rfl - - h
  refine .expect (by decide) h ?_
  rintro brace brace' i rest rest' rfl - - h
  exact .pure h ⟨hxs, by omega⟩

theorem superclassClause_inStep (h : Abreast C k ts ts') :
    InStep C k (fun x x' j => C.tokens.SameIfAny x x' ∧ j < k) superclassClause superclassClause
      ts ts' := by
  refine .bind (Q := fun x x' _ => C.tokens.SameIfAny x x') ?given ?_
  case given =>
    refine .accept (by decide) h (.pure h .none) ?_
    rintro less less' j rest rest' rfl - - h
    refine .expect (by decide) h ?_
    rintro x x' j rest rest' rfl hx - h
    exact .pure h (.some hx)
  rintro x x' j rest rest' hx hj h
  refine .expect (by decide) h ?_
  rintro brace brace' j rest rest' rfl - - h
  exact .pure h ⟨hx, by omega⟩

/-! ## The readers of statements -/

/-- With fuel `n` and `n'`, the readers of statements do the same with lists of tokens for which
both amounts are enough. -/
structure StatementsInStep (C : Comparison) (n n' : Nat) : Prop where
  declaration : ∀ {k ts ts'}, 32 * k + 18 ≤ n ∧ 32 * k + 18 ≤ n' → Abreast C k ts ts' →
    InStep C k (ReadStmt C k) (declaration n) (declaration n') ts ts'
  function : ∀ {k ts ts'}, 32 * k + 1 ≤ n ∧ 32 * k + 1 ≤ n' → Abreast C k ts ts' →
    InStep C k (fun f f' j => f.Like C.tokens f' ∧ j < k) (function n) (function n') ts ts'
  methods : ∀ {k ts ts'}, 32 * k + 2 ≤ n ∧ 32 * k + 2 ≤ n' → Abreast C k ts ts' →
    InStep C k (fun ms ms' j => LikeDecls C.tokens ms ms' ∧ j < k) (methods n) (methods n') ts ts'
  block : ∀ {k ts ts'}, 32 * k + 19 ≤ n ∧ 32 * k + 19 ≤ n' → Abreast C k ts ts' →
    InStep C k (fun ss ss' j => LikeStmts C.tokens ss ss' ∧ j < k) (block n) (block n') ts ts'
  statement : ∀ {k ts ts'}, 32 * k + 17 ≤ n ∧ 32 * k + 17 ≤ n' → Abreast C k ts ts' →
    InStep C k (ReadStmt C k) (statement n) (statement n') ts ts'

namespace StatementsInStep

theorem declaration_inStep (ih : StatementsInStep C n n')
    (hn : 32 * k + 18 ≤ n + 1 ∧ 32 * k + 18 ≤ n' + 1) (h : Abreast C k ts ts') :
    InStep C k (ReadStmt C k) (Dynascope.declaration (n + 1)) (Dynascope.declaration (n' + 1))
      ts ts' := by
  unfold Dynascope.declaration
  refine .accept (by decide) h (ih.statement (by omega) h) ?_
  rintro t t' j rest rest' rfl hs - h
  dsimp only
  rw [C.tokens.kind hs]
  split
  · refine .expect (by decide) h ?_
    rintro x x' j rest rest' rfl hx - h
    refine .bind (superclassClause_inStep h) ?_
    rintro superclass superclass' i rest rest' ⟨hsuper, hi⟩ - h
    refine .bind (ih.methods (by omega) h) ?_
    rintro ms ms' _ rest rest' ⟨hms, hj⟩ - h
    exact .pure h ⟨.classDecl hx hsuper hms.map_some, by omega⟩
  · refine .bind (ih.function (by omega) h) ?_
    rintro f f' i rest rest' ⟨hf, hi⟩ - h
    exact .pure h ⟨.funDecl hf, by omega⟩
  · exact .last (varDeclaration_inStep (by omega) h) (Nat.le_refl j) fun s s' i hvar _ =>
      ⟨hvar.1, by omega⟩

theorem function_inStep (ih : StatementsInStep C n n')
    (hn : 32 * k + 1 ≤ n + 1 ∧ 32 * k + 1 ≤ n' + 1) (h : Abreast C k ts ts') :
    InStep C k (fun f f' j => f.Like C.tokens f' ∧ j < k) (Dynascope.function (n + 1))
      (Dynascope.function (n' + 1)) ts ts' := by
  unfold Dynascope.function
  refine .expect (by decide) h ?_
  rintro x x' j rest rest' rfl hx - h
  refine .bind (parameters_inStep (by omega) h) ?_
  rintro xs xs' i rest rest' ⟨hxs, hi⟩ - h
  refine .bind (ih.block (by omega) h) ?_
  rintro body body' _ rest rest' ⟨hbody, hj⟩ - h
  exact .pure h ⟨.mk hx hxs (.block hbody), by omega⟩

theorem methods_inStep (ih : StatementsInStep C n n')
    (hn : 32 * k + 2 ≤ n + 1 ∧ 32 * k + 2 ≤ n' + 1) (h : Abreast C k ts ts') :
    InStep C k (fun ms ms' j => LikeDecls C.tokens ms ms' ∧ j < k) (Dynascope.methods (n + 1))
      (Dynascope.methods (n' + 1)) ts ts' := by
  unfold Dynascope.methods
  refine .next (by decide) h fun _ => .done h fun _ _ => ?_
  split
  · refine .expect (by decide) h ?_
    rintro brace brace' j rest rest' rfl - - h
    exact .pure h ⟨.nil, by omega⟩
  · refine .bind (ih.function (by omega) h) ?_
    rintro f f' j rest rest' ⟨hf, hj⟩ - h
    refine .bind (ih.methods (by omega) h) ?_
    rintro ms ms' i rest rest' ⟨hms, hi⟩ - h
    exact .pure h ⟨.cons hf hms, by omega⟩

theorem block_inStep (ih : StatementsInStep C n n')
    (hn : 32 * k + 19 ≤ n + 1 ∧ 32 * k + 19 ≤ n' + 1) (h : Abreast C k ts ts') :
    InStep C k (fun ss ss' j => LikeStmts C.tokens ss ss' ∧ j < k) (Dynascope.block (n + 1))
      (Dynascope.block (n' + 1)) ts ts' := by
  unfold Dynascope.block
  refine .next (by decide) h fun _ => .done h fun _ _ => ?_
  split
  · refine .expect (by decide) h ?_
    rintro brace brace' j rest rest' rfl - - h
    exact .pure h ⟨.nil, by omega⟩
  · refine .bind (ih.declaration (by omega) h) ?_
    rintro s s' j rest rest' ⟨hs, hj⟩ - h
    refine .bind (ih.block (by omega) h) ?_
    rintro ss ss' i rest rest' ⟨hss, hi⟩ - h
    exact .pure h ⟨.cons hs hss, by omega⟩

/-- The rest of a `for` loop after its keyword. -/
theorem forLoop_inStep (ih : StatementsInStep C n n')
    (hn : 32 * (k + 1) + 17 ≤ n + 1 ∧ 32 * (k + 1) + 17 ≤ n' + 1) (h : Abreast C k ts ts') :
    InStep C k (ReadStmt C k)
      (do
        let _ ← expect .leftParen
        let initial ← forInitial n
        let condition ← expressionUnless .semicolon n
        let _ ← expect .semicolon
        let increment ← expressionUnless .rightParen n
        let _ ← expect .rightParen
        return forLoop initial condition increment (← Dynascope.statement n))
      (do
        let _ ← expect .leftParen
        let initial ← forInitial n'
        let condition ← expressionUnless .semicolon n'
        let _ ← expect .semicolon
        let increment ← expressionUnless .rightParen n'
        let _ ← expect .rightParen
        return forLoop initial condition increment (← Dynascope.statement n')) ts ts' := by
  refine .expect (by decide) h ?_
  rintro left left' j rest rest' rfl - - h
  refine .bind (forInitial_inStep (by omega) h) ?_
  rintro initial initial' i₁ rest rest' hinitial hi₁ h
  refine .bind (expressionUnless_inStep (by decide) (by omega) h) ?_
  rintro condition condition' i₂ rest rest' hcondition hi₂ h
  refine .expect (by decide) h ?_
  rintro semi semi' i₂ rest rest' rfl - - h
  refine .bind (expressionUnless_inStep (by decide) (by omega) h) ?_
  rintro increment increment' i₃ rest rest' hincrement hi₃ h
  refine .expect (by decide) h ?_
  rintro right right' i₃ rest rest' rfl - - h
  refine .bind (ih.statement (by omega) h) ?_
  rintro body body' i₄ rest rest' ⟨hbody, hi₄⟩ - h
  exact .pure h ⟨StmtRule.like_forLoop hinitial hcondition hincrement hbody, by omega⟩

/-- The rest of an `if` after its keyword. -/
theorem choice_inStep (ih : StatementsInStep C n n')
    (hn : 32 * (k + 1) + 17 ≤ n + 1 ∧ 32 * (k + 1) + 17 ≤ n' + 1) (h : Abreast C k ts ts') :
    InStep C k (ReadStmt C k)
      (do
        let condition ← parenthesized n
        let yes ← Dynascope.statement n
        match ← accept [.kwElse] with
        | some _ => return .choice condition yes (← Dynascope.statement n)
        | none => return .choice condition yes .absent)
      (do
        let condition ← parenthesized n'
        let yes ← Dynascope.statement n'
        match ← accept [.kwElse] with
        | some _ => return .choice condition yes (← Dynascope.statement n')
        | none => return .choice condition yes .absent) ts ts' := by
  refine .bind (parenthesized_inStep (by omega) h) ?_
  rintro c c' j rest rest' ⟨hc, hj⟩ - h
  refine .bind (ih.statement (by omega) h) ?_
  rintro yes yes' i rest rest' ⟨hyes, hi⟩ - h
  refine .accept (by decide) h (.pure h ⟨.choice hc hyes .absent, by omega⟩) ?_
  rintro other other' i rest rest' rfl - - h
  refine .bind (ih.statement (by omega) h) ?_
  rintro no no' _ rest rest' ⟨hno, hi⟩ - h
  exact .pure h ⟨.choice hc hyes hno, by omega⟩

theorem statement_inStep (ih : StatementsInStep C n n')
    (hn : 32 * k + 17 ≤ n + 1 ∧ 32 * k + 17 ≤ n' + 1) (h : Abreast C k ts ts') :
    InStep C k (ReadStmt C k) (Dynascope.statement (n + 1)) (Dynascope.statement (n' + 1))
      ts ts' := by
  unfold Dynascope.statement
  refine .accept (by decide) h (expressionStatement_inStep (by omega) h) ?_
  rintro t t' j rest rest' rfl hs - h
  -- One token was taken, so fewer are left whatever the reader for the rest does.
  have hone : ∀ s s' i, ReadStmt C j s s' i → i ≤ j → ReadStmt C (j + 1) s s' i :=
    fun s s' i hread _ => ⟨hread.1, Nat.lt_succ_of_lt hread.2⟩
  refine .last ?_ (Nat.le_refl j) hone
  dsimp only
  rw [C.tokens.kind hs]
  split
  · exact forLoop_inStep ih hn h
  · exact choice_inStep ih hn h
  · exact returnStatement_inStep hs (by omega) h
  · refine .bind (parenthesized_inStep (by omega) h) ?_
    rintro c c' i rest rest' ⟨hc, hi⟩ - h
    refine .bind (ih.statement (by omega) h) ?_
    rintro body body' _ rest rest' ⟨hbody, hj⟩ - h
    exact .pure h ⟨.loop hc hbody, by omega⟩
  · refine .bind (ih.block (by omega) h) ?_
    rintro ss ss' i rest rest' ⟨hss, hi⟩ - h
    exact .pure h ⟨.block hss, hi⟩

end StatementsInStep

/-- **Statements side by side.** Any two amounts of fuel that are enough do the same with lists of
tokens that are abreast. -/
theorem statementsInStep (C : Comparison) (n n' : Nat) : StatementsInStep C n n' := by
  induction n generalizing n' with
  | zero => constructor <;> intros <;> omega
  | succ n ih =>
    cases n' with
    | zero => constructor <;> intros <;> omega
    | succ n' =>
      have ih := ih n'
      exact ⟨ih.declaration_inStep, ih.function_inStep, ih.methods_inStep, ih.block_inStep,
        ih.statement_inStep⟩

/-! ## Programs -/

theorem Abreast.skipTo (h : Abreast C k ts ts') {previous previous' : Token}
    (hs : C.tokens.Same previous previous') :
    ∃ j, j ≤ k ∧ Abreast C j (skipTo previous ts) (skipTo previous' ts') := by
  have hended : ∀ {us : List Token} (u : Token), atEnd us = true → Dynascope.skipTo u us = us := by
    intro us u hus
    cases us with
    | nil => rfl
    | cons t us =>
      have ht : t.kind = .endOfInput := atEnd_cons.mp hus
      simp [Dynascope.skipTo, ht]
  induction h generalizing previous previous' with
  | ended =>
    rw [hended _ C.ended, hended _ C.ended']
    exact ⟨0, Nat.le_refl 0, .ended⟩
  | @cons k t t' ts ts' ht hne h ih =>
    unfold Dynascope.skipTo
    rw [C.tokens.kind hs, C.tokens.kind ht]
    split
    · exact ⟨k + 1, Nat.le_refl _, .cons ht hne h⟩
    · obtain ⟨j, hj, hrest⟩ := ih ht
      exact ⟨j, Nat.le_succ_of_le hj, hrest⟩

/-- Recovery drops as many tokens from both lists, and at least one unless they end. -/
theorem Abreast.synchronize (h : Abreast C k ts ts') :
    ∃ j, j ≤ k - 1 ∧ Abreast C j (synchronize ts) (synchronize ts') := by
  have hended : ∀ {us : List Token}, atEnd us = true → Dynascope.synchronize us = us := by
    intro us hus
    cases us with
    | nil => rfl
    | cons t us =>
      have ht : t.kind = .endOfInput := atEnd_cons.mp hus
      simp [Dynascope.synchronize, ht]
  cases h with
  | ended =>
    rw [hended C.ended, hended C.ended']
    exact ⟨0, Nat.le_refl 0, .ended⟩
  | cons hs ht h =>
    rw [Dynascope.synchronize, Dynascope.synchronize, if_neg ht,
      if_neg (by rwa [C.tokens.kind hs])]
    exact h.skipTo hs

/-- The errors of two programs, in order. Only the last ones may be at the ends. -/
inductive Failures (C : Comparison) : List ParseError → List ParseError → Prop where
  | nil : Failures C [] []
  | passed {fault : ParseFault} {t t' : Token} {es es' : List ParseError}
      (hs : C.tokens.Same t t') (ht : t.kind ≠ .endOfInput) (hf : fault ≠ .noToken)
      (h : Failures C es es') : Failures C (⟨fault, some t⟩ :: es) (⟨fault, some t'⟩ :: es')
  | ended {fault : ParseFault} (hf : fault.Ahead) :
    Failures C [fault.before C.last] [fault.before C.last']

/-- Programs whose statements and errors are alike. -/
structure Parsed.Abreast (C : Comparison) (p p' : Parsed) : Prop where
  statements : LikeStmts C.tokens p.statements p'.statements
  errors : Failures C p.errors p'.errors

theorem parseFrom_abreast (hn : k < n ∧ k < n') (h : Abreast C k ts ts') :
    (parseFrom n ts).Abreast C (parseFrom n' ts') := by
  induction n generalizing n' k ts ts' with
  | zero => omega
  | succ n ih =>
    cases n' with
    | zero => omega
    | succ n' =>
      unfold parseFrom
      rw [h.atEnd_iff.2]
      split
      next => exact ⟨.nil, .nil⟩
      next hleft =>
        have hk : k ≠ 0 := fun hk => hleft (h.atEnd_iff.1.mpr hk)
        have hread := (statementsInStep C (fuelFor n) (fuelFor n')).declaration
          (by unfold fuelFor; omega) h
        unfold InStep at hread
        generalize declaration (fuelFor n) ts = r at hread
        generalize declaration (fuelFor n') ts' = r' at hread
        cases hread with
        | @ok s s' j rest rest' hs _ hrest =>
          have hj : j < k := hs.2
          have hlater := ih (⟨by omega, by omega⟩ : j < n ∧ j < n') hrest
          exact ⟨.cons hs.1 hlater.statements, hlater.errors⟩
        | @error e e' j rest rest' he hj hrest =>
          obtain ⟨i, hi, hsync⟩ := hrest.synchronize
          have hlater := ih (⟨by omega, by omega⟩ : i < n ∧ i < n') hsync
          refine ⟨hlater.statements, ?_⟩
          cases he with
          | passed hs ht hf => exact .passed hs ht hf hlater.errors
          | ended hf =>
            -- Nothing is read after a failure at the end.
            obtain rfl : i = 0 := by omega
            have hend : atEnd (synchronize rest) = true := hsync.atEnd_iff.1.mpr rfl
            dsimp only
            rw [parseFrom_ended n hend, parseFrom_ended n' (hsync.atEnd_iff.2.trans hend)]
            exact .ended hf

theorem Abreast.le_length (h : Abreast C k ts ts') : k ≤ ts.length ∧ k ≤ ts'.length := by
  induction h with
  | ended => exact ⟨Nat.zero_le _, Nat.zero_le _⟩
  | cons _ _ _ ih => exact ⟨Nat.succ_le_succ ih.1, Nat.succ_le_succ ih.2⟩

/-- **Programs side by side.** Lists of tokens that are abreast give statements and errors that are
alike. -/
theorem parseProgram_abreast (h : Abreast C k ts ts') :
    (parseProgram ts).Abreast C (parseProgram ts') :=
  parseFrom_abreast (by have := h.le_length; omega) h

end Dynascope
