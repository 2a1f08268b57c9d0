import Dynascope.Proofs.Eval.Balance
import Dynascope.Proofs.Eval.EmptyFrame
import Dynascope.Proofs.Eval.Fuel
import Dynascope.Proofs.Tree.Parses

/-!
# Loops with an initial statement and an increment

A `for` loop is read as a block with a plain loop, whose body is one more block. It does what a loop
does that has one frame, for its initial statement, and no frame for its rounds.

* `ForParts`: the parts of a `for` loop; `forParts` reads them.
* `Eval.forRun`: the loop as it is meant.
* `ForParts.WellFormed`: what is known of the parts that are read. The body declares nothing in the
  frame of the loop.
* `Eval.exec_forRun`, `Eval.forRun_exec`: the tree does what is meant, and the other way round.
* `exec_for`: the whole statement for every `for` loop that is read.
-/

namespace Dynascope

open Dynascope.Parser

/-! ## The parts of a loop -/

/-- The parts of a `for` loop; all but the body may be missing. -/
structure ForParts where
  initial : Option Stmt
  condition : Option Expr
  increment : Option Expr
  body : Stmt

namespace ForParts

/-- The tree of a `for` loop with these parts. -/
def tree (p : ForParts) : Stmt :=
  forLoop p.initial p.condition p.increment p.body

/-- The condition in the tree. -/
def test (p : ForParts) : Expr :=
  p.condition.getD (.literal (.bool true))

/-- The statements of a round in the tree. -/
def steps (p : ForParts) : List Stmt :=
  p.body :: p.increment.toList.map .expr

theorem tree_eq (p : ForParts) :
    p.tree = .block (p.initial.toList ++ [.loop p.test (.block p.steps)]) := rfl

/-- The same parts, with the function declarations of the body numbered. -/
def numbered (p : ForParts) (site : Nat) : ForParts :=
  { p with body := (p.body.numbered site).1 }

end ForParts

/-- Reads the parts of a `for` loop after its keyword. -/
def forParts (fuel : Nat) : Parser ForParts := do
  let _ ← expect .leftParen
  let initial ← forInitial fuel
  let condition ← expressionUnless .semicolon fuel
  let _ ← expect .semicolon
  let increment ← expressionUnless .rightParen fuel
  let _ ← expect .rightParen
  return ⟨initial, condition, increment, ← statement fuel⟩

/-- After its keyword, a `for` loop is read as its parts. -/
theorem statement_for (fuel : Nat) {keyword : Token} (hk : keyword.kind = .kwFor)
    (ts : List Token) :
    statement (fuel + 1) (keyword :: ts) = (forParts fuel >>= fun p => pure p.tree) ts := by
  unfold statement
  rw [bind_ok (accept_some (by rw [hk]; decide))]
  simp only [hk, forParts, ForParts.tree, bind_assoc, pure_bind]

/-- Whether a statement may stand first in a `for` loop. -/
def Stmt.isInitial : Stmt → Bool
  | .expr _ | .varDecl .. => true
  | _ => false

/-- What is known of the parts of a `for` loop that is read. -/
structure ForParts.WellFormed (p : ForParts) : Prop where
  initial : ∀ s ∈ p.initial, s.isInitial = true
  body : p.body.plain = true

/-- No statement is a declaration, nor are the branches and bodies in it. -/
theorem statement_plain (n : Nat) (ts : List Token) :
    Ends (statement n) ts (fun s _ => s.plain = true) fun _ _ => True := by
  induction n generalizing ts with
  | zero => trivial
  | succ n ih =>
    unfold statement
    refine .skip fun taken rest => ?_
    cases taken with
    | none => exact .skip fun _ _ => .skip fun _ _ => rfl
    | some t =>
      dsimp only
      split
      · -- The tree of a `for` loop is a block.
        refine .skip fun _ _ => .skip fun _ _ => .skip fun _ _ => .skip fun _ _ => ?_
        exact .skip fun _ _ => .skip fun _ _ => .skip fun _ _ => rfl
      · refine .skip fun _ _ => .bind (ih _) fun yes rest hyes => .skip fun other rest => ?_
        cases other with
        | none => exact (Bool.and_eq_true_iff.mpr ⟨hyes, rfl⟩ : (yes.plain && true) = true)
        | some t =>
          exact .bind (ih _) fun no rest hno => Bool.and_eq_true_iff.mpr ⟨hyes, hno⟩
      · exact .skip fun _ _ => .skip fun _ _ => rfl
      · exact .skip fun _ _ => .bind (ih _) fun body rest hbody => hbody
      · exact .skip fun _ _ => rfl

theorem forInitial_isInitial (n : Nat) (ts : List Token) :
    Ends (forInitial n) ts (fun initial _ => ∀ s ∈ initial, s.isInitial = true)
      fun _ _ => True := by
  have hvar : ∀ ts, Ends (varDeclaration n) ts (fun s _ => s.isInitial = true) fun _ _ => True := by
    intro ts
    refine .skip fun x rest => .skip fun eq rest => ?_
    cases eq with
    | none => exact .skip fun _ _ => rfl
    | some t => exact .skip fun _ _ => .skip fun _ _ => rfl
  have hexpr : ∀ ts,
      Ends (expressionStatement n) ts (fun s _ => s.isInitial = true) fun _ _ => True :=
    fun ts => .skip fun _ _ => .skip fun _ _ => rfl
  refine .skip fun taken rest => ?_
  cases taken with
  | none => exact .bind (hexpr _) fun s rest hs s' hs' => Option.some.inj hs' ▸ hs
  | some t =>
    dsimp only
    split
    · exact fun _ hs => nomatch hs
    · exact .bind (hvar _) fun s rest hs s' hs' => Option.some.inj hs' ▸ hs

theorem forParts_wellFormed (n : Nat) (ts : List Token) :
    Ends (forParts n) ts (fun p _ => p.WellFormed) fun _ _ => True := by
  refine .skip fun _ _ => .bind (forInitial_isInitial n _) fun initial _ hi => ?_
  refine .skip fun _ _ => .skip fun _ _ => .skip fun _ _ => .skip fun _ _ => ?_
  exact .bind (statement_plain n _) fun body _ hb => ⟨hi, hb⟩

/-- Numbering does not make a declaration. -/
theorem Stmt.plain_numbered : ∀ (s : Stmt) (n : Nat), (s.numbered n).1.plain = s.plain
  | .absent, _ => rfl
  | .block _, _ => rfl
  | .classDecl .., _ => rfl
  | .expr _, _ => rfl
  | .funDecl _, _ => rfl
  | .choice _ yes no, n => by
    simp only [Stmt.numbered, Stmt.plain, yes.plain_numbered, no.plain_numbered]
  | .ret .., _ => rfl
  | .varDecl .., _ => rfl
  | .loop _ body, n => by simp only [Stmt.numbered, Stmt.plain, body.plain_numbered]

namespace ForParts.WellFormed

variable {p : ForParts}

theorem numbered (h : p.WellFormed) (site : Nat) : (p.numbered site).WellFormed :=
  ⟨h.initial, (Stmt.plain_numbered ..).trans h.body⟩

/-- Only the body has function declarations. -/
theorem numbered_tree (h : p.WellFormed) (site : Nat) :
    (p.tree.numbered site).1 = (p.numbered site).tree := by
  obtain ⟨initial, condition, increment, body⟩ := p
  have hinitial : ∀ s ∈ initial, ∀ n, s.numbered n = (s, n) := by
    intro s hs n
    have hs := h.initial s hs
    cases s with
    | expr e => rfl
    | varDecl x e => rfl
    | _ => cases hs
  cases initial with
  | none => cases increment <;> rfl
  | some s =>
    cases increment <;>
      simp [tree, forLoop, ForParts.numbered, Stmt.numbered, numberedAll, hinitial s rfl]

end ForParts.WellFormed

/-! ## The loop as it is meant -/

namespace Eval

/-- The value of an expression, if there is one. -/
def evalGiven (n : Nat) : Option Expr → Eval Held
  | none => return none
  | some e => return some (← eval n e)

/-- Executes a statement, if there is one. -/
def execGiven (n : Nat) : Option Stmt → Eval Unit
  | none => return ()
  | some s => do
    let _ ← exec n s
    return ()

/-- One round of a `for` loop: the body and, unless it returns, the increment. -/
def round (n : Nat) (p : ForParts) : Eval Flow := do
  match ← exec n p.body with
  | .normal =>
    let _ ← evalGiven n p.increment
    return .normal
  | flow => return flow

/-- The rounds of a `for` loop, as long as its condition holds; a missing one does. -/
def rounds : (fuel : Nat) → ForParts → Eval Flow
  | 0, _ => throw .outOfFuel
  | n + 1, p => do
    let c ← evalGiven n p.condition
    if c.all Value.truthy then
      match ← round n p with
      | .normal => rounds n p
      | flow => return flow
    else return .normal

/-- A `for` loop: one frame, in which the initial statement is executed, and then the rounds. -/
def forRun (n : Nat) (p : ForParts) : Eval Flow :=
  withFrame "block" do
    execGiven n p.initial
    rounds n p

/-! ## The tree and the loop -/

variable {n n' : Nat} {p : ForParts}

theorem execGiven_some (n : Nat) (s : Stmt) (act : Eval Flow) :
    (do execGiven n (some s); act) = (exec n s >>= fun _ => act) := by
  simp only [execGiven, bind_assoc, pure_bind]

theorem execAll_expr (n : Nat) (e : Expr) :
    execAll (n + 2) [.expr e] = (do let _ ← eval n e; return .normal) := by
  simp only [execAll, exec, bind_assoc, pure_bind]

theorem evalGiven_some {β : Type} (n : Nat) (e : Expr) (f : Held → Eval β) :
    (evalGiven n (some e) >>= f) = (eval n e >>= fun v => f (some v)) := by
  simp only [evalGiven, bind_assoc, pure_bind]

/-- The increment is the last statement of a round. -/
theorem execAll_evalGiven (h : n ≤ n') (increment : Option Expr) :
    Continues (execAll n (increment.toList.map .expr))
      (do let _ ← evalGiven n' increment; return .normal) := by
  cases increment with
  | none =>
    cases n with
    | zero => exact .cut _
    | succ n => exact .refl _
  | some e =>
    match n with
    | 0 => exact .cut _
    | 1 => exact .cut _
    | n + 2 =>
      rw [evalGiven_some]
      show Continues (execAll (n + 2) [.expr e]) _
      rw [execAll_expr]
      exact .bind ((steady (by omega)).expr e) fun _ => .refl _

theorem evalGiven_execAll (h : n + 2 ≤ n') (increment : Option Expr) :
    Continues (do let _ ← evalGiven n increment; return .normal)
      (execAll n' (increment.toList.map .expr)) := by
  obtain ⟨k, rfl⟩ : ∃ k, n' = k + 2 := ⟨n' - 2, by omega⟩
  cases increment with
  | none => exact .refl _
  | some e =>
    rw [evalGiven_some]
    show Continues _ (execAll (k + 2) [.expr e])
    rw [execAll_expr]
    exact .bind ((steady (by omega)).expr e) fun _ => .refl _

/-- The block of a round declares nothing, so it needs no frame. -/
theorem exec_steps (hp : p.body.plain = true) (n : Nat) :
    exec (n + 1) (.block p.steps) = execAll n p.steps := by
  refine exec_block ?_ n
  rw [ForParts.steps, List.forall_mem_cons]
  refine ⟨hp, ?_⟩
  cases p.increment <;> simp [Stmt.plain]

theorem exec_round (hp : p.body.plain = true) (h : n ≤ n') :
    Continues (exec n (.block p.steps)) (round n' p) := by
  match n with
  | 0 => exact .cut _
  | 1 =>
    rw [exec_steps hp]
    exact .cut _
  | n + 2 =>
    rw [exec_steps hp]
    exact .next ((steady (by omega)).stmt p.body)
      (execAll_evalGiven (by omega) p.increment)

theorem round_exec (hp : p.body.plain = true) (h : n + 4 ≤ n') :
    Continues (round n p) (exec n' (.block p.steps)) := by
  obtain ⟨k, rfl⟩ : ∃ k, n' = k + 2 := ⟨n' - 2, by omega⟩
  rw [exec_steps hp]
  exact .next ((steady (by omega)).stmt p.body)
    (evalGiven_execAll (by omega) p.increment)

section Test

variable {yes yes' no no' : Eval Flow} (hyes : Continues yes yes') (hno : Continues no no')

include hyes hno

/-- A missing condition holds. -/
theorem eval_test (h : n ≤ n') :
    Continues
      (do
        let c ← eval n p.test
        if c.truthy then yes else no)
      (do
        let c ← evalGiven n' p.condition
        if c.all Value.truthy then yes' else no') := by
  unfold ForParts.test
  cases p.condition with
  | none =>
    cases n with
    | zero => exact .cut _
    | succ n => exact hyes
  | some e =>
    rw [evalGiven_some]
    exact .bind ((steady h).expr e) fun v => .ite hyes hno

theorem test_eval (h : n < n') :
    Continues
      (do
        let c ← evalGiven n p.condition
        if c.all Value.truthy then yes else no)
      (do
        let c ← eval n' p.test
        if c.truthy then yes' else no') := by
  unfold ForParts.test
  cases p.condition with
  | none =>
    obtain ⟨k, rfl⟩ : ∃ k, n' = k + 1 := ⟨n' - 1, by omega⟩
    exact hyes
  | some e =>
    rw [evalGiven_some]
    exact .bind ((steady (Nat.le_of_lt h)).expr e) fun v => .ite hyes hno

end Test

/-- The plain loop does the rounds of the `for` loop. -/
theorem execLoop_rounds (hp : p.body.plain = true) (h : n ≤ n') :
    Continues (execLoop n p.test (.block p.steps)) (rounds n' p) := by
  induction n generalizing n' with
  | zero => exact .cut _
  | succ n ih =>
    obtain ⟨k, rfl⟩ : ∃ k, n' = k + 1 := ⟨n' - 1, by omega⟩
    have hk : n ≤ k := by omega
    exact eval_test (.next (exec_round hp hk) (ih hk)) (.refl _) hk

theorem rounds_execLoop (hp : p.body.plain = true) (h : n + 4 ≤ n') :
    Continues (rounds n p) (execLoop n' p.test (.block p.steps)) := by
  induction n generalizing n' with
  | zero => exact .cut _
  | succ n ih =>
    obtain ⟨k, rfl⟩ : ∃ k, n' = k + 1 := ⟨n' - 1, by omega⟩
    have hk : n + 4 ≤ k := by omega
    exact test_eval (.next (round_exec hp hk) (ih hk)) (.refl _) (by omega)

/-- A statement alone. -/
theorem execAll_single (n : Nat) (s : Stmt) : Continues (execAll n [s]) (exec n s) := by
  cases n with
  | zero => exact .cut _
  | succ n =>
    rw [← bind_pure (exec (n + 1) s)]
    refine .bind ((steady (Nat.le_succ n)).stmt s) fun flow => ?_
    cases flow with
    | normal =>
      cases n with
      | zero => exact .cut _
      | succ n => exact .refl _
    | returned v => exact .refl _

theorem single_execAll (n : Nat) (s : Stmt) : Continues (exec n s) (execAll (n + 2) [s]) := by
  have hmore : Continues (exec n s >>= pure) (execAll (n + 2) [s]) := by
    refine .bind ((steady (Nat.le_succ n)).stmt s) fun flow => ?_
    cases flow with
    | normal => exact .refl _
    | returned v => exact .refl _
  rwa [bind_pure] at hmore

/-- An initial statement ends normally or fails. -/
theorem exec_initial {s : Stmt} (hs : s.isInitial = true) (n : Nat) (f : Flow → Eval Flow) :
    (exec n s >>= f) = (exec n s >>= fun _ => f .normal) := by
  cases n with
  | zero => rfl
  | succ n =>
    cases s with
    | expr e => simp only [exec, bind_assoc, pure_bind]
    | varDecl x initial => simp only [exec, bind_assoc, pure_bind]
    | _ => cases hs

section Whole

variable {act : Eval Flow} {initial : Option Stmt} {s : Stmt}
  (hinitial : ∀ s ∈ initial, s.isInitial = true)

include hinitial

/-- The statements of a block with an initial statement and another one. -/
theorem execAll_execGiven (h : n ≤ n') (hs : ∀ k, k ≤ n → Continues (execAll k [s]) act) :
    Continues (execAll n (initial.toList ++ [s])) (do execGiven n' initial; act) := by
  cases initial with
  | none => exact hs n (Nat.le_refl n)
  | some i =>
    cases n with
    | zero => exact .cut _
    | succ n =>
      have hi : i.isInitial = true := hinitial i rfl
      show Continues (exec n i >>= _) _
      rw [execGiven_some, exec_initial hi]
      exact .bind ((steady (Nat.le_of_succ_le h)).stmt i) fun _ => hs n (Nat.le_succ n)

theorem execGiven_execAll (h : n < n') (hs : ∀ k, n' ≤ k + 1 → Continues act (execAll k [s])) :
    Continues (do execGiven n initial; act) (execAll n' (initial.toList ++ [s])) := by
  cases initial with
  | none => exact hs n' (Nat.le_succ n')
  | some i =>
    obtain ⟨k, rfl⟩ : ∃ k, n' = k + 1 := ⟨n' - 1, by omega⟩
    have hi : i.isInitial = true := hinitial i rfl
    show Continues _ (exec k i >>= _)
    rw [execGiven_some, exec_initial hi k]
    exact .bind ((steady (Nat.le_of_lt_succ h)).stmt i) fun _ => hs k (Nat.le_refl _)

end Whole

/-- **The tree does what the loop does,** unless its fuel is used up. -/
theorem exec_forRun (hp : p.WellFormed) (n : Nat) : Continues (exec n p.tree) (forRun n p) := by
  cases n with
  | zero => exact .cut _
  | succ n =>
    rw [ForParts.tree_eq]
    refine .withFrame _ (execAll_execGiven hp.initial (Nat.le_succ n) fun k hk => ?_)
    refine .trans (execAll_single k _) ?_
    cases k with
    | zero => exact .cut _
    | succ k => exact execLoop_rounds hp.body (by omega)

/-- **The loop does what the tree does,** which has more levels and takes a little more fuel. -/
theorem forRun_exec (hp : p.WellFormed) (n : Nat) :
    Continues (forRun n p) (exec (n + 9) p.tree) := by
  rw [ForParts.tree_eq]
  refine .withFrame _ (execGiven_execAll hp.initial (by omega) fun k hk => ?_)
  obtain ⟨j, rfl⟩ : ∃ j, k = j + 2 := ⟨k - 2, by omega⟩
  refine .trans ?_ (single_execAll j _)
  obtain ⟨i, rfl⟩ : ∃ i, j = i + 1 := ⟨j - 1, by omega⟩
  exact rounds_execLoop hp.body (by omega)

section Plain

variable {s : Stmt} (hs : s.plain = true)

include hs

/-- A plain statement leaves an empty current frame as it is, and does what it does without it. -/
theorem exec_plain_padded (n : Nat) (name : Text) (m : Machine) :
    PaddedEnd name 0 (exec n s m) (exec n s { m with frames := m.frames.push name }) :=
  (blind name n).stmt (.inr (by simpa using hs)) _ _ (.mk (.here m.frames))

/-- The frame is still empty afterwards. -/
theorem exec_plain_current (n : Nat) (name : Text) (m : Machine) :
    (finalState (exec n s { m with frames := m.frames.push name })).frames.current =
      .empty name := by
  have hpadded := exec_plain_padded hs n name m
  generalize exec n s m = r₀ at hpadded
  generalize exec n s { m with frames := m.frames.push name } = r at hpadded
  have hcurrent : ∀ {m₁ m₂ : Machine}, m₁.Padded name 0 m₂ → m₂.frames.current = .empty name := by
    intro m₁ m₂ hm
    obtain ⟨hframes⟩ := hm
    rw [hframes.eq_push]
    rfl
  cases hpadded with
  | ok hm => exact hcurrent hm
  | error hm => exact hcurrent hm

/-- A plain statement leaves the names in all frames as they are. -/
theorem exec_plain_kept (n : Nat) : Along Machine.Kept (exec n s) := by
  intro m
  have hpadded := exec_plain_padded hs n "" m
  have hbelow := (balanced n).stmt s { m with frames := m.frames.push "" }
  generalize exec n s m = r at hpadded
  generalize exec n s { m with frames := m.frames.push "" } = r' at hpadded hbelow
  -- Below the empty frame, names stay in any case.
  have hkept : ∀ {m₁ m₂ : Machine}, m₁.Padded "" 0 m₂ →
      Machine.KeptBelow { m with frames := m.frames.push "" } m₂ → m.Kept m₁ := by
    intro m₁ m₂ hm hbelow
    obtain ⟨hframes⟩ := hm
    have htail := hbelow.below
    rw [hframes.eq_push] at htail
    exact ⟨htail, hbelow.depth⟩
  cases hpadded with
  | ok hm => exact hkept hm hbelow
  | error hm => exact hkept hm hbelow

end Plain

end Eval

/-- **`for` loops.** Every `for` loop that is read, with or without an initial statement, a
condition and an increment, ends as the loop that is meant, on every machine: with the same outcome
or failure and the same frames, heap and output; or neither ends. Its body leaves the names in all
frames as they are, so no name that it declares is there for the increment or the condition. In a
frame of its own it leaves that frame empty. -/
theorem exec_for {fuel : Nat} {keyword : Token} {ts rest : List Token} {s : Stmt}
    (hk : keyword.kind = .kwFor) (hs : statement (fuel + 1) (keyword :: ts) = .ok s rest)
    (site : Nat) :
    ∃ p : ForParts, forParts fuel ts = .ok p rest ∧
      (s.numbered site).1 = (p.numbered site).tree ∧
      (∀ m r, EndsWith (fun n => Eval.exec n (s.numbered site).1) m r ↔
        EndsWith (fun n => Eval.forRun n (p.numbered site)) m r) ∧
      (∀ m, Forever (fun n => Eval.exec n (s.numbered site).1) m ↔
        Forever (fun n => Eval.forRun n (p.numbered site)) m) ∧
      ∀ (n : Nat) (m : Machine), m.Kept (finalState (Eval.exec n (p.numbered site).body m)) ∧
        (finalState (Eval.exec n (p.numbered site).body
          { m with frames := m.frames.push "block" })).frames.current = .empty "block" := by
  rw [statement_for fuel hk] at hs
  have hread := forParts_wellFormed fuel ts
  unfold Ends at hread
  cases hparts : forParts fuel ts with
  | error e rest' =>
    rw [error_bind hparts] at hs
    cases hs
  | ok p rest' =>
    rw [ok_bind hparts] at hs
    cases hs
    rw [hparts] at hread
    have hwell : (p.numbered site).WellFormed := hread.numbered site
    have hends : ∀ m r, EndsWith (fun n => Eval.exec n (p.tree.numbered site).1) m r ↔
        EndsWith (fun n => Eval.forRun n (p.numbered site)) m r := by
      intro m r
      rw [hread.numbered_tree]
      exact ⟨fun h => h.continued fun n => ⟨n, Eval.exec_forRun hwell n⟩,
        fun h => h.continued fun n => ⟨n + 9, Eval.forRun_exec hwell n⟩⟩
    refine ⟨p, rfl, hread.numbered_tree site, hends, fun m => ?_, fun n m => ?_⟩
    · rw [forever_iff, forever_iff]
      exact forall_congr' fun r => not_congr (hends m r)
    · exact ⟨Eval.exec_plain_kept hwell.body n m, Eval.exec_plain_current hwell.body n "block" m⟩

/-- A loop whose body declares the name of the loop variable once more. The increment does not see
it, so the loop ends. -/
theorem exec_for_shadowed :
    let t (kind : Kind) (lexeme : Text) : Token := ⟨kind, lexeme, none, .start⟩
    let i := t .identifier "i"
    let keyword := t .kwFor "for"
    let ts := [t .leftParen "(", t .kwVar "var", i, t .semicolon ";", t .bang "!", i,
      t .semicolon ";", i, t .equal "=", t .kwTrue "true", t .rightParen ")", t .leftBrace "\x7b",
      t .kwVar "var", i, t .equal "=", t .kwNil "nil", t .semicolon ";", t .rightBrace "\x7d"]
    let p : ForParts := ⟨some (.varDecl i .absent), some (.unary (t .bang "!") (.name i)),
      some (.assign i (.literal (.bool true))), .block [.varDecl i (.literal .nil)]⟩
    keyword.kind = .kwFor ∧ statement 60 (keyword :: ts) = .ok p.tree [] ∧
      ∃ m, EndsWith (fun n => Eval.exec n p.tree) .new (.ok .normal m) ∧
        EndsWith (fun n => Eval.forRun n p) .new (.ok .normal m) := by
  intro t i keyword ts p
  have hs : statement 60 (keyword :: ts) = .ok p.tree [] := rfl
  refine ⟨rfl, hs, ?_⟩
  obtain ⟨q, hq, -, hends, -⟩ := exec_for rfl hs 1
  obtain rfl : p = q := by
    injection (show forParts 59 ts = .ok p [] from rfl).symm.trans hq
  have hends : ∀ m r, EndsWith (fun n => Eval.exec n p.tree) m r ↔
      EndsWith (fun n => Eval.forRun n p) m r := hends
  have hnormal : (Eval.exec 20 p.tree).run' .new = some .normal := by decide +kernel
  obtain ⟨m, hm⟩ := ok_of_run' hnormal
  have hexec : EndsWith (fun n => Eval.exec n p.tree) .new (.ok .normal m) := ⟨20, hm, nofun⟩
  exact ⟨m, hexec, (hends _ _).mp hexec⟩

end Dynascope
