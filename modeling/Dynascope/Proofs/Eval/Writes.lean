import Dynascope.Proofs.Eval.History
import Dynascope.Proofs.Eval.Operations

/-!
# Writes that fail

A run ends with a failed write only if the output takes no more.

* `Machine.capacity`: how many writes the output takes, those that were made among them.
* `Accounted act`: the computation keeps the capacity, and it ends with a failed write only if the
  capacity is used up.
* `Accounts n`: with fuel `n`, the functions of the evaluator are accounted for; `accounts` is the
  induction on the fuel.
* `Machine.written_of_writeFailed`: at a failed write, as many writes were made as the output takes.
-/

namespace Dynascope

/-- How many writes the output takes, those that were made among them; none if it takes all. -/
def Machine.capacity (m : Machine) : Option Nat :=
  m.writesLeft.map (m.written.size + ·)

theorem Machine.Beside.capacity {m m' : Machine} (h : Beside m m') : m'.capacity = m.capacity := by
  rw [Machine.capacity, h.written, h.writesLeft]
  rfl

/-- On its way out of a call a failed write stays one, and nothing else becomes one. -/
theorem Stop.attributedTo_eq_writeFailed {stop : Stop} {token : Option Token} :
    stop.attributedTo token = .writeFailed ↔ stop = .writeFailed := by
  cases stop <;> simp [Stop.attributedTo]

theorem Stop.IsPlain.ne_writeFailed {stop : Stop} (h : stop.IsPlain) : stop ≠ .writeFailed := by
  rintro rfl
  exact h

namespace Eval

open Machine

variable {α β : Type}

/-- However the computation ends, the capacity of the output is the same, and it is used up if the
computation ends with a failed write. -/
def Accounted (act : Eval α) : Prop :=
  ∀ m, Ends act m (fun _ m' => m'.capacity = m.capacity)
    (fun stop m' => m'.capacity = m.capacity ∧ (stop = .writeFailed → m'.writesLeft = some 0))

theorem Tidy.accounted {act : Eval α} (h : Tidy act) : Accounted act := by
  intro m
  refine Ends.imp (h m) (fun _ _ hbeside => hbeside.capacity) ?_
  rintro stop m' ⟨hbeside, hplain⟩
  exact ⟨hbeside.capacity, fun hfailed => absurd hfailed hplain.ne_writeFailed⟩

namespace Accounted

theorem pure (a : α) : Accounted (Pure.pure a) :=
  (Tidy.pure a).accounted

theorem throw {stop : Stop} (h : stop ≠ .writeFailed) :
    Accounted (MonadExcept.throw stop : Eval α) :=
  fun _ => ⟨rfl, fun hfailed => absurd hfailed h⟩

theorem bind {act : Eval α} {f : α → Eval β} (h : Accounted act) (hf : ∀ a, Accounted (f a)) :
    Accounted (act >>= f) := by
  intro m
  refine Ends.bind (h m) fun a m' hact => ?_
  refine Ends.imp (hf a m') ?_ ?_
  · intro b m'' hlast
    exact hlast.trans hact
  · rintro stop m'' ⟨hlast, hfailed⟩
    exact ⟨hlast.trans hact, hfailed⟩

/-- The machine is read first. -/
theorem get_bind {f : Machine → Eval β} (hf : ∀ m, Accounted (f m)) :
    Accounted (MonadState.get >>= f) :=
  bind (fun _ => rfl) hf

end Accounted

/-! ## The surroundings of blocks and calls -/

theorem withFrame_accounted {name : Text} {act : Eval α} (h : Accounted act) :
    Accounted (withFrame name act) := by
  intro m
  have hact := h { m with frames := m.frames.push name }
  unfold Ends at hact ⊢
  unfold withFrame
  cases hr : act { m with frames := m.frames.push name } with
  | ok a m' => rw [hr] at hact; exact hact
  | error stop m' => rw [hr] at hact; exact hact

theorem counted_accounted {act : Eval α} (h : Accounted act) : Accounted (counted act) := by
  intro m
  have hact := h { m with depth := m.depth + 1 }
  unfold Ends at hact ⊢
  unfold counted
  cases hr : act { m with depth := m.depth + 1 } with
  | ok a m' => rw [hr] at hact; exact hact
  | error stop m' => rw [hr] at hact; exact hact

theorem attributed_accounted {token : Option Token} {act : Eval α} (h : Accounted act) :
    Accounted (attributed token act) := by
  intro m
  have hact := h m
  unfold Ends at hact ⊢
  unfold attributed
  cases hr : act m with
  | ok a m' => rw [hr] at hact; exact hact
  | error stop m' =>
    rw [hr] at hact
    exact ⟨hact.1, fun hfailed => hact.2 (Stop.attributedTo_eq_writeFailed.mp hfailed)⟩

/-! ## Operations -/

/-- A write takes one of the writes that are left, or it fails as there is none. -/
theorem write_accounted (text : Text) : Accounted (write text) := by
  intro m
  unfold Ends write capacity
  cases hleft : m.writesLeft with
  | none => rfl
  | some n =>
    cases n with
    | zero => exact ⟨by rw [hleft], fun _ => hleft⟩
    | succ n =>
      show some ((m.written.push text).size + n) = some (m.written.size + (n + 1))
      rw [Array.size_push]
      congr 1
      omega

/-! ## The whole evaluator -/

/-- With fuel `n`, the functions of the evaluator are accounted for. -/
structure Accounts (n : Nat) : Prop where
  expr : ∀ e, Accounted (eval n e)
  exprs : ∀ es, Accounted (evalAll n es)
  call : ∀ id args token, Accounted (invoke n id args token)
  code : ∀ f args, Accounted (runFunction n f args)
  construct : ∀ cls args token, Accounted (instantiate n cls args token)
  stmt : ∀ s, Accounted (exec n s)
  stmts : ∀ ss, Accounted (execAll n ss)
  loop : ∀ condition body, Accounted (execLoop n condition body)

variable {n : Nat}

theorem eval_accounted (h : Accounts n) (e : Expr) : Accounted (eval (n + 1) e) := by
  cases e with
  | absent => exact .throw nofun
  | assign name value =>
    exact .bind (h.expr value) fun v => .bind (assign_tidy _ _).accounted fun _ => .pure _
  | binary left operator right =>
    exact .bind (h.expr left) fun l => .bind (h.expr right) fun r =>
      (binaryOp_tidy _ _ _).accounted
  | call callee paren arguments =>
    refine .bind (h.expr callee) fun f => .bind (h.exprs arguments) fun args => ?_
    split
    · exact h.call _ _ _
    · exact h.construct _ _ _
    · exact .throw nofun
  | get object name =>
    refine .bind (h.expr object) fun o => ?_
    split
    · exact .bind (required_tidy _).accounted fun x => (property_tidy _ _ _).accounted
    · exact (unexpected_tidy _ _ _).accounted
  | group inner => exact h.expr inner
  | literal value =>
    unfold eval
    split
    · exact .pure _
    · exact .throw nofun
  | logical left operator right =>
    refine .bind (h.expr left) fun l => .bind (decides_tidy _ _).accounted fun decided => ?_
    split
    · exact .pure _
    · exact h.expr right
  | set object name value =>
    refine .bind (h.expr object) fun o => ?_
    split
    · exact .bind (h.expr value) fun v => .bind (required_tidy _).accounted fun x =>
        .bind (setField_tidy _ _ _).accounted fun _ => .pure _
    · exact (unexpected_tidy _ _ _).accounted
  | superMethod keyword method => exact (superMethod_tidy _ _).accounted
  | receiver keyword => exact (lookup_tidy _ _).accounted
  | unary operator right =>
    exact .bind (h.expr right) fun r => (unaryOp_tidy _ _).accounted
  | name name => exact (lookup_tidy _ _).accounted

theorem evalAll_accounted (h : Accounts n) (es : List Expr) : Accounted (evalAll (n + 1) es) := by
  cases es with
  | nil => exact .pure _
  | cons e rest => exact .bind (h.expr e) fun v => .bind (h.exprs rest) fun vs => .pure _

theorem invoke_accounted (h : Accounts n) (id : FunctionId) (args : List Value)
    (token : Option Token) : Accounted (invoke (n + 1) id args token) := by
  refine .get_bind fun m => ?_
  split
  · exact .throw nofun
  · split
    · exact .throw nofun
    · split
      · exact .throw nofun
      · exact attributed_accounted (counted_accounted (h.code _ _))

/-- Only here is anything written. -/
theorem runFunction_accounted (h : Accounts n) (f : Function) (args : List Value) :
    Accounted (runFunction (n + 1) f args) := by
  unfold runFunction
  split
  · exact .throw nofun
  · exact .get_bind fun m => .bind (write_accounted _) fun _ => .pure _
  · refine .bind (withFrame_accounted ?_) fun flow => ?_
    · exact .bind (defineReceiver_tidy f).accounted fun _ =>
        .bind (defineAll_tidy _ _).accounted fun _ => h.stmts _
    · split <;> exact .pure _
  · exact .throw nofun

theorem instantiate_accounted (h : Accounts n) (cls : ClassId) (args : List Value)
    (token : Option Token) : Accounted (instantiate (n + 1) cls args token) := by
  refine .bind (newInstance_tidy cls).accounted fun id => .get_bind fun m =>
    .bind (boundMethod_tidy _ _).accounted fun f => ?_
  split
  · exact .bind (h.call _ _ _) fun _ => .pure _
  · exact .pure _

theorem exec_accounted (h : Accounts n) (s : Stmt) : Accounted (exec (n + 1) s) := by
  cases s with
  | absent => exact .throw nofun
  | block body => exact withFrame_accounted (h.stmts body)
  | classDecl name superclass methods =>
    exact .bind (declareClass_tidy _ _ _).accounted fun _ => .pure _
  | expr e => exact .bind (h.expr e) fun _ => .pure _
  | funDecl decl =>
    exact .bind (newFunction_tidy _).accounted fun id =>
      .bind (define_tidy _ _).accounted fun _ => .pure _
  | choice condition yes no =>
    refine .bind (h.expr condition) fun c => ?_
    split
    · exact h.stmt yes
    · split
      · exact .pure _
      · exact h.stmt no
  | ret keyword value =>
    unfold exec
    split
    · exact .pure _
    · exact .bind (h.expr value) fun v => .pure _
  | varDecl name initial =>
    refine .bind ?_ fun v => .bind (define_tidy _ _).accounted fun _ => .pure _
    split
    · exact .pure _
    · exact h.expr initial
  | loop condition body => exact h.loop condition body

theorem execAll_accounted (h : Accounts n) (ss : List Stmt) : Accounted (execAll (n + 1) ss) := by
  cases ss with
  | nil => exact .pure _
  | cons s rest =>
    refine .bind (h.stmt s) fun flow => ?_
    split
    · exact h.stmts rest
    · exact .pure _

theorem execLoop_accounted (h : Accounts n) (condition : Expr) (body : Stmt) :
    Accounted (execLoop (n + 1) condition body) := by
  refine .bind (h.expr condition) fun c => ?_
  split
  · refine .bind (h.stmt body) fun flow => ?_
    split
    · exact h.loop condition body
    · exact .pure _
  · exact .pure _

theorem accounts_zero : Accounts 0 where
  expr _ := .throw nofun
  exprs _ := .throw nofun
  call _ _ _ := .throw nofun
  code _ _ := .throw nofun
  construct _ _ _ := .throw nofun
  stmt _ := .throw nofun
  stmts _ := .throw nofun
  loop _ _ := .throw nofun

theorem accounts (n : Nat) : Accounts n := by
  induction n with
  | zero => exact accounts_zero
  | succ n ih =>
    exact ⟨eval_accounted ih, evalAll_accounted ih, invoke_accounted ih, runFunction_accounted ih,
      instantiate_accounted ih, exec_accounted ih, execAll_accounted ih, execLoop_accounted ih⟩

theorem interpret_accounted (fuel : Nat) (program : List Stmt) (last : Held) :
    Accounted (interpret fuel program last) := by
  induction program generalizing last with
  | nil => exact .pure _
  | cons s rest ih =>
    unfold interpret
    split
    · exact .bind ((accounts fuel).expr _) fun v => ih _
    · refine .bind ((accounts fuel).stmt _) fun flow => ?_
      split
      · exact ih last
      · exact .pure _

end Eval

namespace Machine

variable {fuel : Nat} {m m' : Machine} {report : Report}

/-- A run keeps the capacity of the output, and it is used up if the run ends with a failed
write. -/
theorem interpretWith_accounted {program : List Stmt} {diagnostics : List ParseError}
    (h : m.interpretWith fuel program diagnostics = (report, m')) : m'.capacity = m.capacity ∧
      (report.error = some (.stop .writeFailed) → m'.writesLeft = some 0) := by
  have hend := Eval.interpret_accounted fuel (m.load program).1 none (m.load program).2
  unfold Ends at hend
  unfold interpretWith at h
  simp only at h
  split at h
  next value m'' hr =>
    rw [hr] at hend
    obtain ⟨rfl, rfl⟩ := Prod.mk.inj h
    exact ⟨hend, nofun⟩
  next stop m'' hr =>
    rw [hr] at hend
    obtain ⟨rfl, rfl⟩ := Prod.mk.inj h
    refine ⟨hend.1, fun hfailed => hend.2 ?_⟩
    injection hfailed with hfailed
    injection hfailed

/-- A source is run with a failed write only if the output takes so many writes as were made. -/
theorem written_of_writeFailed {source : Text} (h : m.runWith fuel source = (report, m'))
    (hfailed : report.error = some (.stop .writeFailed)) : m.capacity = some m'.written.size := by
  rcases runWith_cases fuel m source with ⟨report', hr, hstop⟩ | hr
  · rw [hr] at h
    obtain ⟨rfl, rfl⟩ := Prod.mk.inj h
    exact absurd hfailed (hstop _)
  · rw [hr] at h
    obtain ⟨hcapacity, hleft⟩ := interpretWith_accounted h
    rw [← hcapacity, capacity, hleft hfailed]
    rfl

end Machine

end Dynascope
