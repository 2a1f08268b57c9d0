import Dynascope.Eval.Basic
import Dynascope.Proofs.Outcome
import Dynascope.Proofs.Scope.Padded

/-!
# An empty frame goes unnoticed

Scope is dynamic, so every function that is called looks through the frames of its callers. An empty
frame among them makes no difference, however deep the calls go.

* `Machine.Padded name k m m'`: the machines differ in one more empty frame below the `k` topmost
  ones.
* `Unnoticed name k act`: on such machines, `act` ends in the same way, and the empty frame is still
  there and still empty. The rules follow the structure of a computation.
* `Stmt.plain`: statements that declare nothing in the frame in which they are executed.
* `Eval.Blind n`: with fuel `n`, no part of the evaluator notices the frame; plain statements do not
  even if it is the current one. `Eval.blind` is the induction on the fuel.
* `Eval.exec_block`: a block of plain statements needs no frame.
-/

namespace Dynascope

/-- Machines that differ in one more empty frame, below the `k` topmost frames of the second. -/
inductive Machine.Padded (name : Text) (k : Nat) (m : Machine) : Machine → Prop where
  | mk {frames : Frames Value} (h : m.frames.Padded name k frames) :
    Padded name k m { m with frames := frames }

variable {α β : Type} {name : Text} {k : Nat}

/-- Two computations ended in the same way, and the empty frame is still there. -/
inductive PaddedEnd (name : Text) (k : Nat) :
    EStateM.Result Stop Machine α → EStateM.Result Stop Machine α → Prop where
  | ok {a : α} {m m' : Machine} (h : m.Padded name k m') : PaddedEnd name k (.ok a m) (.ok a m')
  | error {stop : Stop} {m m' : Machine} (h : m.Padded name k m') :
    PaddedEnd name k (.error stop m) (.error stop m')

/-- On machines that differ in one more empty frame, a computation ends in the same way. -/
def Unnoticed (name : Text) (k : Nat) (act : Eval α) : Prop :=
  ∀ m m', m.Padded name k m' → PaddedEnd name k (act m) (act m')

namespace Unnoticed

theorem pure (a : α) : Unnoticed name k (Pure.pure a) :=
  fun _ _ h => .ok h

theorem throw (stop : Stop) : Unnoticed name k (MonadExcept.throw stop : Eval α) :=
  fun _ _ h => .error h

theorem fail (fault : Fault) (token : Option Token) :
    Unnoticed name k (Eval.fail fault token : Eval α) :=
  throw _

theorem required (x : Option α) : Unnoticed name k (Eval.required x) := by
  cases x with
  | none => exact throw _
  | some a => exact pure a

variable {act : Eval α}

theorem bind {f : α → Eval β} (h : Unnoticed name k act) (hf : ∀ a, Unnoticed name k (f a)) :
    Unnoticed name k (act >>= f) := by
  intro m m' hm
  have hact := h m m' hm
  generalize hr : act m = r at hact
  generalize hr' : act m' = r' at hact
  cases hact with
  | ok hnext =>
    rw [ok_bind hr, ok_bind hr']
    exact hf _ _ _ hnext
  | error hnext =>
    rw [error_bind hr, error_bind hr']
    exact .error hnext

/-- The machine is read first, and what is read does not depend on the empty frame. -/
theorem get_bind {f : Machine → Eval β}
    (hsame : ∀ (m : Machine) (frames : Frames Value), m.frames.Padded name k frames →
      f { m with frames := frames } = f m)
    (hf : ∀ m, Unnoticed name k (f m)) : Unnoticed name k (MonadState.get >>= f) := by
  intro m m' hm
  obtain ⟨hframes⟩ := hm
  show PaddedEnd name k (f m m) (f { m with frames := _ } _)
  rw [hsame m _ hframes]
  exact hf m m _ (.mk hframes)

theorem ite {b : Prop} [Decidable b] {yes no : Eval α} (hyes : Unnoticed name k yes)
    (hno : Unnoticed name k no) : Unnoticed name k (if b then yes else no) := by
  split
  · exact hyes
  · exact hno

/-- In a frame of its own, a computation has one more frame above the empty one. -/
theorem withFrame (x : Text) (h : Unnoticed name (k + 1) act) :
    Unnoticed name k (Eval.withFrame x act) := by
  intro m m' hm
  obtain ⟨hframes⟩ := hm
  have hact := h { m with frames := m.frames.push x } _ (.mk (hframes.push x))
  unfold Eval.withFrame
  dsimp only at hact ⊢
  generalize act { m with frames := m.frames.push x } = r at hact ⊢
  generalize act _ = r' at hact ⊢
  cases hact with
  | ok hnext =>
    obtain ⟨hframes⟩ := hnext
    exact .ok (.mk hframes.pop)
  | error hnext =>
    obtain ⟨hframes⟩ := hnext
    exact .error (.mk hframes.pop)

theorem counted (h : Unnoticed name k act) : Unnoticed name k (Eval.counted act) := by
  intro m m' hm
  obtain ⟨hframes⟩ := hm
  have hact := h { m with depth := m.depth + 1 } _ (.mk hframes)
  unfold Eval.counted
  dsimp only at hact ⊢
  generalize act { m with depth := m.depth + 1 } = r at hact ⊢
  generalize act _ = r' at hact ⊢
  cases hact with
  | ok hnext =>
    obtain ⟨hframes⟩ := hnext
    exact .ok (.mk hframes)
  | error hnext =>
    obtain ⟨hframes⟩ := hnext
    exact .error (.mk hframes)

theorem attributed (token : Option Token) (h : Unnoticed name k act) :
    Unnoticed name k (Eval.attributed token act) := by
  intro m m' hm
  have hact := h m m' hm
  unfold Eval.attributed
  generalize act m = r at hact
  generalize act m' = r' at hact
  cases hact with
  | ok hnext => exact .ok hnext
  | error hnext => exact .error hnext

end Unnoticed

/-! ## The operations of the machine -/

namespace Eval

theorem lookup_unnoticed (x : Text) (token : Option Token) : Unnoticed name k (lookup x token) := by
  refine .get_bind (fun m frames h => by rw [h.get?]) fun m => ?_
  split
  · exact .pure _
  · exact .fail _ _

theorem assign_unnoticed (x : Token) (value : Value) : Unnoticed name k (assign x value) := by
  intro m m' hm
  obtain ⟨hframes⟩ := hm
  have hassign := hframes.assign? x.lexeme value
  unfold assign
  dsimp only
  generalize m.frames.assign? x.lexeme value = r at hassign
  generalize Frames.assign? _ x.lexeme value = r' at hassign
  cases hassign with
  | none => exact .error (.mk hframes)
  | some h => exact .ok (.mk h)

/-- Only a definition could notice the empty frame, if it were the current one. -/
theorem define_unnoticed (x : Text) (value : Value) : Unnoticed name (k + 1) (define x value) := by
  intro m m' hm
  obtain ⟨hframes⟩ := hm
  have hdefine := hframes.define? x value
  unfold define
  dsimp only
  generalize m.frames.define? x value = r at hdefine
  generalize Frames.define? _ x value = r' at hdefine
  cases hdefine with
  | none => exact .error (.mk hframes)
  | some h => exact .ok (.mk h)

theorem defineAll_unnoticed (names : List Text) (values : List Value) :
    Unnoticed name (k + 1) (defineAll names values) := by
  induction names generalizing values with
  | nil => exact .pure _
  | cons x names ih =>
    cases values with
    | nil => exact .throw _
    | cons value values => exact .bind (define_unnoticed x value) fun _ => ih values

theorem newFunction_unnoticed (f : Function) : Unnoticed name k (newFunction f) := by
  intro m m' hm
  obtain ⟨hframes⟩ := hm
  exact .ok (.mk hframes)

theorem newInstance_unnoticed (cls : ClassId) : Unnoticed name k (newInstance cls) := by
  intro m m' hm
  obtain ⟨hframes⟩ := hm
  exact .ok (.mk hframes)

theorem newClass_unnoticed (x : Text) (superclass : Option ClassId) (methods : List FunDecl) :
    Unnoticed name k (newClass x superclass methods) := by
  intro m m' hm
  obtain ⟨hframes⟩ := hm
  exact .ok (.mk hframes)

theorem boundMethod_unnoticed (method : Option FunctionId) (id : InstanceId) :
    Unnoticed name k (boundMethod method id) := by
  refine .get_bind (fun _ _ _ => rfl) fun m => ?_
  split
  · exact .bind (newFunction_unnoticed _) fun _ => .pure _
  · exact .pure _

theorem property_unnoticed (id : InstanceId) (cls : Option ClassId) (x : Text) :
    Unnoticed name k (property id cls x) := by
  refine .get_bind (fun _ _ _ => rfl) fun m => ?_
  split
  · exact .pure _
  · exact boundMethod_unnoticed _ _

theorem setField_unnoticed (id : InstanceId) (x : Token) (value : Value) :
    Unnoticed name k (setField id x value) := by
  intro m m' hm
  obtain ⟨hframes⟩ := hm
  unfold setField
  dsimp only
  split
  · exact .ok (.mk hframes)
  · exact .error (.mk hframes)
  · exact .error (.mk hframes)

theorem write_unnoticed (text : Text) : Unnoticed name k (write text) := by
  intro m m' hm
  obtain ⟨hframes⟩ := hm
  unfold write
  dsimp only
  split
  · exact .ok (.mk hframes)
  · exact .error (.mk hframes)
  · exact .ok (.mk hframes)

theorem number_unnoticed (operator : Token) (value : Value) :
    Unnoticed name k (number operator value) := by
  unfold number
  split
  · exact .pure _
  · exact .throw _

theorem unaryOp_unnoticed (operator : Token) (right : Value) :
    Unnoticed name k (unaryOp operator right) := by
  unfold unaryOp
  split
  · exact .pure _
  · exact .bind (number_unnoticed _ _) fun _ => .pure _
  · exact .throw _

theorem numericOp_unnoticed (operator : Token) (left right : Value) :
    Unnoticed name k (numericOp operator left right) := by
  refine .bind (number_unnoticed _ _) fun x => .bind (number_unnoticed _ _) fun y => ?_
  split
  · exact .ite (.throw _) (.pure _)
  · split
    · exact .pure _
    · exact .throw _

theorem binaryOp_unnoticed (operator : Token) (left right : Value) :
    Unnoticed name k (binaryOp operator left right) := by
  refine .get_bind (fun _ _ _ => rfl) fun m => ?_
  split
  · exact .pure _
  · exact .pure _
  · exact .ite (.pure _) (numericOp_unnoticed _ _ _)
  · exact numericOp_unnoticed _ _ _

theorem decides_unnoticed (operator : Token) (left : Value) :
    Unnoticed name k (decides operator left) := by
  unfold decides
  split
  · exact .pure _
  · exact .pure _
  · exact .throw _

theorem superMethod_unnoticed (keyword : Option Token) (method : Token) :
    Unnoticed name k (superMethod keyword method) := by
  refine .bind (lookup_unnoticed _ _) fun s => ?_
  split
  · refine .bind (lookup_unnoticed _ _) fun t => ?_
    split
    · exact .get_bind (fun _ _ _ => rfl) fun m => boundMethod_unnoticed _ _
    · exact .throw _
  · exact .throw _

theorem defineReceiver_unnoticed (f : Function) : Unnoticed name (k + 1) (defineReceiver f) := by
  refine .ite (.get_bind (fun _ _ _ => rfl) fun m => ?_) (.pure _)
  split
  · exact .fail _ _
  · refine .bind (define_unnoticed _ _) fun _ => ?_
    split
    · exact define_unnoticed _ _
    · exact .pure _

theorem declareClass_unnoticed (x : Token) (superclass : Option Token)
    (methods : List (Option FunDecl)) :
    Unnoticed name (k + 1) (declareClass x superclass methods) := by
  refine .bind (define_unnoticed _ _) fun _ => .bind ?_ fun parent =>
    .bind (.required _) fun declared => .bind (newClass_unnoticed _ _ _) fun id =>
      assign_unnoticed _ _
  split
  · exact .pure _
  · refine .bind (lookup_unnoticed _ _) fun v => ?_
    split
    · exact .pure _
    · exact .throw _

end Eval

/-! ## The whole evaluator -/

/-- Whether a statement declares nothing in the frame in which it is executed: no declaration is
reached except inside a block of its own. -/
def Stmt.plain : Stmt → Bool
  | .classDecl .. | .funDecl _ | .varDecl .. => false
  | .choice _ yes no => yes.plain && no.plain
  | .loop _ body => body.plain
  | _ => true

/-- Whether statements may be executed while an empty frame has `k` frames above it: if it is the
current one, they have to be plain. -/
def Clear (k : Nat) (ss : List Stmt) : Prop :=
  0 < k ∨ ∀ s ∈ ss, s.plain = true

/-- A declaration is executed with another frame above the empty one. -/
theorem Clear.succ_of_declares {s : Stmt} (h : Clear k [s]) (hs : s.plain = false) :
    ∃ j, k = j + 1 := by
  rcases h with h | h
  · exact ⟨k - 1, by omega⟩
  · rw [h s (List.mem_singleton_self s)] at hs
    cases hs

namespace Eval

/-- With fuel `n`, the evaluator does not notice an empty frame. Statements do not if it is not the
current frame, or if they are plain. -/
structure Blind (name : Text) (n : Nat) : Prop where
  expr : ∀ k e, Unnoticed name k (eval n e)
  exprs : ∀ k es, Unnoticed name k (evalAll n es)
  call : ∀ k id args token, Unnoticed name k (invoke n id args token)
  code : ∀ k f args, Unnoticed name k (runFunction n f args)
  construct : ∀ k cls args token, Unnoticed name k (instantiate n cls args token)
  stmt : ∀ {k s}, Clear k [s] → Unnoticed name k (exec n s)
  stmts : ∀ {k ss}, Clear k ss → Unnoticed name k (execAll n ss)
  loop : ∀ {k body} condition, Clear k [body] →
    Unnoticed name k (execLoop n condition body)

variable {n : Nat}

theorem eval_unnoticed (h : Blind name n) (k : Nat) (e : Expr) :
    Unnoticed name k (eval (n + 1) e) := by
  cases e with
  | absent => exact .fail _ _
  | assign x value =>
    exact .bind (h.expr k value) fun v => .bind (assign_unnoticed _ _) fun _ => .pure _
  | binary left operator right =>
    exact .bind (h.expr k left) fun l => .bind (h.expr k right) fun r => binaryOp_unnoticed _ _ _
  | call callee paren arguments =>
    refine .bind (h.expr k callee) fun f => .bind (h.exprs k arguments) fun args => ?_
    split
    · exact h.call k _ _ _
    · exact h.construct k _ _ _
    · exact .fail _ _
  | get object x =>
    refine .bind (h.expr k object) fun o => ?_
    split
    · exact .bind (.required _) fun _ => property_unnoticed _ _ _
    · exact .throw _
  | group inner => exact h.expr k inner
  | literal value =>
    unfold eval
    split
    · exact .pure _
    · exact .fail _ _
  | logical left operator right =>
    refine .bind (h.expr k left) fun l => .bind (decides_unnoticed _ _) fun decided => ?_
    exact .ite (.pure _) (h.expr k right)
  | set object x value =>
    refine .bind (h.expr k object) fun o => ?_
    split
    · exact .bind (h.expr k value) fun v => .bind (.required _) fun _ =>
        .bind (setField_unnoticed _ _ _) fun _ => .pure _
    · exact .throw _
  | superMethod keyword method => exact superMethod_unnoticed _ _
  | receiver keyword => exact lookup_unnoticed _ _
  | unary operator right => exact .bind (h.expr k right) fun r => unaryOp_unnoticed _ _
  | name x => exact lookup_unnoticed _ _

theorem evalAll_unnoticed (h : Blind name n) (k : Nat) (es : List Expr) :
    Unnoticed name k (evalAll (n + 1) es) := by
  cases es with
  | nil => exact .pure _
  | cons e rest => exact .bind (h.expr k e) fun v => .bind (h.exprs k rest) fun vs => .pure _

theorem invoke_unnoticed (h : Blind name n) (k : Nat) (id : FunctionId) (args : List Value)
    (token : Option Token) : Unnoticed name k (invoke (n + 1) id args token) := by
  refine .get_bind (fun _ _ _ => rfl) fun m => ?_
  split
  · exact .fail _ _
  · exact .ite (.fail _ _) (.ite (.fail _ _) (.attributed token (.counted (h.code k _ args))))

/-- The body of a function is executed above the empty frame, whatever it declares. -/
theorem runFunction_unnoticed (h : Blind name n) (k : Nat) (f : Function) (args : List Value) :
    Unnoticed name k (runFunction (n + 1) f args) := by
  unfold runFunction
  split
  · exact .throw _
  · exact .get_bind (fun _ _ _ => rfl) fun m => .bind (write_unnoticed _) fun _ => .pure _
  · refine .bind (.withFrame _ (.bind (defineReceiver_unnoticed f) fun _ =>
      .bind (defineAll_unnoticed _ _) fun _ => h.stmts (.inl (Nat.succ_pos k)))) fun flow => ?_
    split
    · exact .pure _
    · exact .pure _
  · exact .fail _ _

theorem instantiate_unnoticed (h : Blind name n) (k : Nat) (cls : ClassId) (args : List Value)
    (token : Option Token) : Unnoticed name k (instantiate (n + 1) cls args token) := by
  refine .bind (newInstance_unnoticed cls) fun id => .get_bind (fun _ _ _ => rfl) fun m =>
    .bind (boundMethod_unnoticed _ _) fun v => ?_
  split
  · exact .bind (h.call k _ _ _) fun _ => .pure _
  · exact .pure _

theorem exec_unnoticed (h : Blind name n) {s : Stmt} (hs : Clear k [s]) :
    Unnoticed name k (exec (n + 1) s) := by
  cases s with
  | absent => exact .fail _ _
  | block body => exact .withFrame _ (h.stmts (.inl (Nat.succ_pos k)))
  | classDecl x superclass methods =>
    obtain ⟨j, rfl⟩ := hs.succ_of_declares rfl
    exact .bind (declareClass_unnoticed _ _ _) fun _ => .pure _
  | expr e => exact .bind (h.expr k e) fun _ => .pure _
  | funDecl decl =>
    obtain ⟨j, rfl⟩ := hs.succ_of_declares rfl
    exact .bind (newFunction_unnoticed _) fun id => .bind (define_unnoticed _ _) fun _ => .pure _
  | choice condition yes no =>
    have hyes : Clear k [yes] := hs.imp_right (by simp +contextual [Stmt.plain])
    have hno : Clear k [no] := hs.imp_right (by simp +contextual [Stmt.plain])
    refine .bind (h.expr k condition) fun c => .ite (h.stmt hyes) ?_
    split
    · exact .pure _
    · exact h.stmt hno
  | ret keyword value =>
    unfold exec
    split
    · exact .pure _
    · exact .bind (h.expr k _) fun v => .pure _
  | varDecl x initial =>
    obtain ⟨j, rfl⟩ := hs.succ_of_declares rfl
    refine .bind ?_ fun v => .bind (define_unnoticed _ _) fun _ => .pure _
    split
    · exact .pure _
    · exact h.expr (j + 1) _
  | loop condition body => exact h.loop condition (hs.imp_right (by simp [Stmt.plain]))

theorem execAll_unnoticed (h : Blind name n) {ss : List Stmt} (hss : Clear k ss) :
    Unnoticed name k (execAll (n + 1) ss) := by
  cases ss with
  | nil => exact .pure _
  | cons s rest =>
    have hs : Clear k [s] := hss.imp_right (by simp +contextual)
    have hrest : Clear k rest := hss.imp_right (by simp +contextual)
    refine .bind (h.stmt hs) fun flow => ?_
    split
    · exact h.stmts hrest
    · exact .pure _

theorem execLoop_unnoticed (h : Blind name n) (condition : Expr) {body : Stmt}
    (hbody : Clear k [body]) : Unnoticed name k (execLoop (n + 1) condition body) := by
  refine .bind (h.expr k condition) fun c => .ite (.bind (h.stmt hbody) fun flow => ?_) (.pure _)
  split
  · exact h.loop condition hbody
  · exact .pure _

/-- **An empty frame goes unnoticed** by the evaluator, with every amount of fuel. -/
theorem blind (name : Text) (n : Nat) : Blind name n := by
  induction n with
  | zero =>
    exact ⟨fun _ _ => .throw _, fun _ _ => .throw _, fun _ _ _ _ => .throw _,
      fun _ _ _ => .throw _, fun _ _ _ _ => .throw _, fun _ => .throw _, fun _ => .throw _,
      fun _ _ => .throw _⟩
  | succ n ih =>
    exact ⟨eval_unnoticed ih, evalAll_unnoticed ih, invoke_unnoticed ih, runFunction_unnoticed ih,
      instantiate_unnoticed ih, exec_unnoticed ih, execAll_unnoticed ih,
      fun condition hbody => execLoop_unnoticed ih condition hbody⟩

/-! ## Blocks without declarations -/

/-- A computation that does not notice an empty current frame may do without it. -/
theorem withFrame_of_unnoticed {act : Eval α} (h : Unnoticed name 0 act) :
    withFrame name act = act := by
  funext m
  have hact := h m { m with frames := m.frames.push name } (.mk (.here m.frames))
  unfold withFrame
  generalize act m = r at hact
  generalize act _ = r' at hact
  cases hact with
  | ok hm =>
    obtain ⟨hframes⟩ := hm
    dsimp only
    rw [hframes.eq_push]
    rfl
  | error hm =>
    obtain ⟨hframes⟩ := hm
    dsimp only
    rw [hframes.eq_push]
    rfl

/-- **Blocks without declarations.** A block of plain statements does what the statements do without
a frame of their own. -/
theorem exec_block {ss : List Stmt} (h : ∀ s ∈ ss, s.plain = true) (n : Nat) :
    exec (n + 1) (.block ss) = execAll n ss :=
  withFrame_of_unnoticed ((blind "block" n).stmts (.inr h))

end Eval

end Dynascope
