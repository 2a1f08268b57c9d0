import Dynascope.Eval.Run
import Dynascope.Proofs.Eval.History
import Dynascope.Proofs.Scope.Shape

/-!
# Frames and calls are balanced

However evaluation ends, the frames it put on top are off again and the calls it counted are
uncounted.

* `Machine.Kept m m'`: the frames have the same names and define the same names, in the same order,
  and the same number of calls is active.
* `Machine.KeptBelow m m'`: the same, but the current frame may define more names.
* `Eval.Balanced n`: with fuel `n`, expressions and calls keep all frames, statements keep all but
  the current one. `Eval.balanced` is the induction on the fuel.
* `Machine.frames_balanced`: the whole statement, with what it means for histories: between two
  turns only the global frame is there and no call is active.
-/

namespace Dynascope

namespace Machine

/-- The frames and the names in them are the same, and so is the number of active calls. -/
structure Kept (m m' : Machine) : Prop where
  shape : m'.frames.shape = m.frames.shape
  depth : m'.depth = m.depth

/-- The frames are the same, and so are the names in all but the current one, which may define
more names. The number of active calls is the same. -/
structure KeptBelow (m m' : Machine) : Prop where
  name : m'.frames.current.name = m.frames.current.name
  names : m.frames.current.vars.names ⊆ m'.frames.current.vars.names
  below : m'.frames.shape.tail = m.frames.shape.tail
  depth : m'.depth = m.depth

instance : Std.Refl Kept := ⟨fun _ => ⟨rfl, rfl⟩⟩

instance : Std.Refl KeptBelow := ⟨fun _ => ⟨rfl, List.Subset.refl _, rfl, rfl⟩⟩

instance : Trans Kept Kept Kept :=
  ⟨fun h k => ⟨k.shape.trans h.shape, k.depth.trans h.depth⟩⟩

instance : Trans KeptBelow KeptBelow KeptBelow :=
  ⟨fun h k => ⟨k.name.trans h.name, List.Subset.trans h.names k.names, k.below.trans h.below,
    k.depth.trans h.depth⟩⟩

/-- A change that leaves frames and calls alone. -/
theorem Kept.of_eq {m m' : Machine} (hf : m'.frames = m.frames) (hd : m'.depth = m.depth) :
    Kept m m' :=
  ⟨by rw [hf], hd⟩

theorem Kept.below {m m' : Machine} (h : Kept m m') : KeptBelow m m' := by
  have hs := h.shape
  rw [Frames.shape_eq_cons, Frames.shape_eq_cons m.frames] at hs
  obtain ⟨hc, ht⟩ := List.cons.inj hs
  obtain ⟨hn, hv⟩ := Prod.mk.inj hc
  exact ⟨hn, by rw [hv]; exact List.Subset.refl _, ht, h.depth⟩

end Machine

namespace Eval

open Machine

variable {α : Type}

theorem Kept.along_below {act : Eval α} (h : Along Kept act) : Along KeptBelow act :=
  h.mono fun _ _ => Kept.below

/-! ## What surrounds blocks and calls -/

/-- The frame of a block or call is off again when it ends. -/
theorem withFrame_kept {name : Text} {act : Eval α} (h : Along KeptBelow act) :
    Along Kept (withFrame name act) := by
  intro m
  have hk := h { m with frames := m.frames.push name }
  -- The frames below the new one are those of `m`, so one frame can be taken off.
  have hpop : ∀ m', KeptBelow { m with frames := m.frames.push name } m' →
      Kept m { m' with frames := m'.frames.pop } := by
    intro m' hm
    have ht : m'.frames.shape.tail = m.frames.shape := by simpa using hm.below
    have hd : 1 < m'.frames.depth := by
      have hl := congrArg List.length ht
      rw [List.length_tail, Frames.length_shape, Frames.length_shape] at hl
      have : 0 < m.frames.depth := Nat.succ_pos _
      omega
    exact ⟨by rw [← ht]; exact Frames.shape_pop hd, hm.depth⟩
  unfold withFrame
  split
  next a m' hr => rw [hr] at hk; exact hpop m' hk
  next e m' hr => rw [hr] at hk; exact hpop m' hk

/-- A call is uncounted when it ends. -/
theorem counted_kept {act : Eval α} (h : Along Kept act) : Along Kept (counted act) := by
  intro m
  have hk := h { m with depth := m.depth + 1 }
  have hback : ∀ m', Kept { m with depth := m.depth + 1 } m' →
      Kept m { m' with depth := m'.depth - 1 } := by
    intro m' hm
    have hd : m'.depth = m.depth + 1 := hm.depth
    exact ⟨hm.shape, by simp [hd]⟩
  unfold counted
  split
  next a m' hr => rw [hr] at hk; exact hback m' hk
  next e m' hr => rw [hr] at hk; exact hback m' hk

theorem attributed_kept {token : Option Token} {act : Eval α} (h : Along Kept act) :
    Along Kept (attributed token act) := by
  intro m
  have hk := h m
  unfold attributed
  split
  next a m' hr => rw [hr] at hk; exact hk
  next e m' hr => rw [hr] at hk; exact hk

/-! ## The steps of evaluation -/

theorem fail_kept (fault : Fault) (token : Option Token) :
    Along Kept (fail fault token : Eval α) :=
  Along.throw _

theorem unexpected_kept (value : Value) (expected : ValueKind) (token : Option Token) :
    Along Kept (unexpected value expected token : Eval α) :=
  Along.throw _

theorem required_kept (x : Option α) : Along Kept (required x) := by
  cases x with
  | none => exact Along.throw _
  | some a => exact Along.pure a

theorem lookup_kept (name : Text) (token : Option Token) : Along Kept (lookup name token) := by
  refine Along.get_bind fun m => ?_
  split
  · exact Along.pure _
  · exact fail_kept _ _

theorem assign_kept (name : Token) (value : Value) : Along Kept (assign name value) := by
  intro m
  unfold assign
  split
  next frames h => exact ⟨Frames.shape_assign? h, rfl⟩
  next => exact Std.Refl.refl m

/-- A definition is the only step that adds a name, and it does so in the current frame. -/
theorem define_kept (name : Text) (value : Value) : Along KeptBelow (define name value) := by
  intro m
  unfold define
  split
  next frames h =>
    obtain ⟨hc, ht⟩ := Frames.shape_define? h
    have hn : frames.current.name = m.frames.current.name := by rw [hc]; rfl
    have hv : m.frames.current.vars.names ⊆ frames.current.vars.names := by
      rw [hc]
      exact fun n hn => Bindings.mem_names_set.mpr (.inr hn)
    exact ⟨hn, hv, ht, rfl⟩
  next => exact Std.Refl.refl m

theorem defineAll_kept (names : List Text) (values : List Value) :
    Along KeptBelow (defineAll names values) := by
  induction names generalizing values with
  | nil => exact Along.pure _
  | cons name names ih =>
    cases values with
    | nil => exact Along.throw _
    | cons value values => exact Along.bind (define_kept name value) fun _ => ih values

theorem newFunction_kept (f : Function) : Along Kept (newFunction f) :=
  fun _ => Kept.of_eq rfl rfl

theorem newInstance_kept (cls : ClassId) : Along Kept (newInstance cls) :=
  fun _ => Kept.of_eq rfl rfl

theorem newClass_kept (name : Text) (superclass : Option ClassId) (methods : List FunDecl) :
    Along Kept (newClass name superclass methods) :=
  fun _ => Kept.of_eq rfl rfl

theorem boundMethod_kept (method : Option FunctionId) (id : InstanceId) :
    Along Kept (boundMethod method id) := by
  refine Along.get_bind fun m => ?_
  split
  · exact Along.bind (newFunction_kept _) fun _ => Along.pure _
  · exact Along.pure _

theorem property_kept (id : InstanceId) (cls : Option ClassId) (name : Text) :
    Along Kept (property id cls name) := by
  refine Along.get_bind fun m => ?_
  split
  · exact Along.pure _
  · exact boundMethod_kept _ _

theorem setField_kept (id : InstanceId) (name : Token) (value : Value) :
    Along Kept (setField id name value) := by
  intro m
  unfold setField
  split <;> exact Kept.of_eq rfl rfl

theorem write_kept (text : Text) : Along Kept (write text) := by
  intro m
  unfold write
  split <;> exact Kept.of_eq rfl rfl

/-! ## Operators and declarations -/

theorem number_kept (operator : Token) (value : Value) : Along Kept (number operator value) := by
  unfold number
  split
  · exact Along.pure _
  · exact unexpected_kept _ _ _

theorem unaryOp_kept (operator : Token) (right : Value) :
    Along Kept (unaryOp operator right) := by
  unfold unaryOp
  split
  · exact Along.pure _
  · exact Along.bind (number_kept _ _) fun _ => Along.pure _
  · exact fail_kept _ _

theorem numericOp_kept (operator : Token) (left right : Value) :
    Along Kept (numericOp operator left right) := by
  refine Along.bind (number_kept _ _) fun x => Along.bind (number_kept _ _) fun y => ?_
  split
  · split
    · exact fail_kept _ _
    · exact Along.pure _
  · split
    · exact Along.pure _
    · exact fail_kept _ _

theorem binaryOp_kept (operator : Token) (left right : Value) :
    Along Kept (binaryOp operator left right) := by
  refine Along.get_bind fun m => ?_
  split
  · exact Along.pure _
  · exact Along.pure _
  · split
    · exact Along.pure _
    · exact numericOp_kept _ _ _
  · exact numericOp_kept _ _ _

theorem decides_kept (operator : Token) (left : Value) : Along Kept (decides operator left) := by
  unfold decides
  split
  · exact Along.pure _
  · exact Along.pure _
  · exact fail_kept _ _

theorem superMethod_kept (keyword : Option Token) (method : Token) :
    Along Kept (superMethod keyword method) := by
  refine Along.bind (lookup_kept _ _) fun s => ?_
  split
  · refine Along.bind (lookup_kept _ _) fun t => ?_
    split
    · exact Along.get_bind fun _ => boundMethod_kept _ _
    · exact unexpected_kept _ _ _
  · exact unexpected_kept _ _ _

theorem defineReceiver_kept (f : Function) : Along KeptBelow (defineReceiver f) := by
  unfold defineReceiver
  split
  · refine Along.get_bind fun m => ?_
    split
    · exact Kept.along_below (fail_kept _ _)
    · refine Along.bind (define_kept _ _) fun _ => ?_
      split
      · exact define_kept _ _
      · exact Along.pure _
  · exact Along.pure _

/-- A class declaration defines its name in the current frame and nothing else. -/
theorem declareClass_kept (name : Token) (superclass : Option Token)
    (methods : List (Option FunDecl)) : Along KeptBelow (declareClass name superclass methods) := by
  refine Along.bind (define_kept _ _) fun _ => Along.bind ?_ fun parent => ?_
  · apply Kept.along_below
    split
    · exact Along.pure _
    · refine Along.bind (lookup_kept _ _) fun v => ?_
      split
      · exact Along.pure _
      · exact unexpected_kept _ _ _
  · exact Kept.along_below (Along.bind (required_kept _) fun _ =>
      Along.bind (newClass_kept _ _ _) fun _ => assign_kept _ _)

/-! ## The whole evaluator -/

/-- With fuel `n`, expressions and calls keep all frames, and statements keep all frames but the
current one. -/
structure Balanced (n : Nat) : Prop where
  expr : ∀ e, Along Kept (eval n e)
  exprs : ∀ es, Along Kept (evalAll n es)
  call : ∀ id args token, Along Kept (invoke n id args token)
  code : ∀ f args, Along Kept (runFunction n f args)
  construct : ∀ cls args token, Along Kept (instantiate n cls args token)
  stmt : ∀ s, Along KeptBelow (exec n s)
  stmts : ∀ ss, Along KeptBelow (execAll n ss)
  loop : ∀ condition body, Along KeptBelow (execLoop n condition body)

variable {n : Nat}

theorem eval_kept (h : Balanced n) (e : Expr) : Along Kept (eval (n + 1) e) := by
  cases e with
  | absent => exact fail_kept _ _
  | assign name value =>
    exact Along.bind (h.expr value) fun v => Along.bind (assign_kept _ _) fun _ => Along.pure _
  | binary left operator right =>
    exact Along.bind (h.expr left) fun l => Along.bind (h.expr right) fun r =>
      binaryOp_kept _ _ _
  | call callee paren arguments =>
    refine Along.bind (h.expr callee) fun f => Along.bind (h.exprs arguments) fun args => ?_
    split
    · exact h.call _ _ _
    · exact h.construct _ _ _
    · exact fail_kept _ _
  | get object name =>
    refine Along.bind (h.expr object) fun o => ?_
    split
    · exact Along.bind (required_kept _) fun _ => property_kept _ _ _
    · exact unexpected_kept _ _ _
  | group inner => exact h.expr inner
  | literal value =>
    unfold eval
    split
    · exact Along.pure _
    · exact fail_kept _ _
  | logical left operator right =>
    refine Along.bind (h.expr left) fun l => Along.bind (decides_kept _ _) fun decided => ?_
    split
    · exact Along.pure _
    · exact h.expr right
  | set object name value =>
    refine Along.bind (h.expr object) fun o => ?_
    split
    · exact Along.bind (h.expr value) fun v => Along.bind (required_kept _) fun _ =>
        Along.bind (setField_kept _ _ _) fun _ => Along.pure _
    · exact unexpected_kept _ _ _
  | superMethod keyword method => exact superMethod_kept _ _
  | receiver keyword => exact lookup_kept _ _
  | unary operator right => exact Along.bind (h.expr right) fun r => unaryOp_kept _ _
  | name name => exact lookup_kept _ _

theorem evalAll_kept (h : Balanced n) (es : List Expr) : Along Kept (evalAll (n + 1) es) := by
  cases es with
  | nil => exact Along.pure _
  | cons e rest =>
    exact Along.bind (h.expr e) fun v => Along.bind (h.exprs rest) fun vs => Along.pure _

theorem invoke_kept (h : Balanced n) (id : FunctionId) (args : List Value)
    (token : Option Token) : Along Kept (invoke (n + 1) id args token) := by
  refine Along.get_bind fun m => ?_
  split
  · exact fail_kept _ _
  · split
    · exact fail_kept _ _
    · split
      · exact fail_kept _ _
      · exact attributed_kept (counted_kept (h.code _ _))

/-- The receiver, the parameters and all that the body declares stay in the frame of the call. -/
theorem runFunction_kept (h : Balanced n) (f : Function) (args : List Value) :
    Along Kept (runFunction (n + 1) f args) := by
  unfold runFunction
  split
  · exact Along.throw _
  · exact Along.get_bind fun m => Along.bind (write_kept _) fun _ => Along.pure _
  · refine Along.bind (withFrame_kept ?_) fun flow => ?_
    · exact Along.bind (defineReceiver_kept f) fun _ =>
        Along.bind (defineAll_kept _ _) fun _ => h.stmts _
    · split <;> exact Along.pure _
  · exact fail_kept _ _

theorem instantiate_kept (h : Balanced n) (cls : ClassId) (args : List Value)
    (token : Option Token) : Along Kept (instantiate (n + 1) cls args token) := by
  refine Along.bind (newInstance_kept cls) fun id => Along.get_bind fun m =>
    Along.bind (boundMethod_kept _ _) fun f => ?_
  split
  · exact Along.bind (h.call _ _ _) fun _ => Along.pure _
  · exact Along.pure _

theorem exec_kept (h : Balanced n) (s : Stmt) : Along KeptBelow (exec (n + 1) s) := by
  cases s with
  | absent => exact Kept.along_below (fail_kept _ _)
  | block body => exact Kept.along_below (withFrame_kept (h.stmts body))
  | classDecl name superclass methods =>
    exact Along.bind (declareClass_kept _ _ _) fun _ => Along.pure _
  | expr e => exact Kept.along_below (Along.bind (h.expr e) fun _ => Along.pure _)
  | funDecl decl =>
    exact Along.bind (Kept.along_below (newFunction_kept _)) fun id =>
      Along.bind (define_kept _ _) fun _ => Along.pure _
  | choice condition yes no =>
    refine Along.bind (Kept.along_below (h.expr condition)) fun c => ?_
    split
    · exact h.stmt yes
    · split
      · exact Along.pure _
      · exact h.stmt no
  | ret keyword value =>
    unfold exec
    split
    · exact Along.pure _
    · exact Kept.along_below (Along.bind (h.expr value) fun v => Along.pure _)
  | varDecl name initial =>
    refine Along.bind ?_ fun v => Along.bind (define_kept _ _) fun _ => Along.pure _
    split
    · exact Along.pure _
    · exact Kept.along_below (h.expr initial)
  | loop condition body => exact h.loop condition body

theorem execAll_kept (h : Balanced n) (ss : List Stmt) : Along KeptBelow (execAll (n + 1) ss) := by
  cases ss with
  | nil => exact Along.pure _
  | cons s rest =>
    refine Along.bind (h.stmt s) fun flow => ?_
    split
    · exact h.stmts rest
    · exact Along.pure _

theorem execLoop_kept (h : Balanced n) (condition : Expr) (body : Stmt) :
    Along KeptBelow (execLoop (n + 1) condition body) := by
  refine Along.bind (Kept.along_below (h.expr condition)) fun c => ?_
  split
  · refine Along.bind (h.stmt body) fun flow => ?_
    split
    · exact h.loop condition body
    · exact Along.pure _
  · exact Along.pure _

theorem balanced_zero : Balanced 0 where
  expr _ := Along.throw _
  exprs _ := Along.throw _
  call _ _ _ := Along.throw _
  code _ _ := Along.throw _
  construct _ _ _ := Along.throw _
  stmt _ := Along.throw _
  stmts _ := Along.throw _
  loop _ _ := Along.throw _

/-- **Balance.** Every amount of fuel keeps frames and calls balanced. -/
theorem balanced (n : Nat) : Balanced n := by
  induction n with
  | zero => exact balanced_zero
  | succ n ih =>
    exact ⟨eval_kept ih, evalAll_kept ih, invoke_kept ih, runFunction_kept ih,
      instantiate_kept ih, exec_kept ih, execAll_kept ih, execLoop_kept ih⟩

/-- A program keeps the frames below the current one. -/
theorem interpret_kept (fuel : Nat) (program : List Stmt) (last : Held) :
    Along KeptBelow (interpret fuel program last) := by
  induction program generalizing last with
  | nil => exact Along.pure _
  | cons s rest ih =>
    unfold interpret
    split
    · exact Along.bind (Kept.along_below ((balanced fuel).expr _)) fun v => ih _
    · refine Along.bind ((balanced fuel).stmt _) fun flow => ?_
      split
      · exact ih last
      · exact Along.pure _

end Eval

namespace Machine

/-- The number of frames is the same. -/
theorem KeptBelow.frames_depth {m m' : Machine} (h : KeptBelow m m') :
    m'.frames.depth = m.frames.depth := by
  have hl := congrArg List.length h.below
  rw [List.length_tail, List.length_tail, Frames.length_shape, Frames.length_shape] at hl
  have : 0 < m.frames.depth := Nat.succ_pos _
  have : 0 < m'.frames.depth := Nat.succ_pos _
  omega

theorem perform_kept (m : Machine) (turn : Turn) : KeptBelow m (m.perform turn) :=
  rel_perform (fun _ _ => Kept.below ⟨rfl, rfl⟩) (fun _ _ => Kept.below ⟨rfl, rfl⟩)
    (fun fuel program => Eval.interpret_kept fuel program none) m turn

/-- A history keeps the frames below the current one. -/
theorem after_kept (m : Machine) (turns : List Turn) : KeptBelow m (m.after turns) := by
  induction turns generalizing m with
  | nil => exact Std.Refl.refl m
  | cons turn rest ih => exact Trans.trans (perform_kept m turn) (ih (m.perform turn))

/-- **Frames and calls are balanced.** However it ends, evaluation of an expression leaves the
frames, the names in each of them and the number of active calls as they were; execution of a
statement leaves all of them but the names in the current frame. So a machine with any history has
one frame and no active call. -/
theorem frames_balanced :
    (∀ fuel e m, Kept m (finalState (Eval.eval fuel e m))) ∧
    (∀ fuel s m, KeptBelow m (finalState (Eval.exec fuel s m))) ∧
    ∀ limits turns, ((configured limits).after turns).frames.depth = 1 ∧
      ((configured limits).after turns).depth = 0 := by
  refine ⟨fun fuel e => (Eval.balanced fuel).expr e, fun fuel s => (Eval.balanced fuel).stmt s, ?_⟩
  intro limits turns
  have hk := after_kept (configured limits) turns
  obtain ⟨maxDepth, hc⟩ := configured_eq limits
  rw [hc] at hk ⊢
  exact ⟨hk.frames_depth, hk.depth⟩

end Machine

end Dynascope
