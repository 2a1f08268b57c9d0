import Dynascope.Eval.Basic
import Dynascope.Proofs.Outcome

/-!
# Fuel

Fuel only cuts evaluation off. Once there is enough of it, more fuel changes nothing.

* `RanOut r`: the computation was cut off.
* `Continues act act'`: `act'` does what `act` does, unless `act` is cut off. The rules
  (`Continues.bind`, `Continues.withFrame` and so on) follow the structure of a computation.
* `Eval.Steady n n'`: with fuel `n'`, evaluation continues that with fuel `n`. `Eval.steady` is the
  induction on the fuel, for `n ≤ n'`.
* `EndsWith run m r`: with enough fuel, the computation `run` ends with `r`.
* `Forever run m`: no fuel is enough.
-/

namespace Dynascope

variable {α β : Type}

/-- The computation was cut off because its fuel was used up. -/
inductive RanOut : EStateM.Result Stop Machine α → Prop where
  | mk (m : Machine) : RanOut (.error .outOfFuel m)

/-- The computation `act'` does what `act` does, unless `act` is cut off. -/
def Continues (act act' : Eval α) : Prop :=
  ∀ m, RanOut (act m) ∨ act' m = act m

namespace Continues

variable {act act' : Eval α}

theorem refl (act : Eval α) : Continues act act :=
  fun _ => .inr rfl

theorem trans {act'' : Eval α} (h : Continues act act') (h' : Continues act' act'') :
    Continues act act'' := by
  intro m
  rcases h m with hout | heq
  · exact .inl hout
  · rw [← heq]
    exact h' m

/-- No fuel at all. -/
theorem cut (act : Eval α) : Continues (throw .outOfFuel) act :=
  fun m => .inl (.mk m)

theorem bind {f f' : α → Eval β} (h : Continues act act') (hf : ∀ a, Continues (f a) (f' a)) :
    Continues (act >>= f) (act' >>= f') := by
  intro m
  cases hr : act m with
  | ok a m₁ =>
    have hr' : act' m = .ok a m₁ := by
      rcases h m with hout | heq
      · rw [hr] at hout
        cases hout
      · exact heq.trans hr
    rw [ok_bind hr, ok_bind hr']
    exact hf a m₁
  | error stop m₁ =>
    rw [error_bind hr]
    rcases h m with hout | heq
    · rw [hr] at hout
      cases hout
      exact .inl (.mk m₁)
    · exact .inr (error_bind (heq.trans hr))

/-- The machine is read first. -/
theorem get_bind {f f' : Machine → Eval β} (hf : ∀ m, Continues (f m) (f' m)) :
    Continues (MonadState.get >>= f) (MonadState.get >>= f') :=
  bind (refl _) hf

theorem ite {b : Prop} [Decidable b] {yes yes' no no' : Eval α} (hyes : Continues yes yes')
    (hno : Continues no no') : Continues (if b then yes else no) (if b then yes' else no') := by
  split
  · exact hyes
  · exact hno

/-- What follows is done unless a statement returns. -/
theorem next {act act' later later' : Eval Flow} (h : Continues act act')
    (hlater : Continues later later') :
    Continues
      (do match ← act with
        | .normal => later
        | flow => return flow)
      (do match ← act' with
        | .normal => later'
        | flow => return flow) := by
  refine bind h fun flow => ?_
  cases flow with
  | normal => exact hlater
  | returned v => exact refl _

theorem withFrame (name : Text) (h : Continues act act') :
    Continues (Eval.withFrame name act) (Eval.withFrame name act') := by
  intro m
  unfold Eval.withFrame
  rcases h { m with frames := m.frames.push name } with hout | heq
  · refine .inl ?_
    generalize act { m with frames := m.frames.push name } = r at hout
    cases hout
    exact .mk _
  · exact .inr (by rw [heq])

theorem counted (h : Continues act act') : Continues (Eval.counted act) (Eval.counted act') := by
  intro m
  unfold Eval.counted
  rcases h { m with depth := m.depth + 1 } with hout | heq
  · refine .inl ?_
    generalize act { m with depth := m.depth + 1 } = r at hout
    cases hout
    exact .mk _
  · exact .inr (by rw [heq])

theorem attributed (token : Option Token) (h : Continues act act') :
    Continues (Eval.attributed token act) (Eval.attributed token act') := by
  intro m
  unfold Eval.attributed
  rcases h m with hout | heq
  · refine .inl ?_
    generalize act m = r at hout
    cases hout
    exact .mk _
  · exact .inr (by rw [heq])

end Continues

namespace Eval

/-! ## The whole evaluator -/

/-- With fuel `n'`, evaluation continues that with fuel `n`. -/
structure Steady (n n' : Nat) : Prop where
  expr : ∀ e, Continues (eval n e) (eval n' e)
  exprs : ∀ es, Continues (evalAll n es) (evalAll n' es)
  call : ∀ id args token, Continues (invoke n id args token) (invoke n' id args token)
  code : ∀ f args, Continues (runFunction n f args) (runFunction n' f args)
  construct : ∀ cls args token,
    Continues (instantiate n cls args token) (instantiate n' cls args token)
  stmt : ∀ s, Continues (exec n s) (exec n' s)
  stmts : ∀ ss, Continues (execAll n ss) (execAll n' ss)
  loop : ∀ condition body, Continues (execLoop n condition body) (execLoop n' condition body)

variable {n n' : Nat}

theorem eval_continues (h : Steady n n') (e : Expr) :
    Continues (eval (n + 1) e) (eval (n' + 1) e) := by
  cases e with
  | assign name value => exact .bind (h.expr value) fun v => .refl _
  | binary left operator right =>
    exact .bind (h.expr left) fun l => .bind (h.expr right) fun r => .refl _
  | call callee paren arguments =>
    refine .bind (h.expr callee) fun f => .bind (h.exprs arguments) fun args => ?_
    cases f with
    | function id => exact h.call id args paren
    | cls id => exact h.construct id args paren
    | _ => exact .refl _
  | get object name => exact .bind (h.expr object) fun o => .refl _
  | group inner => exact h.expr inner
  | logical left operator right =>
    refine .bind (h.expr left) fun l => .bind (.refl _) fun decided => ?_
    exact .ite (.refl _) (h.expr right)
  | set object name value =>
    refine .bind (h.expr object) fun o => ?_
    cases o with
    | object id cls => exact .bind (h.expr value) fun v => .refl _
    | _ => exact .refl _
  | unary operator right => exact .bind (h.expr right) fun r => .refl _
  | _ => exact .refl _

theorem evalAll_continues (h : Steady n n') (es : List Expr) :
    Continues (evalAll (n + 1) es) (evalAll (n' + 1) es) := by
  cases es with
  | nil => exact .refl _
  | cons e rest => exact .bind (h.expr e) fun v => .bind (h.exprs rest) fun vs => .refl _

theorem invoke_continues (h : Steady n n') (id : FunctionId) (args : List Value)
    (token : Option Token) :
    Continues (invoke (n + 1) id args token) (invoke (n' + 1) id args token) := by
  refine .get_bind fun m => ?_
  cases m.store.function? id with
  | none => exact .refl _
  | some f =>
    exact .ite (.refl _) (.ite (.refl _) (.attributed token (.counted (h.code f args))))

theorem runFunction_continues (h : Steady n n') (f : Function) (args : List Value) :
    Continues (runFunction (n + 1) f args) (runFunction (n' + 1) f args) := by
  unfold runFunction
  split
  · exact .refl _
  · exact .refl _
  · exact .bind (.withFrame _ (.bind (.refl _) fun _ => .bind (.refl _) fun _ => h.stmts _))
      fun flow => .refl _
  · exact .refl _

theorem instantiate_continues (h : Steady n n') (cls : ClassId) (args : List Value)
    (token : Option Token) :
    Continues (instantiate (n + 1) cls args token) (instantiate (n' + 1) cls args token) := by
  refine .bind (.refl _) fun id => .get_bind fun m => .bind (.refl _) fun v => ?_
  cases v with
  | function initializer => exact .bind (h.call initializer args token) fun _ => .refl _
  | _ => exact .refl _

theorem exec_continues (h : Steady n n') (s : Stmt) :
    Continues (exec (n + 1) s) (exec (n' + 1) s) := by
  cases s with
  | block body => exact .withFrame _ (h.stmts body)
  | expr e => exact .bind (h.expr e) fun _ => .refl _
  | choice condition yes no =>
    refine .bind (h.expr condition) fun c => .ite (h.stmt yes) ?_
    cases no with
    | absent => exact .refl _
    | _ => exact h.stmt _
  | ret keyword value =>
    cases value with
    | absent => exact .refl _
    | _ => exact .bind (h.expr _) fun v => .refl _
  | varDecl name initial =>
    refine .bind ?_ fun v => .refl _
    cases initial with
    | absent => exact .refl _
    | _ => exact h.expr _
  | loop condition body => exact h.loop condition body
  | _ => exact .refl _

theorem execAll_continues (h : Steady n n') (ss : List Stmt) :
    Continues (execAll (n + 1) ss) (execAll (n' + 1) ss) := by
  cases ss with
  | nil => exact .refl _
  | cons s rest => exact .next (h.stmt s) (h.stmts rest)

theorem execLoop_continues (h : Steady n n') (condition : Expr) (body : Stmt) :
    Continues (execLoop (n + 1) condition body) (execLoop (n' + 1) condition body) := by
  refine .bind (h.expr condition) fun c => .ite ?_ (.refl _)
  exact .next (h.stmt body) (h.loop condition body)

/-- **More fuel.** More fuel keeps every answer that was reached with less. -/
theorem steady (h : n ≤ n') : Steady n n' := by
  induction n generalizing n' with
  | zero =>
    exact ⟨fun _ => .cut _, fun _ => .cut _, fun _ _ _ => .cut _, fun _ _ => .cut _,
      fun _ _ _ => .cut _, fun _ => .cut _, fun _ => .cut _, fun _ _ => .cut _⟩
  | succ n ih =>
    obtain ⟨k, rfl⟩ : ∃ k, n' = k + 1 := ⟨n' - 1, by omega⟩
    have ih := ih (Nat.le_of_succ_le_succ h)
    exact ⟨eval_continues ih, evalAll_continues ih, invoke_continues ih, runFunction_continues ih,
      instantiate_continues ih, exec_continues ih, execAll_continues ih, execLoop_continues ih⟩

end Eval

/-! ## Computations with enough fuel -/

/-- With enough fuel, the computation ends with `r`. -/
def EndsWith (run : Nat → Eval α) (m : Machine) (r : EStateM.Result Stop Machine α) : Prop :=
  ∃ n, run n m = r ∧ ¬ RanOut r

/-- No fuel is enough. -/
def Forever (run : Nat → Eval α) (m : Machine) : Prop :=
  ∀ n, RanOut (run n m)

/-- A computation goes on forever if it does not end with anything. -/
theorem forever_iff {run : Nat → Eval α} {m : Machine} :
    Forever run m ↔ ∀ r, ¬ EndsWith run m r := by
  constructor
  · rintro h r ⟨n, rfl, hr⟩
    exact hr (h n)
  · intro h n
    exact Classical.byContradiction fun hr => h _ ⟨n, rfl, hr⟩

/-- A computation that another one continues ends as that one does. -/
theorem EndsWith.continued {run run' : Nat → Eval α} {m : Machine}
    {r : EStateM.Result Stop Machine α} (h : EndsWith run m r)
    (hrun : ∀ n, ∃ n', Continues (run n) (run' n')) : EndsWith run' m r := by
  obtain ⟨n, rfl, hr⟩ := h
  obtain ⟨n', hcontinues⟩ := hrun n
  exact ⟨n', (hcontinues m).resolve_left hr, hr⟩

end Dynascope
