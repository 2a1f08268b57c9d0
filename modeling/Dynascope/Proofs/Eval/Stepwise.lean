import Dynascope.Proofs.Eval.Moment
import Dynascope.Proofs.Outcome

/-!
# Evaluation goes step by step

Every computation of the evaluator is a sequence of steps.

* `Does c new act out`: with `new` waiting on top of the stack, steps lead from the control `c` to
  the end of the computation `act`, and what waited below is still there. The rules (`Does.begin`,
  `Does.bind` and so on) follow the structure of a computation.
* `Eval.Stepwise n`: with fuel `n`, the functions of the evaluator do what their tasks do.
  `Eval.stepwise` is the induction on the fuel.
* `Moment.reaches_report`: a run gets from its first moment to the one that is reported.
-/

namespace Dynascope

variable {α β γ : Type}

/-- The moment at the end of a computation. -/
def Moment.ofEnd (out : α → Ending) (stack : List Pending) :
    EStateM.Result Stop Machine α → Moment
  | .ok a m => ⟨.ending (out a), stack, m⟩
  | .error stop m => ⟨.ending (.stopped stop), stack, m⟩

/-- The end of a computation, with another result, another stop and another machine. -/
def mapEnd (convert : α → β) (mark : Stop → Stop) (leave : Machine → Machine) :
    EStateM.Result Stop Machine α → EStateM.Result Stop Machine β
  | .ok a m => .ok (convert a) (leave m)
  | .error stop m => .error (mark stop) (leave m)

open Moment Eval

/-- Steps lead from a control, with `new` waiting on top of the stack, to the end of a
computation. -/
def Does (c : Control) (new : List Pending) (act : Eval α) (out : α → Ending) : Prop :=
  ∀ stack m, Reaches ⟨c, new ++ stack, m⟩ (ofEnd out stack (act m))

/-- After a step that runs `first`, further steps lead to the end of a computation. -/
def Follows (first : Eval (Control × List Pending)) (act : Eval α) (out : α → Ending) : Prop :=
  ∀ stack m, Reaches (ofStep stack (first m)) (ofEnd out stack (act m))

/-- A stop is passed on, and nothing else happens. -/
def Pending.PassesStops (p : Pending) : Prop :=
  ∀ stop m, p.resume (.stopped stop) m = .ok (.ending (.stopped stop), []) m

section

variable {c : Control} {new : List Pending} {p : Pending} {t : Task} {o : Ending}
  {out : α → Ending} {act : Eval α}

namespace Does

theorem begin (h : Follows t.begin act out) : Does (.task t) [] act out :=
  fun stack m => .head (Moves.step ⟨.task t, stack, m⟩) (h stack m)

theorem resume (h : Follows (p.resume o) act out) : Does (.ending o) [p] act out :=
  fun stack m => .head (Moves.step ⟨.ending o, p :: stack, m⟩) (h stack m)

/-- The outcome of a computation goes to what waits for it. -/
theorem bind {f : α → Eval β} {out' : β → Ending} (h : Does c new act out)
    (hp : p.PassesStops) (hf : ∀ a, Follows (p.resume (out a)) (f a) out') :
    Does c (new ++ [p]) (act >>= f) out' := by
  intro stack m
  have hact := h (p :: stack) m
  rw [List.append_assoc]
  cases hr : act m with
  | ok a m' =>
    rw [hr] at hact
    rw [ok_bind hr]
    exact hact.trans (resume (hf a) stack m')
  | error stop m' =>
    rw [hr] at hact
    rw [error_bind hr]
    have hstep := Moves.step ⟨.ending (.stopped stop), p :: stack, m'⟩
    rw [step, hp] at hstep
    exact hact.tail hstep

/-- A computation between a change of the machine and the change that undoes it. -/
theorem around {out' : β → Ending} (convert : α → β) (mark : Stop → Stop)
    {leave : Machine → Machine} (h : Does c [] act out) (stack : List Pending) (m : Machine)
    (hvalue : ∀ a m, p.resume (out a) m = .ok (.ending (out' (convert a)), []) (leave m))
    (hstop : ∀ stop m,
      p.resume (.stopped stop) m = .ok (.ending (.stopped (mark stop)), []) (leave m)) :
    Reaches ⟨c, p :: stack, m⟩ (ofEnd out' stack (mapEnd convert mark leave (act m))) := by
  have hact := h (p :: stack) m
  cases hr : act m with
  | ok a m' =>
    rw [hr] at hact
    have hlast := Moves.step ⟨.ending (out a), p :: stack, m'⟩
    rw [step, hvalue] at hlast
    exact hact.tail hlast
  | error stop m' =>
    rw [hr] at hact
    have hlast := Moves.step ⟨.ending (.stopped stop), p :: stack, m'⟩
    rw [step, hstop] at hlast
    exact hact.tail hlast

end Does

namespace Follows

/-- The step only turns to something else. -/
theorem turn (h : Does c new act out) : Follows (Pure.pure (c, new)) act out :=
  h

theorem pure (a : α) : Follows (Pure.pure (.ending (out a), [])) (Pure.pure a) out :=
  fun _ _ => .refl

theorem throw (stop : Stop) : Follows (MonadExcept.throw stop) (MonadExcept.throw stop) out :=
  fun _ _ => .refl

theorem bind {first : Eval γ} {g : γ → Eval (Control × List Pending)} {rest : γ → Eval α}
    (h : ∀ a, Follows (g a) (rest a) out) : Follows (first >>= g) (first >>= rest) out := by
  intro stack m
  cases hr : first m with
  | ok a m' =>
    rw [ok_bind hr, ok_bind hr]
    exact h a stack m'
  | error stop m' =>
    rw [error_bind hr, error_bind hr]
    exact .refl

theorem ite {b : Prop} [Decidable b] {yes no : Eval (Control × List Pending)} {act' : Eval α}
    (hyes : Follows yes act out) (hno : Follows no act' out) :
    Follows (if b then yes else no) (if b then act else act') out := by
  split
  · exact hyes
  · exact hno

/-- The step is the computation. -/
theorem done (act : Eval α) :
    Follows (act >>= fun a => Pure.pure (.ending (out a), [])) act out := by
  have h : Follows (act >>= fun a => Pure.pure (.ending (out a), [])) (act >>= Pure.pure) out :=
    bind fun a => pure a
  rwa [bind_pure] at h

/-- The step turns to a task, and its outcome goes to what waits for it. -/
theorem first {f : α → Eval β} {out' : β → Ending} (h : Does (.task t) [] act out)
    (hf : ∀ a, Follows (p.resume (out a)) (f a) out')
    (hp : p.PassesStops := by exact fun _ _ => rfl) :
    Follows (Pure.pure (.task t, [p])) (act >>= f) out' :=
  turn (Does.bind h hp hf)

end Follows

end

/-! ## The whole evaluator -/

namespace Eval

/-- With fuel `n`, the functions of the evaluator do what their tasks do. -/
structure Stepwise (n : Nat) : Prop where
  expr : ∀ e, Does (.task (.expr e)) [] (eval n e) .value
  exprs : ∀ es, Does (.task (.exprs es)) [] (evalAll n es) .values
  call : ∀ id args token, Does (.task (.call id args token)) [] (invoke n id args token) .value
  code : ∀ f args, Does (.task (.code f args)) [] (runFunction n f args) .value
  construct : ∀ cls args token,
    Does (.task (.construct cls args token)) [] (instantiate n cls args token) .value
  stmt : ∀ s, Does (.task (.stmt s)) [] (exec n s) .flow
  stmts : ∀ ss, Does (.task (.stmts ss)) [] (execAll n ss) .flow
  loop : ∀ condition body,
    Does (.task (.loop condition body)) [] (execLoop n condition body) .flow

variable {n : Nat}

theorem eval_follows (h : Stepwise n) (e : Expr) :
    Follows (Task.expr e).begin (eval (n + 1) e) .value := by
  cases e with
  | absent => exact .throw _
  | assign name value => exact .first (h.expr value) fun v => .bind fun _ => .pure v
  | binary left operator right =>
    exact .first (h.expr left) fun l => .first (h.expr right) fun r => .done _
  | call callee paren arguments =>
    refine .first (h.expr callee) fun f => .first (h.exprs arguments) fun args => ?_
    cases f with
    | function id => exact .turn (h.call id args paren)
    | cls id => exact .turn (h.construct id args paren)
    | _ => exact .throw _
  | get object name =>
    refine .first (h.expr object) fun o => ?_
    cases o with
    | object id cls => exact .bind fun name => .done _
    | _ => exact .throw _
  | group inner => exact .turn (h.expr inner)
  | literal value =>
    cases value with
    | foreign n => exact .throw _
    | _ => exact .pure _
  | logical left operator right =>
    refine .first (h.expr left) fun l => .bind fun decided => ?_
    cases decided with
    | true => exact .pure l
    | false => exact .turn (h.expr right)
  | set object name value =>
    refine .first (h.expr object) fun o => ?_
    cases o with
    | object id cls => exact .first (h.expr value) fun v => .bind fun name => .bind fun _ => .pure v
    | _ => exact .throw _
  | superMethod keyword method => exact .done _
  | receiver keyword => exact .done _
  | unary operator right => exact .first (h.expr right) fun r => .done _
  | name name => exact .done _

theorem evalAll_follows (h : Stepwise n) (es : List Expr) :
    Follows (Task.exprs es).begin (evalAll (n + 1) es) .values := by
  cases es with
  | nil => exact .pure _
  | cons e rest => exact .first (h.expr e) fun v => .first (h.exprs rest) fun vs => .pure _

/-- What surrounds a call: it is counted and uncounted, and a stop is attributed to it. -/
theorem attributed_counted (token : Option Token) (act : Eval α) (m : Machine) :
    attributed token (counted act) m =
      mapEnd id (·.attributedTo token) (fun m => { m with depth := m.depth - 1 })
        (act { m with depth := m.depth + 1 }) := by
  unfold attributed counted
  cases act { m with depth := m.depth + 1 } <;> rfl

theorem invoke_follows (h : Stepwise n) (id : FunctionId) (args : List Value)
    (token : Option Token) :
    Follows (Task.call id args token).begin (invoke (n + 1) id args token) .value := by
  refine .bind fun m => ?_
  cases m.store.function? id with
  | none => exact .throw _
  | some f =>
    refine .ite (.throw _) (.ite (.throw _) fun stack m => ?_)
    rw [attributed_counted]
    exact Does.around (p := .active token) _ _ (h.code f args) stack
      { m with depth := m.depth + 1 } (fun _ _ => rfl) (fun _ _ => rfl)

/-- The names of a frame are defined one after the other. -/
theorem enter_does (h : Stepwise n) (names : List Text) (values : List Value)
    (body : List Stmt) : Does (.task (.enter names values body)) []
      (defineAll names values >>= fun _ => execAll n body) .flow := by
  induction names generalizing values with
  | nil => exact .begin (.turn (h.stmts body))
  | cons name names ih =>
    cases values with
    | nil => exact .begin (.throw _)
    | cons value values =>
      rw [defineAll, bind_assoc]
      exact .begin (.bind fun _ => .turn (ih values))

theorem receive_does (h : Stepwise n) (f : Function) (args : List Value) (body : List Stmt) :
    Does (.task (.receive f args body)) [] (defineReceiver f >>= fun _ =>
      defineAll f.params args >>= fun _ => execAll n body) .flow := by
  refine .begin ?_
  unfold defineReceiver
  rw [Task.begin]
  cases f.isBound with
  | false => exact .turn (enter_does h _ _ _)
  | true =>
    simp only [if_true, bind_assoc]
    refine .bind fun m => ?_
    cases m.heap.ref? f.this with
    | none => exact .throw _
    | some this =>
      cases m.store.superclassOf? f with
      | none =>
        have henter := enter_does h (thisName :: f.params) (this :: args) body
        simp only [defineAll, bind_assoc] at henter
        simpa only [bind_assoc, pure_bind] using Follows.turn henter
      | some superclass =>
        have henter := enter_does h (thisName :: superName :: f.params)
          (this :: .cls superclass :: args) body
        simp only [defineAll, bind_assoc] at henter
        simpa only [bind_assoc] using Follows.turn henter

/-- The value of a call whose body ended. -/
def callValue : Flow → Value
  | .returned v => v
  | .normal => .nil

/-- What surrounds a body: its frame is taken off, and what it returned is the value. -/
theorem withFrame_callValue (name : Text) (act : Eval Flow) (m : Machine) :
    (withFrame name act >>= fun flow => pure (callValue flow)) m =
      mapEnd callValue id (fun m => { m with frames := m.frames.pop })
        (act { m with frames := m.frames.push name }) := by
  simp only [bind, EStateM.bind, withFrame]
  cases act { m with frames := m.frames.push name } <;> rfl

theorem runFunction_follows (h : Stepwise n) (f : Function) (args : List Value) :
    Follows (Task.code f args).begin (runFunction (n + 1) f args) .value := by
  obtain ⟨name, params, code, this, owner⟩ := f
  cases code with
  | print =>
    cases args with
    | nil => exact .throw _
    | cons v rest => exact .bind fun m => .bind fun _ => .pure _
  | declared site body =>
    cases body with
    | block body =>
      have hbody := receive_does h ⟨name, params, .declared site (.block body), this, owner⟩ args
        body
      intro stack m
      have hvalue : runFunction (n + 1) ⟨name, params, .declared site (.block body), this, owner⟩
          args = withFrame name (defineReceiver ⟨name, params, .declared site (.block body), this,
            owner⟩ >>= fun _ => defineAll params args >>= fun _ => execAll n body) >>=
              fun flow => pure (callValue flow) := by
        refine bind_congr fun flow => ?_
        cases flow <;> rfl
      rw [hvalue, withFrame_callValue]
      exact Does.around (p := .bodyEnd) callValue id hbody stack
        { m with frames := m.frames.push name } (fun flow _ => by cases flow <;> rfl)
        (fun _ _ => rfl)
    | _ => exact .throw _

theorem instantiate_follows (h : Stepwise n) (cls : ClassId) (args : List Value)
    (token : Option Token) :
    Follows (Task.construct cls args token).begin (instantiate (n + 1) cls args token) .value := by
  refine .bind fun id => .turn (.begin (.bind fun m => .bind fun f => ?_))
  cases f with
  | function initializer => exact .first (h.call initializer args token) fun _ => .pure _
  | _ => exact .pure _

theorem build_does (name : Token) (superclass : Option ClassId)
    (methods : List (Option FunDecl)) :
    Does (.task (.build name superclass methods)) []
      (required (methods.mapM id) >>= fun declared => newClass name.lexeme superclass declared >>=
        fun id => assign name (.cls id) >>= fun _ => pure Flow.normal) .flow := by
  refine .begin (.bind fun declared => .bind fun id => .turn ?_)
  have hassign : Does (.ending (.value (.cls id))) [.assign name]
      (assign name (.cls id) >>= fun _ => pure (.cls id)) .value :=
    .resume (.bind fun _ => .pure _)
  have hboth := Does.bind (p := .discard) (f := fun _ => pure Flow.normal) hassign
    (fun _ _ => rfl) fun _ => .pure _
  rw [bind_assoc, funext fun _ => pure_bind _ _] at hboth
  exact hboth

/-- The name of a class is nil when its superclass is looked up. -/
theorem declareClass_follows (name : Token) (superclass : Option Token)
    (methods : List (Option FunDecl)) :
    Follows (Task.stmt (.classDecl name superclass methods)).begin
      (declareClass name superclass methods >>= fun _ => pure Flow.normal) .flow := by
  unfold declareClass
  simp only [bind_assoc]
  refine .bind fun _ => ?_
  cases superclass with
  | none =>
    exact .turn (build_does name none methods)
  | some t =>
    simp only [bind_assoc]
    have hname : Does (.task (.expr (.name t))) [] (lookup t.lexeme (some t)) .value :=
      .begin (.done _)
    refine .first hname fun v => ?_
    cases v with
    | cls id => exact .turn (build_does name (some id) methods)
    | _ => exact .throw _

theorem exec_follows (h : Stepwise n) (s : Stmt) :
    Follows (Task.stmt s).begin (exec (n + 1) s) .flow := by
  cases s with
  | absent => exact .throw _
  | block body =>
    intro stack m
    exact Does.around (p := .blockEnd) id id (h.stmts body) stack
      { m with frames := m.frames.push "block" } (fun _ _ => rfl) (fun _ _ => rfl)
  | classDecl name superclass methods => exact declareClass_follows name superclass methods
  | expr e => exact .first (h.expr e) fun v => .pure _
  | funDecl decl => exact .bind fun id => .turn (.resume (.bind fun _ => .pure _))
  | choice condition yes no =>
    refine .first (h.expr condition) fun c => .ite (.turn (h.stmt yes)) ?_
    cases no with
    | absent => exact .pure _
    | _ => exact .turn (h.stmt _)
  | ret keyword value =>
    cases value with
    | absent => exact .pure _
    | _ => exact .first (h.expr _) fun v => .pure _
  | varDecl name initial =>
    cases initial with
    | absent => 
      exact .turn (.resume (.bind fun _ => .pure _))
    | _ => exact .first (h.expr _) fun v => .bind fun _ => .pure _
  | loop condition body => exact .turn (h.loop condition body)

theorem execAll_follows (h : Stepwise n) (ss : List Stmt) :
    Follows (Task.stmts ss).begin (execAll (n + 1) ss) .flow := by
  cases ss with
  | nil => exact .pure _
  | cons s rest =>
    refine .first (h.stmt s) fun flow => ?_
    cases flow with
    | normal => exact .turn (h.stmts rest)
    | returned v => exact .pure _

theorem execLoop_follows (h : Stepwise n) (condition : Expr) (body : Stmt) :
    Follows (Task.loop condition body).begin (execLoop (n + 1) condition body) .flow := by
  refine .first (h.expr condition) fun c => .ite (.first (h.stmt body) fun flow => ?_) (.pure _)
  cases flow with
  | normal => exact .turn (h.loop condition body)
  | returned v => exact .pure _

/-- **Step by step.** With every amount of fuel, the evaluator does what steps do. -/
theorem stepwise (n : Nat) : Stepwise n := by
  induction n with
  | zero =>
    have hcut : ∀ (t : Task) {α : Type} {out : α → Ending},
        Does (.task t) [] (throw .outOfFuel : Eval α) out :=
      fun t _ _ stack m => .single (.cutOff t stack m)
    exact ⟨fun _ => hcut _, fun _ => hcut _, fun _ _ _ => hcut _, fun _ _ => hcut _,
      fun _ _ _ => hcut _, fun _ => hcut _, fun _ => hcut _, fun _ _ => hcut _⟩
  | succ n ih =>
    exact ⟨fun e => .begin (eval_follows ih e), fun es => .begin (evalAll_follows ih es),
      fun id args token => .begin (invoke_follows ih id args token),
      fun f args => .begin (runFunction_follows ih f args),
      fun cls args token => .begin (instantiate_follows ih cls args token),
      fun s => .begin (exec_follows ih s), fun ss => .begin (execAll_follows ih ss),
      fun condition body => .begin (execLoop_follows ih condition body)⟩

theorem interpret_does (fuel : Nat) (program : List Stmt) (last : Held) :
    Does (.task (.program program last)) [] (interpret fuel program last) .result := by
  induction program generalizing last with
  | nil => exact .begin (.pure _)
  | cons s rest ih =>
    refine .begin ?_
    unfold interpret
    split
    · exact .first ((stepwise fuel).expr _) fun v => .turn (ih (some v))
    next hother =>
      rw [Task.begin]
      · refine .first ((stepwise fuel).stmt s) fun flow => ?_
        cases flow with
        | normal => exact .turn (ih last)
        | returned v => exact .pure _
      · exact hother

end Eval

/-- The ending of a run that was reported. -/
def Report.ending (r : Report) : Ending :=
  match r.error with
  | some (.stop stop) => .stopped stop
  | _ => .result r.value

/-- A run gets from its first moment to the one that is reported, where nothing waits. -/
theorem Moment.reaches_report {fuel : Nat} {m m' : Machine} {program : List Stmt}
    {diagnostics : List ParseError} {report : Report}
    (h : m.interpretWith fuel program diagnostics = (report, m')) :
    Reaches (opening m program) ⟨.ending report.ending, [], m'⟩ := by
  have hdoes := interpret_does fuel (m.load program).1 none [] (m.load program).2
  rw [Machine.interpretWith] at h
  dsimp only at h
  split at h
  next value m'' hr =>
    rw [hr] at hdoes
    cases h
    exact hdoes
  next stop m'' hr =>
    rw [hr] at hdoes
    cases h
    exact hdoes

end Dynascope
