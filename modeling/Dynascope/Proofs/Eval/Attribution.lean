import Dynascope.Proofs.Eval.Stepwise

/-!
# The tokens of errors

An error that is raised without a token gets one on its way out: the first call that it leaves and
that has a token gives it its own. An error with a token keeps it.

* `Moment.Raises c stop`: the step from the moment `c` raises `stop`.
* `innermostToken?`: the token of the innermost active call that has one.
* `Task.begin_goesOn`, `Pending.resume_goesOn`: a step that does not raise a stop does not lead to
  one.
* `Moment.iterate_stopped`: what becomes of a stop on its way out.
* `Moment.EndsAttributed`: one moment raises an error, and the error in the end is that one, with
  its token or that of the innermost active call of the moment.
* `error_attribution`: all errors of expressions, statements and programs are attributed so.
-/

namespace Dynascope

open Eval Moment

/-! ## Stops and tokens -/

/-- The stop among the endings. -/
def Ending.stop? : Ending → Option Stop
  | .stopped stop => some stop
  | _ => none

/-- The stop with which evaluation is on its way out. -/
def Control.stop? : Control → Option Stop
  | .ending o => o.stop?
  | .task _ => none

/-- The token of a call that is active. -/
def Pending.callToken? : Pending → Option Token
  | .active token => token
  | _ => none

/-- The token of the innermost active call that has one. -/
def innermostToken? (stack : List Pending) : Option Token :=
  stack.findSome? Pending.callToken?

theorem innermostToken?_cons (p : Pending) (stack : List Pending) :
    innermostToken? (p :: stack) = p.callToken?.or (innermostToken? stack) := by
  rw [innermostToken?, List.findSome?_cons]
  cases p.callToken? <;> rfl

namespace Stop

theorem attributedTo_none (stop : Stop) : stop.attributedTo none = stop := by
  cases stop with
  | fault e =>
    obtain ⟨fault, token⟩ := e
    cases token <;> rfl
  | _ => rfl

/-- Of two tokens in a row the first counts, if there is one. -/
theorem attributedTo_or (stop : Stop) (first second : Option Token) :
    (stop.attributedTo first).attributedTo second = stop.attributedTo (first.or second) := by
  cases stop with
  | fault e =>
    obtain ⟨fault, token⟩ := e
    cases token <;> cases first <;> rfl
  | _ => rfl

end Stop

/-! ## Steps that go on -/

theorem expr_goesOn (e : Expr) (m : Machine) :
    Ends (Task.expr e).begin m (fun next _ => next.1.stop? = none) fun _ _ => True := by
  cases e with
  | absent => trivial
  | literal value => cases value <;> first | exact rfl | trivial
  | superMethod keyword method => exact .skip fun _ _ => rfl
  | receiver keyword => exact .skip fun _ _ => rfl
  | name name => exact .skip fun _ _ => rfl
  | _ => exact rfl

theorem stmt_goesOn (s : Stmt) (m : Machine) :
    Ends (Task.stmt s).begin m (fun next _ => next.1.stop? = none) fun _ _ => True := by
  cases s with
  | absent => trivial
  | classDecl name superclass methods =>
    refine .skip fun _ _ => ?_
    cases superclass <;> exact rfl
  | funDecl decl => exact .skip fun _ _ => rfl
  | ret keyword value => cases value <;> exact rfl
  | varDecl name initial => cases initial <;> exact rfl
  | _ => exact rfl

/-- A task that begins does not end with a stop in a step that succeeds. -/
theorem Task.begin_goesOn (t : Task) (m : Machine) :
    Ends t.begin m (fun next _ => next.1.stop? = none) fun _ _ => True := by
  cases t with
  | expr e => exact expr_goesOn e m
  | exprs es => cases es <;> exact rfl
  | call id args token =>
    refine .skip fun m' _ => ?_
    cases m'.store.function? id with
    | none => trivial
    | some f =>
      dsimp only
      split
      · trivial
      · split
        · trivial
        · exact rfl
  | code f args =>
    obtain ⟨name, params, code, this, owner⟩ := f
    cases code with
    | print =>
      cases args with
      | nil => trivial
      | cons v rest => exact .skip fun _ _ => .skip fun _ _ => rfl
    | declared site body => cases body <;> first | exact rfl | trivial
  | receive f args body =>
    rw [Task.begin]
    split
    · refine .skip fun m' _ => ?_
      split
      · trivial
      · split <;> exact rfl
    · exact rfl
  | enter names values body =>
    cases names with
    | nil => exact rfl
    | cons name names =>
      cases values with
      | nil => trivial
      | cons value values => exact .skip fun _ _ => rfl
  | construct cls args token => exact rfl
  | setUp id cls args token =>
    refine .skip fun _ _ => .skip fun v _ => ?_
    cases v <;> exact rfl
  | stmt s => exact stmt_goesOn s m
  | build name superclass methods => exact .skip fun _ _ => .skip fun _ _ => rfl
  | stmts ss => cases ss <;> exact rfl
  | loop condition body => exact rfl
  | program ss last =>
    cases ss with
    | nil => exact rfl
    | cons s rest => cases s <;> exact rfl

/-- What waits does not end with a stop in a step that succeeds, unless it was given one. -/
theorem Pending.resume_goesOn (p : Pending) {o : Ending} (ho : o.stop? = none) (m : Machine) :
    Ends (p.resume o) m (fun next _ => next.1.stop? = none) fun _ _ => True := by
  cases o with
  | stopped stop => cases ho
  | value v =>
    cases p with
    | assign name => exact .skip fun _ _ => rfl
    | operation l operator => exact .skip fun _ _ => rfl
    | property name =>
      cases v with
      | object id cls => exact .skip fun _ _ => .skip fun _ _ => rfl
      | _ => trivial
    | decision operator right =>
      refine .skip fun decided _ => ?_
      cases decided <;> exact rfl
    | fieldValue name value => cases v <;> first | exact rfl | trivial
    | field id cls name => exact .skip fun _ _ => .skip fun _ _ => rfl
    | operand operator => exact .skip fun _ _ => rfl
    | branches yes no =>
      show Ends (if v.truthy then _ else _) m _ _
      split
      · exact rfl
      · cases no <;> exact rfl
    | define name => exact .skip fun _ _ => rfl
    | superclass name parent methods => cases v <;> first | exact rfl | trivial
    | test condition body =>
      rw [Pending.resume]
      split <;> exact rfl
    | _ => exact rfl
  | values vs =>
    cases p with
    | application f paren => cases f <;> first | exact rfl | trivial
    | _ => exact rfl
  | flow flow => cases p <;> cases flow <;> exact rfl
  | result last => cases p <;> exact rfl

/-- A stop is passed on. The end of an active call gives it its token. -/
theorem Pending.resume_stopped (p : Pending) (stop : Stop) (m : Machine) :
    ∃ m', p.resume (.stopped stop) m =
      .ok (.ending (.stopped (stop.attributedTo p.callToken?)), []) m' := by
  have hpass : ∀ m', (pure (.ending (.stopped stop), []) : Eval (Control × List Pending)) m' =
      .ok (.ending (.stopped (stop.attributedTo none)), []) m' := by
    intro m'
    rw [Stop.attributedTo_none]
    rfl
  cases p with
  | active token => exact ⟨_, rfl⟩
  | bodyEnd => exact ⟨{ m with frames := m.frames.pop }, hpass _⟩
  | blockEnd => exact ⟨{ m with frames := m.frames.pop }, hpass _⟩
  | _ => exact ⟨m, hpass m⟩

namespace Moment

/-! ## Raising a stop -/

/-- The step from a moment raises a stop. -/
inductive Raises : Moment → Stop → Prop where
  | begin {t : Task} {stack : List Pending} {m m' : Machine} {stop : Stop}
      (h : t.begin m = .error stop m') : Raises ⟨.task t, stack, m⟩ stop
  | resume {p : Pending} {o : Ending} {stack : List Pending} {m m' : Machine} {stop : Stop}
      (h : p.resume o m = .error stop m') : Raises ⟨.ending o, p :: stack, m⟩ stop

variable {c : Moment} {stop : Stop}

/-- What is on its way out raises nothing any more. -/
theorem Raises.stop?_eq_none (h : c.Raises stop) : c.control.stop? = none := by
  cases h with
  | begin h => rfl
  | @resume p o stack m m' _ h =>
    cases o with
    | stopped stop' =>
      obtain ⟨m'', hok⟩ := p.resume_stopped stop' m
      rw [hok] at h
      cases h
    | _ => rfl

/-- After it has been raised, a stop is on its way out of the calls that were active. -/
theorem Raises.step_eq (h : c.Raises stop) :
    ∃ stack m', c.step = ⟨.ending (.stopped stop), stack, m'⟩ ∧
      innermostToken? stack = innermostToken? c.stack := by
  cases h with
  | @begin t stack m m' _ h => exact ⟨stack, m', by rw [step, h]; rfl, rfl⟩
  | @resume p o stack m m' _ h =>
    refine ⟨stack, m', by rw [step, h]; rfl, ?_⟩
    rw [innermostToken?_cons]
    cases p with
    | active token =>
      -- The end of an active call raises nothing.
      cases o <;> cases h
    | _ => rfl

/-- A stop at the next moment was raised now or before. -/
theorem raises_of_step (hc : c.control.stop? = none) (hs : c.step.control.stop? = some stop) :
    c.Raises stop := by
  obtain ⟨control, stack, m⟩ := c
  cases control with
  | task t =>
    have hgoes := t.begin_goesOn m
    unfold Ends at hgoes
    rw [step] at hs
    cases hr : t.begin m with
    | ok next m' =>
      rw [hr] at hgoes hs
      cases hgoes.symm.trans hs
    | error stop' m' =>
      rw [hr] at hs
      exact Option.some.inj hs ▸ .begin hr
  | ending o =>
    cases stack with
    | nil => cases hc.symm.trans hs
    | cons p stack =>
      have hgoes := p.resume_goesOn hc m
      unfold Ends at hgoes
      rw [step] at hs
      cases hr : p.resume o m with
      | ok next m' =>
        rw [hr] at hgoes hs
        cases hgoes.symm.trans hs
      | error stop' m' =>
        rw [hr] at hs
        exact Option.some.inj hs ▸ .resume hr

/-- A stop that is met was raised at some moment before. -/
theorem exists_raises {i : Nat} (hc : c.control.stop? = none)
    (hs : ((step^[i] c).control.stop?).isSome) : ∃ j < i, ∃ stop, (step^[j] c).Raises stop := by
  induction i generalizing c with
  | zero =>
    have hs : (c.control.stop?).isSome := hs
    rw [hc] at hs
    cases hs
  | succ i ih =>
    rw [Function.iterate_succ_apply] at hs
    cases hnext : c.step.control.stop? with
    | some stop => exact ⟨0, Nat.succ_pos i, stop, raises_of_step hc hnext⟩
    | none =>
      obtain ⟨j, hj, stop, hraises⟩ := ih hnext hs
      exact ⟨j + 1, Nat.succ_lt_succ hj, stop, by rwa [Function.iterate_succ_apply]⟩

/-! ## On the way out -/

/-- On its way out, a stop leaves one thing after the other that waits, and it is attributed to the
innermost call that has a token. -/
theorem iterate_stopped (stop : Stop) (stack : List Pending) (m : Machine) (j : Nat) :
    ∃ m', step^[j] ⟨.ending (.stopped stop), stack, m⟩ =
      ⟨.ending (.stopped (stop.attributedTo (innermostToken? (stack.take j)))),
        stack.drop j, m'⟩ := by
  induction j generalizing stop stack m with
  | zero => exact ⟨m, by rw [List.take_zero, innermostToken?, List.findSome?_nil,
      Stop.attributedTo_none]; rfl⟩
  | succ j ih =>
    rw [Function.iterate_succ_apply]
    cases stack with
    | nil =>
      obtain ⟨m', hm'⟩ := ih stop [] m
      refine ⟨m', ?_⟩
      rw [step, hm']
      simp
    | cons p stack =>
      obtain ⟨m₁, hpass⟩ := p.resume_stopped stop m
      obtain ⟨m', hm'⟩ := ih (stop.attributedTo p.callToken?) stack m₁
      refine ⟨m', ?_⟩
      rw [step, hpass, List.take_succ_cons, List.drop_succ_cons, innermostToken?_cons,
        ← Stop.attributedTo_or]
      exact hm'

/-- There is at most one moment that raises a stop. -/
theorem Raises.unique {i j : Nat} {stop stop' : Stop} (h : (step^[i] c).Raises stop)
    (h' : (step^[j] c).Raises stop') : j = i := by
  have hle : ∀ {i j : Nat} {stop stop' : Stop}, (step^[i] c).Raises stop →
      (step^[j] c).Raises stop' → j ≤ i := by
    intro i j stop stop' h h'
    by_contra hlt
    obtain ⟨k, rfl⟩ := Nat.exists_eq_add_of_le (Nat.not_le.mp hlt)
    obtain ⟨stack, m, hstep, -⟩ := h.step_eq
    obtain ⟨m', hout⟩ := iterate_stopped stop stack m k
    have hnone := h'.stop?_eq_none
    rw [Nat.add_comm, Function.iterate_add_apply, Function.iterate_succ_apply', hstep, hout]
      at hnone
    cases hnone
  exact Nat.le_antisymm (hle h h') (hle h' h)

/-- Steps from a moment end with an error: one moment raises it, and no other raises anything; in
the end its fault is the same, and its token is that with which it was raised or else that of the
innermost call that was active then and has a token. -/
def EndsAttributed (c : Moment) (e : RuntimeError) (m : Machine) : Prop :=
  ∃ i raised, (step^[i] c).Raises (.fault raised) ∧
    (∀ j stop, (step^[j] c).Raises stop → j = i) ∧
    (∃ k > i, step^[k] c = ⟨.ending (.stopped (.fault e)), [], m⟩) ∧
    e.fault = raised.fault ∧ e.token = raised.token.or (innermostToken? (step^[i] c).stack)

theorem endsAttributed {e : RuntimeError} {m : Machine} {k : Nat} (hc : c.control.stop? = none)
    (h : step^[k] c = ⟨.ending (.stopped (.fault e)), [], m⟩) : c.EndsAttributed e m := by
  obtain ⟨i, hi, stop, hraises⟩ := exists_raises (i := k) hc (by rw [h]; rfl)
  obtain ⟨j, rfl⟩ := Nat.exists_eq_add_of_le hi
  obtain ⟨stack, m₀, hstep, htoken⟩ := hraises.step_eq
  obtain ⟨m', hout⟩ := iterate_stopped stop stack m₀ j
  have hend : step^[j] (step (step^[i] c)) = ⟨.ending (.stopped (.fault e)), [], m⟩ := by
    rw [← h, Nat.add_comm, Function.iterate_add_apply, Function.iterate_succ_apply']
  rw [hstep, hout] at hend
  obtain ⟨hstop, hdrop, -⟩ := Moment.mk.inj hend
  have hstop : stop.attributedTo (innermostToken? (stack.take j)) = .fault e :=
    Ending.stopped.inj (Control.ending.inj hstop)
  rw [List.take_of_length_le (List.drop_eq_nil_iff.mp hdrop), htoken] at hstop
  cases stop with
  | fault raised =>
    obtain rfl := Stop.fault.inj hstop
    exact ⟨i, raised, hraises, fun j' stop' h' => hraises.unique h', ⟨_, hi, h⟩, rfl, rfl⟩
  | _ => cases hstop

/-- Where an error is reached, it is reached step by step: nothing was cut off. -/
theorem exists_iterate_of_reaches {e : RuntimeError} {m : Machine}
    (h : Reaches c ⟨.ending (.stopped (.fault e)), [], m⟩) :
    ∃ k, step^[k] c = ⟨.ending (.stopped (.fault e)), [], m⟩ := by
  induction h using Relation.ReflTransGen.head_induction_on with
  | refl => exact ⟨0, rfl⟩
  | head hmove _ ih =>
    obtain ⟨k, hk⟩ := ih
    cases hmove with
    | step c => exact ⟨k + 1, hk⟩
    | cutOff t stack m₁ =>
      obtain ⟨m', hout⟩ := iterate_stopped .outOfFuel stack m₁ k
      rw [hout] at hk
      cases hk

end Moment

theorem Does.endsAttributed {α : Type} {t : Task} {act : Eval α} {out : α → Ending}
    (h : Does (.task t) [] act out) {m m' : Machine} {e : RuntimeError}
    (hr : act m = .error (.fault e) m') : (⟨.task t, [], m⟩ : Moment).EndsAttributed e m' := by
  have hreaches := h [] m
  rw [hr] at hreaches
  obtain ⟨k, hk⟩ := exists_iterate_of_reaches hreaches
  exact Moment.endsAttributed rfl hk

/-- The error with which evaluation ended. -/
def errorOf? {α : Type} : EStateM.Result Stop Machine α → Option RuntimeError
  | .error (.fault err) _ => some err
  | _ => none

theorem exists_of_errorOf? {α : Type} {r : EStateM.Result Stop Machine α} {err : RuntimeError}
    (h : errorOf? r = some err) : ∃ m, r = .error (.fault err) m := by
  unfold errorOf? at h
  split at h
  next err' m => exact ⟨m, Option.some.inj h ▸ rfl⟩
  next => cases h

/-- **The tokens of errors.** If an expression, a statement or a program ends with an error, on any
machine, then one step of its evaluation raised it. Its fault is the one that was raised. Its token
is the one with which it was raised, if there was one; else it is that of the innermost call that
was active and has a token, and there is none if there is no such call. -/
theorem error_attribution (n : Nat) (m m' : Machine) (err : RuntimeError) :
    (∀ e, eval n e m = .error (.fault err) m' →
      (⟨.task (.expr e), [], m⟩ : Moment).EndsAttributed err m') ∧
    (∀ s, exec n s m = .error (.fault err) m' →
      (⟨.task (.stmt s), [], m⟩ : Moment).EndsAttributed err m') ∧
    ∀ program last, interpret n program last m = .error (.fault err) m' →
      (⟨.task (.program program last), [], m⟩ : Moment).EndsAttributed err m' :=
  ⟨fun e => ((stepwise n).expr e).endsAttributed, fun s => ((stepwise n).stmt s).endsAttributed,
    fun program last => (interpret_does n program last).endsAttributed⟩

/-- A function without a body is called from another one, by a call without a token. The error is
attributed to the call of the other function. -/
theorem error_attribution_outer :
    let f : Token := ⟨.identifier, "f", none, .start⟩
    let g : Token := ⟨.identifier, "g", none, .start⟩
    let paren : Token := ⟨.rightParen, ")", none, ⟨2, 3⟩⟩
    let s := Stmt.block [.funDecl ⟨1, f, [], .absent⟩,
      .funDecl ⟨2, g, [], .block [.expr (.call (.name f) none [])]⟩,
      .expr (.call (.name g) (some paren) [])]
    ∃ m', exec 20 s .new = .error (.fault ⟨.missingBlock, some paren⟩) m' ∧
      (⟨.task (.stmt s), [], .new⟩ : Moment).EndsAttributed ⟨.missingBlock, some paren⟩ m' := by
  intro f g paren s
  have hfails : errorOf? (exec 20 s .new) = some ⟨.missingBlock, some paren⟩ := by
    decide +kernel
  obtain ⟨m', hfails⟩ := exists_of_errorOf? hfails
  exact ⟨m', hfails, (error_attribution 20 .new m' _).2.1 s hfails⟩

end Dynascope
