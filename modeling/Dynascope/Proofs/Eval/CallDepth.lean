import Dynascope.Proofs.Eval.Operations
import Dynascope.Proofs.Eval.Stepwise

/-!
# The depth of calls

The machine counts the calls that are active, and a call beyond the limit is refused.

* `Stop.callDepth?`: the limit that a stop names, if a call was refused.
* `Quiet act`: the computation counts no call and refuses none. All operations of the machine are
  quiet (`Tidy.quiet`, `write_quiet`).
* `StepCounts`: what a step does to the number of calls; `Task.begin_counts` and
  `Pending.resume_counts` go through all steps.
* `Moment.Counted n`: the machine counts the active calls, of which there are at most `n`; every
  move keeps this.
-/

namespace Dynascope

/-- The limit that a stop names, if a call was refused. -/
def Stop.callDepth? : Stop → Option Int
  | .fault ⟨.callDepth limit, _⟩ => some limit
  | _ => none

/-- The limit that an ending names, if a call was refused. -/
def Ending.callDepth? : Ending → Option Int
  | .stopped stop => stop.callDepth?
  | _ => none

/-- The limit named at a moment, if a call was refused and evaluation is on its way out. -/
def Control.callDepth? : Control → Option Int
  | .ending o => o.callDepth?
  | .task _ => none

theorem Stop.IsPlain.callDepth?_eq_none {stop : Stop} (h : stop.IsPlain) :
    stop.callDepth? = none := by
  cases stop with
  | fault e =>
    obtain ⟨fault, place⟩ := e
    cases fault with
    | callDepth limit => exact h.elim
    | _ => rfl
  | _ => rfl

theorem Stop.callDepth?_attributedTo (stop : Stop) (token : Option Token) :
    (stop.attributedTo token).callDepth? = stop.callDepth? := by
  cases stop with
  | fault e =>
    obtain ⟨fault, place⟩ := e
    cases fault <;> rfl
  | _ => rfl

/-- The number of active calls and their limit are the same. -/
structure Machine.SameCalls (m m' : Machine) : Prop where
  depth : m'.depth = m.depth
  limit : m'.maxDepth = m.maxDepth

theorem Machine.SameCalls.refl (m : Machine) : SameCalls m m :=
  ⟨rfl, rfl⟩

theorem Machine.SameCalls.trans {m m' m'' : Machine} (h : SameCalls m m')
    (k : SameCalls m' m'') : SameCalls m m'' :=
  ⟨k.depth.trans h.depth, k.limit.trans h.limit⟩

namespace Eval

open Machine

variable {α : Type}

/-- However the computation ends, the number of calls and their limit are the same, and no call was
refused. -/
def Quiet (act : Eval α) : Prop :=
  ∀ m, Ends act m (fun _ m' => SameCalls m m')
    (fun stop m' => SameCalls m m' ∧ stop.callDepth? = none)

/-- A change of other parts of the machine. -/
theorem Quiet.of_modify {f : Machine → Machine} (h : ∀ m, SameCalls m (f m)) : Quiet (modify f) :=
  fun m => h m

/-- An operation that refuses no call. -/
theorem Tidy.quiet {act : Eval α} (h : Tidy act) : Quiet act := by
  intro m
  refine Ends.imp (h m) (fun _ _ hbeside => ⟨hbeside.depth, hbeside.limit⟩) ?_
  rintro stop m' ⟨hbeside, hplain⟩
  exact ⟨⟨hbeside.depth, hbeside.limit⟩, hplain.callDepth?_eq_none⟩

theorem write_quiet (text : Text) : Quiet (write text) := by
  intro m
  unfold Ends write
  cases m.writesLeft with
  | none => exact ⟨rfl, rfl⟩
  | some n =>
    cases n with
    | zero => exact ⟨⟨rfl, rfl⟩, rfl⟩
    | succ n => exact ⟨rfl, rfl⟩

end Eval

/-! ## Steps -/

open Eval Machine

/-- What a step does to the number of calls, where `old` is the limit named before it: it counts a
call for each end of a call that waits from then on, stays within the limit, and refuses a call
only at the limit. -/
def StepCounts (old : Option Int) (first : Eval (Control × List Pending)) : Prop :=
  ∀ m, Ends first m
    (fun next m' => m'.maxDepth = m.maxDepth ∧
      m'.depth = m.depth + next.2.countP Pending.isActive ∧
      (next.2.countP Pending.isActive ≠ 0 → m.maxDepth = 0 ∨ m'.depth ≤ m.maxDepth) ∧
      (next.1.callDepth? = none ∨ next.1.callDepth? = old))
    (fun stop m' => SameCalls m m' ∧ ∀ limit, stop.callDepth? = some limit →
      0 < m.maxDepth ∧ m.maxDepth ≤ m.depth ∧ limit = m.maxDepth)

namespace StepCounts

variable {α : Type} {old : Option Int} {c : Control} {new : List Pending}

/-- A step that only turns to something else. -/
theorem turn (hnew : new.countP Pending.isActive = 0)
    (hc : c.callDepth? = none ∨ c.callDepth? = old) : StepCounts old (pure (c, new)) :=
  fun m => ⟨rfl, by rw [hnew]; rfl, fun h => absurd hnew h, hc⟩

theorem throw {stop : Stop} (h : stop.callDepth? = none) :
    StepCounts old (MonadExcept.throw stop) :=
  fun m => ⟨.refl m, fun _ hlimit => nomatch h.symm.trans hlimit⟩

theorem bind {act : Eval α} {f : α → Eval (Control × List Pending)} (h : Quiet act)
    (hf : ∀ a, StepCounts old (f a)) : StepCounts old (act >>= f) := by
  intro m
  have hact := h m
  unfold Ends at hact ⊢
  cases hr : act m with
  | ok a m' =>
    rw [hr] at hact
    rw [ok_bind hr, ← hact.depth, ← hact.limit]
    refine Ends.imp (hf a m') (fun _ _ h => h) ?_
    rintro stop m'' ⟨hsame, hlimit⟩
    exact ⟨hact.trans hsame, hlimit⟩
  | error stop m' =>
    rw [hr] at hact
    rw [error_bind hr]
    exact ⟨hact.1, fun _ hlimit => nomatch hact.2.symm.trans hlimit⟩

theorem ite {b : Prop} [Decidable b] {yes no : Eval (Control × List Pending)}
    (hyes : StepCounts old yes) (hno : StepCounts old no) :
    StepCounts old (if b then yes else no) := by
  split
  · exact hyes
  · exact hno

/-- A computation whose result is an ending. -/
theorem done {act : Eval α} {out : α → Ending} (h : Quiet act)
    (hout : ∀ a, (out a).callDepth? = none) :
    StepCounts old (act >>= fun a => pure (.ending (out a), [])) :=
  bind h fun a => turn rfl (.inl (hout a))

end StepCounts

/-- Only a call is counted and can be refused. -/
theorem call_counts (id : FunctionId) (args : List Value) (token : Option Token) :
    StepCounts none (Task.call id args token).begin := by
  refine fun m => Ends.get_bind ?_
  cases m.store.function? id with
  | none => exact ⟨.refl m, nofun⟩
  | some f =>
    dsimp only
    by_cases hcount : args.length ≠ f.arity
    · rw [if_pos hcount]
      exact ⟨.refl m, nofun⟩
    rw [if_neg hcount]
    by_cases hdeep : (decide (0 < m.maxDepth) && decide (m.maxDepth ≤ m.depth)) = true
    · rw [if_pos hdeep]
      rw [Bool.and_eq_true, decide_eq_true_eq, decide_eq_true_eq] at hdeep
      exact ⟨.refl m, fun limit hlimit => ⟨hdeep.1, hdeep.2, (Option.some.inj hlimit).symm⟩⟩
    · rw [if_neg hdeep]
      rw [Bool.and_eq_true, decide_eq_true_eq, decide_eq_true_eq] at hdeep
      refine ⟨rfl, rfl, fun _ => ?_, .inl rfl⟩
      show m.maxDepth = 0 ∨ m.depth + 1 ≤ m.maxDepth
      omega

theorem expr_counts (e : Expr) : StepCounts none (Task.expr e).begin := by
  cases e with
  | absent => exact .throw rfl
  | literal value =>
    cases value with
    | foreign n => exact .throw rfl
    | _ => exact .turn rfl (.inl rfl)
  | superMethod keyword method => exact .done (superMethod_tidy _ _).quiet fun _ => rfl
  | receiver keyword => exact .done (lookup_tidy _ _).quiet fun _ => rfl
  | name name => exact .done (lookup_tidy _ _).quiet fun _ => rfl
  | _ => exact .turn rfl (.inl rfl)

theorem code_counts (f : Function) (args : List Value) :
    StepCounts none (Task.code f args).begin := by
  obtain ⟨name, params, code, this, owner⟩ := f
  cases code with
  | print =>
    cases args with
    | nil => exact .throw rfl
    | cons v rest =>
      exact .bind (fun m => .refl m) fun m => .bind (write_quiet _) fun _ => .turn rfl (.inl rfl)
  | declared site body =>
    cases body with
    | block body => exact .bind (.of_modify fun _ => ⟨rfl, rfl⟩) fun _ => .turn rfl (.inl rfl)
    | _ => exact .throw rfl

theorem receive_counts (f : Function) (args : List Value) (body : List Stmt) :
    StepCounts none (Task.receive f args body).begin := by
  rw [Task.begin]
  split
  · refine .bind (fun m => .refl m) fun m => ?_
    cases m.heap.ref? f.this with
    | none => exact .throw rfl
    | some this => cases m.store.superclassOf? f <;> exact .turn rfl (.inl rfl)
  · exact .turn rfl (.inl rfl)

theorem stmt_counts (s : Stmt) : StepCounts none (Task.stmt s).begin := by
  cases s with
  | absent => exact .throw rfl
  | block body => exact .bind (.of_modify fun _ => ⟨rfl, rfl⟩) fun _ => .turn rfl (.inl rfl)
  | classDecl name superclass methods =>
    refine .bind (define_tidy _ _).quiet fun _ => ?_
    cases superclass <;> exact .turn rfl (.inl rfl)
  | funDecl decl => exact .bind (newFunction_tidy _).quiet fun _ => .turn rfl (.inl rfl)
  | ret keyword value => cases value <;> exact .turn rfl (.inl rfl)
  | varDecl name initial => cases initial <;> exact .turn rfl (.inl rfl)
  | _ => exact .turn rfl (.inl rfl)

/-- What the beginning of a task does to the number of calls. -/
theorem Task.begin_counts (t : Task) : StepCounts none t.begin := by
  cases t with
  | expr e => exact expr_counts e
  | exprs es => cases es <;> exact .turn rfl (.inl rfl)
  | call id args token => exact call_counts id args token
  | code f args => exact code_counts f args
  | receive f args body => exact receive_counts f args body
  | enter names values body =>
    cases names with
    | nil => exact .turn rfl (.inl rfl)
    | cons name names =>
      cases values with
      | nil => exact .throw rfl
      | cons value values => exact .bind (define_tidy _ _).quiet fun _ => .turn rfl (.inl rfl)
  | construct cls args token => exact .bind (newInstance_tidy _).quiet fun _ => .turn rfl (.inl rfl)
  | setUp id cls args token =>
    refine .bind (fun m => .refl m) fun m => .bind (boundMethod_tidy _ _).quiet fun f => ?_
    cases f <;> exact .turn rfl (.inl rfl)
  | stmt s => exact stmt_counts s
  | build name superclass methods =>
    exact .bind (required_tidy _).quiet fun _ => .bind (newClass_tidy _ _ _).quiet fun _ =>
      .turn rfl (.inl rfl)
  | stmts ss => cases ss <;> exact .turn rfl (.inl rfl)
  | loop condition body => exact .turn rfl (.inl rfl)
  | program ss last =>
    cases ss with
    | nil => exact .turn rfl (.inl rfl)
    | cons s rest => cases s <;> exact .turn rfl (.inl rfl)

/-- What waits for something else passes an ending on. -/
theorem pass_counts (o : Ending) : StepCounts o.callDepth? (pure (.ending o, [])) :=
  .turn rfl (.inr rfl)

/-- What waits goes on without counting a call, unless a call ends. -/
theorem Pending.resume_counts (p : Pending) (hp : p.isActive = false) (o : Ending) :
    StepCounts o.callDepth? (p.resume o) := by
  cases p with
  | active token => cases hp
  | bodyEnd =>
    refine .bind (.of_modify fun _ => ⟨rfl, rfl⟩) fun _ => ?_
    cases o with
    | flow flow => cases flow <;> exact .turn rfl (.inl rfl)
    | _ => exact pass_counts _
  | blockEnd => exact .bind (.of_modify fun _ => ⟨rfl, rfl⟩) fun _ => pass_counts o
  | assign name =>
    cases o with
    | value v => exact .bind (assign_tidy _ _).quiet fun _ => pass_counts _
    | _ => exact pass_counts _
  | operation l operator =>
    cases o with
    | value r => exact .done (binaryOp_tidy _ _ _).quiet fun _ => rfl
    | _ => exact pass_counts _
  | application f paren =>
    cases o with
    | values args =>
      cases f with
      | function id => exact .turn rfl (.inl rfl)
      | cls id => exact .turn rfl (.inl rfl)
      | _ => exact .throw rfl
    | _ => exact pass_counts _
  | property name =>
    cases o with
    | value v =>
      cases v with
      | object id cls =>
        exact .bind (required_tidy _).quiet fun x => .done (property_tidy _ _ _).quiet fun _ => rfl
      | _ => exact .throw rfl
    | _ => exact pass_counts _
  | decision operator right =>
    cases o with
    | value l =>
      refine .bind (decides_tidy _ _).quiet fun decided => ?_
      cases decided <;> exact .turn rfl (.inl rfl)
    | _ => exact pass_counts _
  | fieldValue name value =>
    cases o with
    | value v =>
      cases v with
      | object id cls => exact .turn rfl (.inl rfl)
      | _ => exact .throw rfl
    | _ => exact pass_counts _
  | field id cls name =>
    cases o with
    | value v =>
      exact .bind (required_tidy _).quiet fun x => .bind (setField_tidy _ _ _).quiet fun _ =>
        pass_counts _
    | _ => exact pass_counts _
  | operand operator =>
    cases o with
    | value r => exact .done (unaryOp_tidy _ _).quiet fun _ => rfl
    | _ => exact pass_counts _
  | branches yes no =>
    cases o with
    | value c =>
      refine .ite (.turn rfl (.inl rfl)) ?_
      cases no <;> exact .turn rfl (.inl rfl)
    | _ => exact pass_counts _
  | define name =>
    cases o with
    | value v => exact .bind (define_tidy _ _).quiet fun _ => .turn rfl (.inl rfl)
    | _ => exact pass_counts _
  | superclass name parent methods =>
    cases o with
    | value v =>
      cases v with
      | cls id => exact .turn rfl (.inl rfl)
      | _ => exact .throw rfl
    | _ => exact pass_counts _
  | following rest =>
    cases o with
    | flow flow => cases flow <;> exact .turn rfl (.inl rfl)
    | _ => exact pass_counts _
  | test condition body =>
    cases o with
    | value c => exact .ite (.turn rfl (.inl rfl)) (.turn rfl (.inl rfl))
    | _ => exact pass_counts _
  | again condition body =>
    cases o with
    | flow flow => cases flow <;> exact .turn rfl (.inl rfl)
    | _ => exact pass_counts _
  | next rest last =>
    cases o with
    | flow flow => cases flow <;> exact .turn rfl (.inl rfl)
    | _ => exact pass_counts _
  | _ =>
    cases o with
    | stopped stop => exact pass_counts _
    | _ => exact .turn rfl (.inl rfl)

/-- The end of a call uncounts it and passes its ending on. -/
theorem Pending.resume_active (token : Option Token) (o : Ending) (m : Machine) :
    ∃ o', (Pending.active token).resume o m =
      .ok (.ending o', []) { m with depth := m.depth - 1 } ∧ o'.callDepth? = o.callDepth? := by
  cases o with
  | stopped stop => exact ⟨_, rfl, stop.callDepth?_attributedTo token⟩
  | _ => exact ⟨_, rfl, rfl⟩

/-! ## Moments -/

namespace Moment

/-- The machine counts the active calls, its limit is `n`, and there are no more active calls. -/
structure Counted (n : Nat) (c : Moment) : Prop where
  depth : c.machine.depth = c.activeCalls
  limit : c.machine.maxDepth = n
  bounded : c.activeCalls ≤ n

variable {n : Nat} {c c' : Moment}

/-- A call is refused only if the limit is reached, and the limit is named. -/
def RefusesAt (n : Nat) (c : Moment) : Prop :=
  ∀ limit, c.control.callDepth? = none → c.step.control.callDepth? = some limit →
    c.activeCalls = n ∧ limit = n

theorem counted_ofStep {old : Option Int} {first : Eval (Control × List Pending)}
    {stack : List Pending} {m : Machine} (hn : 0 < n) (h : StepCounts old first)
    (hdepth : m.depth = stack.countP Pending.isActive) (hlimit : m.maxDepth = n)
    (hbounded : stack.countP Pending.isActive ≤ n) :
    (ofStep stack (first m)).Counted n ∧
      ∀ limit, old = none → (ofStep stack (first m)).control.callDepth? = some limit →
        stack.countP Pending.isActive = n ∧ limit = n := by
  have hstep := h m
  unfold Ends at hstep
  cases hr : first m with
  | ok next m' =>
    rw [hr] at hstep
    obtain ⟨control, new⟩ := next
    obtain ⟨hlimit', hcount, hroom, hold⟩ := hstep
    have hcalls : (new ++ stack).countP Pending.isActive =
        new.countP Pending.isActive + stack.countP Pending.isActive := List.countP_append
    refine ⟨⟨?_, hlimit'.trans hlimit, ?_⟩, ?_⟩
    · show m'.depth = (new ++ stack).countP Pending.isActive
      dsimp only at hcount
      omega
    · show (new ++ stack).countP Pending.isActive ≤ n
      dsimp only at hcount hroom
      omega
    · rintro limit rfl hrefused
      rw [or_self] at hold
      cases hold.symm.trans hrefused
  | error stop m' =>
    rw [hr] at hstep
    obtain ⟨hsame, hrefuses⟩ := hstep
    refine ⟨⟨hsame.depth.trans hdepth, hsame.limit.trans hlimit, hbounded⟩, ?_⟩
    rintro limit - hrefused
    obtain ⟨-, hdeep, rfl⟩ := hrefuses limit hrefused
    exact ⟨by omega, by rw [hlimit]⟩

/-- **Calls are counted.** A step keeps the count and the bound, and refuses a call only at the
limit. -/
theorem Counted.step (hn : 0 < n) (h : c.Counted n) : c.step.Counted n ∧ c.RefusesAt n := by
  obtain ⟨control, stack, m⟩ := c
  obtain ⟨hdepth, hlimit, hbounded⟩ := h
  cases control with
  | task t =>
    obtain ⟨hnext, hrefuses⟩ := counted_ofStep hn t.begin_counts hdepth hlimit hbounded
    exact ⟨hnext, fun limit _ => hrefuses limit rfl⟩
  | ending o =>
    cases stack with
    | nil =>
      refine ⟨⟨hdepth, hlimit, hbounded⟩, ?_⟩
      intro limit hnone hrefused
      cases hnone.symm.trans hrefused
    | cons p stack =>
      by_cases hp : p.isActive = true
      · obtain ⟨token, rfl⟩ : ∃ token, p = .active token := by
          cases p with
          | active token => exact ⟨token, rfl⟩
          | _ => cases hp
        obtain ⟨o', hresume, hsame⟩ := Pending.resume_active token o m
        have hcalls : activeCalls ⟨.ending o, .active token :: stack, m⟩ =
            stack.countP Pending.isActive + 1 := List.countP_cons_of_pos rfl
        have hstep : Moment.step ⟨.ending o, .active token :: stack, m⟩ =
            ⟨.ending o', stack, { m with depth := m.depth - 1 }⟩ := by
          rw [Moment.step, hresume]
          rfl
        rw [hcalls] at hdepth hbounded
        have hbefore : m.depth - 1 = stack.countP Pending.isActive := Nat.sub_eq_of_eq_add hdepth
        refine ⟨?_, fun limit hnone hrefused => ?_⟩
        · rw [hstep]
          exact ⟨hbefore, hlimit, Nat.le_of_succ_le hbounded⟩
        · rw [hstep] at hrefused
          cases (hsame.trans hnone).symm.trans hrefused
      · have hcalls : activeCalls ⟨.ending o, p :: stack, m⟩ = stack.countP Pending.isActive :=
          List.countP_cons_of_neg hp
        rw [hcalls] at hdepth hbounded
        have hresume := p.resume_counts (Bool.not_eq_true _ ▸ hp) o
        obtain ⟨hnext, hrefuses⟩ := counted_ofStep hn hresume hdepth hlimit hbounded
        refine ⟨hnext, ?_⟩
        intro limit hnone hrefused
        rw [hcalls]
        exact hrefuses limit hnone hrefused

theorem Counted.moves (hn : 0 < n) (h : c.Counted n) (hmove : Moves c c') : c'.Counted n := by
  cases hmove with
  | step => exact (h.step hn).1
  | cutOff t stack m => exact ⟨h.depth, h.limit, h.bounded⟩

theorem Counted.reaches (hn : 0 < n) (h : c.Counted n) (hreach : Reaches c c') :
    c'.Counted n := by
  induction hreach with
  | refl => exact h
  | tail _ hmove ih => exact ih.moves hn hmove

/-- No call is active when a run begins. -/
theorem counted_opening {m : Machine} (program : List Stmt) (hdepth : m.depth = 0) :
    (opening m program).Counted m.maxDepth :=
  ⟨hdepth, rfl, Nat.zero_le _⟩

end Moment

end Dynascope
