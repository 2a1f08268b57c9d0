import Dynascope.Proofs.Eval.History
import Dynascope.Proofs.Eval.Objects
import Dynascope.Proofs.Eval.Stepwise

/-!
# The object store during runs

Machines are orderly at every moment of every run, with all values that evaluation has at hand.

* `Task.atHand`, `Ending.atHand`, `Pending.atHand`: the values that evaluation has at hand, apart
  from those of the machine.
* `Moment.Holds`: the values of a moment, in variables, in fields and at hand.
* `Moment.Orderly`: the invariant of a moment; `Orderly.step` and `Orderly.reaches` say that steps
  and runs keep it, and that objects only grow.
* `Moment.ObjectsInPlace`: what that means for references, classes and methods.
* `Machine.objects_in_place`: the object store over whole histories.
-/

namespace Dynascope

/-! ## Values at hand -/

/-- The values of a task. -/
def Task.atHand : Task → List Value
  | .call id args _ => .function id :: args
  | .code _ args => args
  | .receive _ args _ => args
  | .enter _ values _ => values
  | .construct cls args _ => .cls cls :: args
  | .setUp id cls args _ => .object id (some cls) :: args
  | .build _ superclass _ => superclass.toList.map .cls
  | .program _ last => last.toList
  | _ => []

/-- The function object that a task is about to run. -/
def Task.function? : Task → Option Function
  | .code f _ => some f
  | .receive f _ _ => some f
  | _ => none

/-- The values of an ending. -/
def Ending.atHand : Ending → List Value
  | .value v => [v]
  | .values vs => vs
  | .flow (.returned v) => [v]
  | .flow .normal => []
  | .result last => last.toList
  | .stopped stop => stop.values

/-- The values of what waits. -/
def Pending.atHand : Pending → List Value
  | .operation left _ => [left]
  | .application callee _ => [callee]
  | .firstArgument v => [v]
  | .field id cls _ => [.object id cls]
  | .constructed id cls => [.object id (some cls)]
  | .next _ last => last.toList
  | _ => []

/-- The values of what evaluation turns to next. -/
def Control.atHand : Control → List Value
  | .task t => t.atHand
  | .ending o => o.atHand

/-- The function object that is about to run. -/
def Control.function? : Control → Option Function
  | .task t => t.function?
  | .ending _ => none

/-- The values of a moment. -/
inductive Moment.Holds (c : Moment) : Value → Prop where
  | control {v : Value} (h : v ∈ c.control.atHand) : Holds c v
  | pending {p : Pending} {v : Value} (hp : p ∈ c.stack) (h : v ∈ p.atHand) : Holds c v
  | var {frame : Frame Value} {name : Text} {v : Value} (hf : frame ∈ c.machine.frames.toList)
      (h : (name, v) ∈ frame.vars.entries) : Holds c v
  | field {i : Nat} {x : Instance Value} {name : Text} {v : Value}
      (hx : c.machine.heap.instances[i]? = some x) (h : (name, v) ∈ x.fields.entries) : Holds c v

/-- The values are in their places. -/
def AllSit (m : Machine) (vs : List Value) : Prop :=
  ∀ v ∈ vs, v.Sits m

theorem allSit_nil {m : Machine} : AllSit m [] :=
  nofun

theorem allSit_cons {m : Machine} {v : Value} {vs : List Value} (hv : v.Sits m)
    (hvs : AllSit m vs) : AllSit m (v :: vs) :=
  List.forall_mem_cons.mpr ⟨hv, hvs⟩

theorem allSit_one {m : Machine} {v : Value} (hv : v.Sits m) : AllSit m [v] :=
  List.forall_mem_singleton.mpr hv

/-- The function object is one of the machine, in its place. -/
def Function.Sits (m : Machine) (f : Function) : Prop :=
  (∃ id, m.store.function? id = some f) ∧ f.Placed m.store

/-- All that evaluation turns to next is in its place. -/
structure Control.Sits (m : Machine) (c : Control) : Prop where
  values : AllSit m c.atHand
  function : ∀ f, c.function? = some f → f.Sits m

namespace Machine.Grows

variable {m m' : Machine}

theorem allSit (h : m.Grows m') {vs : List Value} (hvs : AllSit m vs) : AllSit m' vs :=
  fun v hv => h.sits (hvs v hv)

theorem function (h : m.Grows m') {f : Function} (hf : f.Sits m) : f.Sits m' :=
  ⟨hf.1.imp fun _ => h.store.functions, h.store.placed hf.2⟩

end Machine.Grows

/-! ## Steps -/

open Eval Machine

variable {m : Machine}

/-- From an orderly machine, a step leads to an orderly one with more objects, and all that it turns
to or leaves waiting is in its place. -/
def StepKeeps (first : Eval (Control × List Pending)) (m : Machine) : Prop :=
  Keeps first m fun next m' =>
    next.1.Sits m' ∧ AllSit m' (next.2.flatMap Pending.atHand)

namespace StepKeeps

variable {α : Type} {c : Control} {new : List Pending}

/-- A step that only turns to something else. -/
theorem turn (hc : AllSit m c.atHand)
    (hnew : AllSit m (new.flatMap Pending.atHand) := by exact allSit_nil)
    (hf : c.function? = none := by rfl) : StepKeeps (pure (c, new)) m := by
  refine Keeps.pure ⟨⟨hc, fun f hsome => ?_⟩, hnew⟩
  rw [hf] at hsome
  cases hsome

/-- A step that turns to a function object. -/
theorem turnTo {t : Task} {f : Function} (ht : AllSit m t.atHand) (hf : t.function? = some f)
    (hsits : f.Sits m) (hnew : AllSit m (new.flatMap Pending.atHand) := by exact allSit_nil) :
    StepKeeps (pure (.task t, new)) m := by
  refine Keeps.pure ⟨⟨ht, fun g hsome => ?_⟩, hnew⟩
  obtain rfl := Option.some.inj (hf.symm.trans hsome)
  exact hsits

theorem bind {act : Eval α} {f : α → Eval (Control × List Pending)} {Q : α → Machine → Prop}
    (h : Keeps act m Q) (hf : ∀ a m', m.Grows m' → Q a m' → StepKeeps (f a) m') :
    StepKeeps (act >>= f) m :=
  Keeps.bind h hf

theorem ite {b : Prop} [Decidable b] {yes no : Eval (Control × List Pending)}
    (hyes : StepKeeps yes m) (hno : StepKeeps no m) : StepKeeps (if b then yes else no) m := by
  split
  · exact hyes
  · exact hno

/-- The machine, which is orderly, is read first. -/
theorem get_bind {f : Machine → Eval (Control × List Pending)}
    (h : m.Orderly → StepKeeps (f m) m) : StepKeeps (MonadState.get >>= f) m :=
  Keeps.get_bind (Keeps.of_orderly h)

/-- The machine is changed first, except for heap and store. -/
theorem modify_bind {change : Machine → Machine} {f : PUnit → Eval (Control × List Pending)}
    (hheap : (change m).heap = m.heap) (hstore : (change m).store = m.store)
    (hframes : m.Orderly → (change m).frames.Each (Value.Sits m))
    (hf : ∀ m', m.Grows m' → StepKeeps (f ⟨⟩) m') : StepKeeps (modify change >>= f) m :=
  Keeps.bind (Q := fun _ _ => True) (Keeps.modify hheap hstore hframes trivial)
    fun _ m' hgrows _ => hf m' hgrows

/-- A computation whose value is the ending. -/
theorem done {act : Eval Value} (h : Keeps act m InPlace) :
    StepKeeps (act >>= fun v => pure (.ending (.value v), [])) m :=
  Keeps.bind h fun _ _ _ hv => turn (allSit_one hv)

end StepKeeps

theorem expr_keeps (e : Expr) : StepKeeps (Task.expr e).begin m := by
  cases e with
  | absent => exact .fail rfl
  | literal value =>
    cases value with
    | foreign n => exact .fail rfl
    | _ => exact .turn (allSit_one trivial)
  | superMethod keyword method => exact .done (superMethod_keeps _ _)
  | receiver keyword => exact .done (lookup_keeps _ _)
  | name name => exact .done (lookup_keeps _ _)
  | _ => exact .turn allSit_nil

theorem call_keeps {id : FunctionId} {args : List Value} (token : Option Token)
    (h : AllSit m (.function id :: args)) : StepKeeps (Task.call id args token).begin m := by
  obtain ⟨hid, hargs⟩ := List.forall_mem_cons.mp h
  obtain ⟨f, hf, hplaced⟩ := hid
  refine .get_bind fun _ => ?_
  rw [hf]
  dsimp only
  split
  · exact .fail rfl
  split
  · exact .fail rfl
  refine .modify_bind rfl rfl (fun hm => hm.frames) fun m' hgrows => ?_
  exact .turnTo (hgrows.allSit hargs) rfl (hgrows.function ⟨⟨id, hf⟩, hplaced⟩)

theorem code_keeps {f : Function} {args : List Value} (hf : f.Sits m) (hargs : AllSit m args) :
    StepKeeps (Task.code f args).begin m := by
  obtain ⟨name, params, code, this, owner⟩ := f
  cases code with
  | print =>
    cases args with
    | nil => exact .throw nofun
    | cons v rest =>
      refine .get_bind fun _ => .bind (write_keeps _) fun _ _ _ _ => ?_
      exact .turn (allSit_one trivial)
  | declared site body =>
    cases body with
    | block body =>
      refine .modify_bind rfl rfl (fun hm => hm.frames.push _) fun m' hgrows => ?_
      exact .turnTo (hgrows.allSit hargs) rfl (hgrows.function hf)
    | _ => exact .fail rfl

/-- The receiver is an instance of the machine, and the superclass one of its classes. -/
theorem receive_keeps (f : Function) {args : List Value} (body : List Stmt)
    (hargs : AllSit m args) : StepKeeps (Task.receive f args body).begin m := by
  rw [Task.begin]
  split
  next =>
    refine .get_bind fun hm => ?_
    cases hthis : m.heap.ref? f.this with
    | none => exact .fail rfl
    | some this =>
      obtain ⟨cls, rfl, hcls⟩ := Heap.ref?_eq_some hthis
      have hreceiver : (Value.object f.this (some cls)).Sits m := ⟨cls, rfl, hcls⟩
      cases hs : m.store.superclassOf? f with
      | some superclass =>
        have hparent : (Value.cls superclass).Sits m := hm.superclass_lt hs
        exact .turn (allSit_cons hreceiver (allSit_cons hparent hargs))
      | none => exact .turn (allSit_cons hreceiver hargs)
  next => exact .turn hargs

theorem stmt_keeps (s : Stmt) : StepKeeps (Task.stmt s).begin m := by
  cases s with
  | absent => exact .fail rfl
  | block body =>
    exact .modify_bind rfl rfl (fun hm => hm.frames.push _) fun _ _ => .turn allSit_nil
  | classDecl name superclass methods =>
    refine .bind (define_keeps trivial) fun _ m' _ _ => ?_
    cases superclass <;> exact .turn allSit_nil
  | funDecl decl =>
    refine .bind (newFunction_keeps nofun) fun id m' _ hid => ?_
    exact .turn (allSit_one ⟨_, hid.1, nofun⟩)
  | ret keyword value =>
    cases value with
    | absent => exact .turn (allSit_one trivial)
    | _ => exact .turn allSit_nil
  | varDecl name initial =>
    cases initial with
    | absent => exact .turn (allSit_one trivial)
    | _ => exact .turn allSit_nil
  | _ => exact .turn allSit_nil

/-- What the beginning of a task leads to. -/
theorem Task.begin_keeps (t : Task) (h : (Control.task t).Sits m) : StepKeeps t.begin m := by
  obtain ⟨hvalues, hfunction⟩ := h
  cases t with
  | expr e => exact expr_keeps e
  | exprs es => cases es <;> exact .turn allSit_nil
  | call id args token => exact call_keeps token hvalues
  | code f args => exact code_keeps (hfunction f rfl) hvalues
  | receive f args body => exact receive_keeps f body hvalues
  | enter names values body =>
    cases names with
    | nil => exact .turn allSit_nil
    | cons name names =>
      cases values with
      | nil => exact .throw nofun
      | cons value values =>
        obtain ⟨hvalue, hrest⟩ := List.forall_mem_cons.mp hvalues
        exact .bind (define_keeps hvalue) fun _ m' hgrows _ => .turn (hgrows.allSit hrest)
  | construct cls args token =>
    obtain ⟨-, hargs⟩ := List.forall_mem_cons.mp hvalues
    refine .bind (newInstance_keeps cls) fun id m' hgrows hid => ?_
    exact .turn (allSit_cons hid (hgrows.allSit hargs))
  | setUp id cls args token =>
    obtain ⟨hid, hargs⟩ := List.forall_mem_cons.mp hvalues
    refine .get_bind fun _ => .bind (boundMethod_keeps (some cls) initName hid) ?_
    intro f m' hgrows hf
    cases f with
    | function initializer =>
      exact .turn (allSit_cons hf (hgrows.allSit hargs)) (allSit_one (hgrows.sits hid))
    | _ => exact .turn (allSit_one (hgrows.sits hid))
  | stmt s => exact stmt_keeps s
  | build name superclass methods =>
    have hparent : ∀ parent, superclass = some parent → parent < m.store.classes.size := by
      rintro parent rfl
      exact hvalues (.cls parent) (List.mem_singleton_self _)
    refine .bind (required_keeps _) fun declared m' hgrows _ => ?_
    refine .bind (newClass_keeps _ (fun parent hp => ?_) _) fun id m'' _ hid => ?_
    · exact hgrows.sits (v := .cls parent) (hparent parent hp)
    · exact .turn (allSit_one hid)
  | stmts ss => cases ss <;> exact .turn allSit_nil
  | loop condition body => exact .turn allSit_nil
  | program ss last =>
    cases ss with
    | nil => exact .turn hvalues
    | cons s rest =>
      have hlast : AllSit m (last.toList ++ []) := by rwa [List.append_nil]
      cases s with
      | expr e => exact .turn allSit_nil
      | _ => exact .turn allSit_nil hlast

/-- What waits for something else passes an ending on. -/
theorem pass_keeps {o : Ending} (ho : AllSit m o.atHand) :
    StepKeeps (pure (.ending o, [])) m :=
  .turn ho

/-- What becomes of what waits. -/
theorem Pending.resume_keeps (p : Pending) (hp : AllSit m p.atHand) {o : Ending}
    (ho : AllSit m o.atHand) : StepKeeps (p.resume o) m := by
  cases p with
  | active token =>
    refine .modify_bind rfl rfl (fun hm => hm.frames) fun m' hgrows => ?_
    cases o with
    | stopped stop =>
      refine .turn ?_
      show AllSit m' (stop.attributedTo token).values
      rw [stop.values_attributedTo]
      exact hgrows.allSit ho
    | _ => exact pass_keeps (hgrows.allSit ho)
  | bodyEnd =>
    refine .modify_bind rfl rfl (fun hm => hm.frames.pop) fun m' hgrows => ?_
    cases o with
    | flow flow =>
      cases flow with
      | normal => exact .turn (allSit_one trivial)
      | returned v => exact .turn (hgrows.allSit ho)
    | _ => exact pass_keeps (hgrows.allSit ho)
  | blockEnd =>
    refine .modify_bind rfl rfl (fun hm => hm.frames.pop) fun m' hgrows => ?_
    exact pass_keeps (hgrows.allSit ho)
  | assign name =>
    cases o with
    | value v =>
      have hv := List.forall_mem_singleton.mp ho
      exact .bind (assign_keeps hv) fun _ _ hgrows _ => pass_keeps (hgrows.allSit ho)
    | _ => exact pass_keeps ho
  | rightOperand operator right =>
    cases o with
    | value l => exact .turn allSit_nil ho
    | _ => exact pass_keeps ho
  | operation l operator =>
    cases o with
    | value r =>
      exact .done (binaryOp_keeps (List.forall_mem_singleton.mp hp)
        (List.forall_mem_singleton.mp ho))
    | _ => exact pass_keeps ho
  | arguments paren es =>
    cases o with
    | value f => exact .turn allSit_nil ho
    | _ => exact pass_keeps ho
  | application f paren =>
    have hf := List.forall_mem_singleton.mp hp
    cases o with
    | values args =>
      cases f with
      | function id => exact .turn (allSit_cons hf ho)
      | cls id => exact .turn (allSit_cons hf ho)
      | _ => exact .fail rfl
    | _ => exact pass_keeps ho
  | furtherArguments rest =>
    cases o with
    | value v => exact .turn allSit_nil ho
    | _ => exact pass_keeps ho
  | firstArgument v =>
    have hv := List.forall_mem_singleton.mp hp
    cases o with
    | values vs => exact .turn (allSit_cons hv ho)
    | _ => exact pass_keeps ho
  | property name =>
    cases o with
    | value v =>
      have hv := List.forall_mem_singleton.mp ho
      cases v with
      | object id cls =>
        exact .bind (required_keeps _) fun x m' hgrows _ =>
          .done (property_keeps _ (hgrows.sits hv))
      | _ => exact .unexpected hv
    | _ => exact pass_keeps ho
  | decision operator right =>
    cases o with
    | value l =>
      refine .bind (decides_keeps operator l) fun decided m' hgrows _ => ?_
      cases decided with
      | true => exact .turn (hgrows.allSit ho)
      | false => exact .turn allSit_nil
    | _ => exact pass_keeps ho
  | fieldValue name value =>
    cases o with
    | value v =>
      cases v with
      | object id cls => exact .turn allSit_nil ho
      | _ => exact .unexpected (List.forall_mem_singleton.mp ho)
    | _ => exact pass_keeps ho
  | field id cls name =>
    cases o with
    | value v =>
      have hv := List.forall_mem_singleton.mp ho
      refine .bind (required_keeps _) fun x m' hgrows _ => ?_
      refine .bind (setField_keeps id x (hgrows.sits hv)) fun _ m'' hgrows' _ => ?_
      exact pass_keeps (hgrows'.allSit (hgrows.allSit ho))
    | _ => exact pass_keeps ho
  | operand operator =>
    cases o with
    | value r => exact .done (unaryOp_keeps (List.forall_mem_singleton.mp ho))
    | _ => exact pass_keeps ho
  | constructed id cls =>
    cases o with
    | value v => exact .turn hp
    | _ => exact pass_keeps ho
  | discard =>
    cases o with
    | value v => exact .turn allSit_nil
    | _ => exact pass_keeps ho
  | branches yes no =>
    cases o with
    | value c =>
      refine .ite (.turn allSit_nil) ?_
      cases no <;> exact .turn allSit_nil
    | _ => exact pass_keeps ho
  | ret =>
    cases o with
    | value v => exact .turn ho
    | _ => exact pass_keeps ho
  | define name =>
    cases o with
    | value v =>
      have hv := List.forall_mem_singleton.mp ho
      exact .bind (define_keeps hv) fun _ _ _ _ => .turn allSit_nil
    | _ => exact pass_keeps ho
  | superclass name parent methods =>
    cases o with
    | value v =>
      cases v with
      | cls id => exact .turn ho
      | _ => exact .unexpected (List.forall_mem_singleton.mp ho)
    | _ => exact pass_keeps ho
  | following rest =>
    cases o with
    | flow flow =>
      cases flow with
      | normal => exact .turn allSit_nil
      | returned v => exact pass_keeps ho
    | _ => exact pass_keeps ho
  | test condition body =>
    cases o with
    | value c => exact .ite (.turn allSit_nil) (.turn allSit_nil)
    | _ => exact pass_keeps ho
  | again condition body =>
    cases o with
    | flow flow =>
      cases flow with
      | normal => exact .turn allSit_nil
      | returned v => exact pass_keeps ho
    | _ => exact pass_keeps ho
  | keep rest =>
    cases o with
    | value v => exact .turn ho
    | _ => exact pass_keeps ho
  | next rest last =>
    cases o with
    | flow flow =>
      cases flow with
      | normal => exact .turn hp
      | returned v => exact .turn ho
    | _ => exact pass_keeps ho

/-! ## Moments -/

namespace Moment

/-- The machine is orderly, and all that evaluation has at hand is in its place. -/
structure Orderly (c : Moment) : Prop where
  machine : c.machine.Orderly
  control : c.control.Sits c.machine
  stack : AllSit c.machine (c.stack.flatMap Pending.atHand)

variable {c c' : Moment}

theorem orderly_ofStep {first : Eval (Control × List Pending)} {stack : List Pending} {m : Machine}
    (hm : m.Orderly) (h : StepKeeps first m) (hstack : AllSit m (stack.flatMap Pending.atHand)) :
    (ofStep stack (first m)).Orderly ∧ m.Grows (ofStep stack (first m)).machine := by
  have hstep := h hm
  unfold Ends at hstep
  cases hr : first m with
  | ok next m' =>
    rw [hr] at hstep
    obtain ⟨control, new⟩ := next
    obtain ⟨⟨horderly, hgrows⟩, hcontrol, hnew⟩ := hstep
    refine ⟨⟨horderly, hcontrol, ?_⟩, hgrows⟩
    show AllSit m' ((new ++ stack).flatMap Pending.atHand)
    rw [List.flatMap_append]
    exact List.forall_mem_append.mpr ⟨hnew, hgrows.allSit hstack⟩
  | error stop m' =>
    rw [hr] at hstep
    obtain ⟨⟨horderly, hgrows⟩, hstop⟩ := hstep
    exact ⟨⟨horderly, ⟨hstop, nofun⟩, hgrows.allSit hstack⟩, hgrows⟩

/-- **Steps keep order.** After a step all is in its place, and all objects are still there. -/
theorem Orderly.step (h : c.Orderly) : c.step.Orderly ∧ c.machine.Grows c.step.machine := by
  obtain ⟨control, stack, m⟩ := c
  obtain ⟨hm, hcontrol, hstack⟩ := h
  cases control with
  | task t => exact orderly_ofStep hm (t.begin_keeps hcontrol) hstack
  | ending o =>
    cases stack with
    | nil => exact ⟨⟨hm, hcontrol, hstack⟩, .refl m⟩
    | cons p stack =>
      obtain ⟨hp, hrest⟩ := List.forall_mem_append.mp hstack
      exact orderly_ofStep hm (p.resume_keeps hp hcontrol.values) hrest

theorem Orderly.moves (h : c.Orderly) (hmove : Moves c c') :
    c'.Orderly ∧ c.machine.Grows c'.machine := by
  cases hmove with
  | step => exact h.step
  | cutOff t stack m => exact ⟨⟨h.machine, ⟨nofun, nofun⟩, h.stack⟩, .refl m⟩

/-- Whole runs keep order. -/
theorem Orderly.reaches (h : c.Orderly) (hreach : Reaches c c') :
    c'.Orderly ∧ c.machine.Grows c'.machine := by
  induction hreach with
  | refl => exact ⟨h, .refl _⟩
  | tail _ hmove ih =>
    obtain ⟨horderly, hgrows⟩ := ih
    obtain ⟨hnext, hmore⟩ := horderly.moves hmove
    exact ⟨hnext, hgrows.trans hmore⟩

/-- A run begins with nothing at hand. -/
theorem orderly_opening {m : Machine} (hm : m.Orderly) (program : List Stmt) :
    (opening m program).Orderly :=
  ⟨⟨hm.frames, hm.fields, hm.bound, hm.descends, hm.owned⟩, ⟨nofun, nofun⟩, nofun⟩

/-- Every value of an orderly moment is in its place. -/
theorem Orderly.sits (h : c.Orderly) {v : Value} (hv : c.Holds v) : v.Sits c.machine := by
  cases hv with
  | control hv => exact h.control.values v hv
  | pending hp hv => exact h.stack v (List.mem_flatMap.mpr ⟨_, hp, hv⟩)
  | var hf hv => exact h.machine.frames _ hf _ hv
  | field hx hv => exact h.machine.fields _ _ hx _ hv

end Moment

namespace Machine

/-! ## Histories -/

/-- A new machine holds `print` and nothing else. -/
theorem orderly_new : new.Orderly where
  frames := by
    have hprint : Value.Sits new (.function 0) := ⟨printFunction, rfl, nofun⟩
    exact Frames.each_mk.mpr ⟨nofun, Bindings.Each.set .empty hprint⟩
  fields := nofun
  bound := by
    intro id f hf hbound
    rcases Store.function?_of_addFunction (s := .empty) hf with rfl | hnone
    · cases hbound
    · cases hnone
  descends := by
    rintro id parent ⟨c, hc, -⟩
    cases hc
  owned := by
    intro id c name method hc
    cases hc

theorem orderly_configured (limits : List Int) : (configured limits).Orderly := by
  obtain ⟨maxDepth, hc⟩ := configured_eq limits
  have hframes : (configured limits).frames.Each (Value.Sits new) := by
    rw [hc]
    exact orderly_new.frames
  exact (orderly_new.of_frames (by rw [hc]) (by rw [hc]) hframes).1

/-- If the first machine is orderly, so is the second, which has all its objects. -/
def KeepsOrder (m m' : Machine) : Prop :=
  m.Orderly → m'.Orderly ∧ m.Grows m'

instance : Std.Refl KeepsOrder :=
  ⟨fun m hm => ⟨hm, .refl m⟩⟩

instance : Trans KeepsOrder KeepsOrder KeepsOrder where
  trans h k hm := by
    obtain ⟨hm', hgrows⟩ := h hm
    obtain ⟨hm'', hmore⟩ := k hm'
    exact ⟨hm'', hgrows.trans hmore⟩

theorem interpret_keepsOrder (fuel : Nat) (program : List Stmt) :
    Along KeepsOrder (Eval.interpret fuel program none) := by
  intro m hm
  have hstart : (Moment.start program m).Orderly := ⟨hm, ⟨nofun, nofun⟩, nofun⟩
  have hreach := Eval.interpret_does fuel program none [] m
  obtain ⟨hlast, hgrows⟩ := hstart.reaches hreach
  cases hr : Eval.interpret fuel program none m with
  | ok value m' =>
    rw [hr] at hlast hgrows
    exact ⟨hlast.machine, hgrows⟩
  | error stop m' =>
    rw [hr] at hlast hgrows
    exact ⟨hlast.machine, hgrows⟩

theorem after_keepsOrder (m : Machine) (turns : List Turn) : KeepsOrder m (m.after turns) := by
  induction turns generalizing m with
  | nil => exact Std.Refl.refl m
  | cons turn rest ih =>
    have hturn : KeepsOrder m (m.perform turn) :=
      rel_perform (fun _ _ hm => hm.of_frames rfl rfl hm.frames)
        (fun _ _ hm => hm.of_frames rfl rfl hm.frames) interpret_keepsOrder m turn
    exact Trans.trans hturn (ih (m.perform turn))

end Machine

/-! ## The object store -/

/-- The function objects of a moment: those of its values, the one that is about to run, and the
methods of classes. -/
inductive Moment.HoldsFunction (c : Moment) : Function → Prop where
  | value {id : FunctionId} {f : Function} (h : c.Holds (.function id))
      (hf : c.machine.store.function? id = some f) : HoldsFunction c f
  | running {f : Function} (h : c.control.function? = some f) : HoldsFunction c f
  | method {id : ClassId} {k : Class} {name : Text} {method : FunctionId} {f : Function}
      (hk : c.machine.store.class? id = some k) (hm : k.methods.get? name = some method)
      (hf : c.machine.store.function? method = some f) : HoldsFunction c f

/-- A value or a bound function of the moment refers to the instance. -/
def Moment.RefersTo (c : Moment) (id : InstanceId) : Prop :=
  (∃ cls, c.Holds (.object id cls)) ∨
    ∃ fid f, c.machine.store.function? fid = some f ∧ f.isBound = true ∧ f.this = id

/-- What holds of the objects at a moment. -/
structure Moment.ObjectsInPlace (c : Moment) : Prop where
  /-- A reference to an instance has a number that was given out and the class recorded for it. -/
  instances : ∀ id cls, c.Holds (.object id cls) →
    1 ≤ id ∧ id ≤ c.machine.heap.size ∧ cls.isSome ∧ c.machine.heap.classOf? id = cls
  /-- A function is bound to an instance that exists. -/
  bound : ∀ id f, c.machine.store.function? id = some f → f.isBound = true →
    1 ≤ f.this ∧ f.this ≤ c.machine.heap.size
  /-- No class is its own ancestor. -/
  acyclic : ∀ cls, ¬ Relation.TransGen c.machine.store.Inherits cls cls
  /-- The way from a class to its superclass, and on from there, comes to an end. -/
  finite : WellFounded (flip c.machine.store.Inherits)
  /-- The search for a method goes all that way. -/
  search : ∀ id k name, c.machine.store.class? id = some k → c.machine.store.findMethod? id name =
    (k.methods.get? name).or (k.superclass.bind (c.machine.store.findMethod? · name))
  /-- A function value has an object. -/
  functions : ∀ id, c.Holds (.function id) → ∃ f, c.machine.store.function? id = some f
  /-- A function that has an owner is, up to its receiver, in the table of the owner under its
  name. -/
  methods : ∀ f, c.HoldsFunction f → f.Placed c.machine.store

namespace Moment

variable {c : Moment}

theorem Orderly.instance_bounds (h : c.Orderly) {id : InstanceId} {cls : Option ClassId}
    (hv : c.Holds (.object id cls)) :
    1 ≤ id ∧ id ≤ c.machine.heap.size ∧ cls.isSome ∧ c.machine.heap.classOf? id = cls := by
  obtain ⟨k, rfl, hk⟩ := h.sits hv
  obtain ⟨hpos, hle⟩ := Heap.bounds_of_classOf? hk
  exact ⟨hpos, hle, rfl, hk⟩

theorem Orderly.this_bounds (h : c.Orderly) {id : FunctionId} {f : Function}
    (hf : c.machine.store.function? id = some f) (hb : f.isBound = true) :
    1 ≤ f.this ∧ f.this ≤ c.machine.heap.size := by
  obtain ⟨k, hk⟩ := h.machine.bound hf hb
  exact Heap.bounds_of_classOf? hk

theorem Orderly.placed (h : c.Orderly) {f : Function} (hf : c.HoldsFunction f) :
    f.Placed c.machine.store := by
  cases hf with
  | value hv hf =>
    obtain ⟨g, hg, hplaced⟩ := h.sits hv
    obtain rfl := Option.some.inj (hf.symm.trans hg)
    exact hplaced
  | running hf => exact (h.control.function f hf).2
  | @method id k name method _ hk hm hf =>
    obtain ⟨g, hg, hname, howner, hthis⟩ := h.machine.owned id k name method hk hm
    obtain rfl := Option.some.inj (hf.symm.trans hg)
    intro owner howner'
    obtain rfl : owner = id := Option.some.inj (howner'.symm.trans howner)
    refine ⟨k, method, hk, hname ▸ hm, ?_⟩
    rw [hf, Function.bind, ← hthis]

theorem Orderly.objectsInPlace (h : c.Orderly) : c.ObjectsInPlace where
  instances _ _ := h.instance_bounds
  bound _ _ := h.this_bounds
  acyclic := h.machine.descends.not_ancestor
  finite := h.machine.descends.wellFounded
  search _ _ name hk := h.machine.descends.findMethod?_eq hk name
  functions _ hv := (h.sits hv).imp fun _ hf => hf.1
  methods _ := h.placed

/-- Nothing refers to the number that the next instance gets. -/
theorem Orderly.not_refersTo (h : c.Orderly) : ¬ c.RefersTo (c.machine.heap.size + 1) := by
  rintro (⟨cls, hv⟩ | ⟨id, f, hf, hb, hthis⟩)
  · have hle := (h.instance_bounds hv).2.1
    exact absurd hle (Int.not_le.mpr (Int.lt_succ _))
  · have hle := (h.this_bounds hf hb).2
    rw [hthis] at hle
    exact absurd hle (Int.not_le.mpr (Int.lt_succ _))

end Moment

/-- A call of a class yields the instance that it made, whatever its initializer returns. -/
theorem Eval.instantiate_ok {fuel : Nat} {cls : ClassId} {args : List Value} {token : Option Token}
    {m m' : Machine} {v : Value} (h : instantiate fuel cls args token m = .ok v m') :
    v = .object (m.heap.size + 1) (some cls) := by
  have hends : Ends (instantiate fuel cls args token) m
      (fun v _ => v = .object (m.heap.size + 1) (some cls)) fun _ _ => True := by
    cases fuel with
    | zero => exact trivial
    | succ n =>
      have hnew : Ends (newInstance cls) m (fun id _ => id = m.heap.size + 1) fun _ _ => True := rfl
      refine Ends.bind hnew ?_
      rintro id m₁ rfl
      refine Ends.bind (Ends.any _ _) fun m₂ _ _ => Ends.bind (Ends.any _ _) fun f _ _ => ?_
      cases f with
      | function initializer => exact Ends.bind (Ends.any _ _) fun _ _ _ => rfl
      | _ => exact rfl
  rw [Ends, h] at hends
  exact hends

namespace Machine

/-- **The object store keeps its order.** On a machine with any limits and any history, at every
moment of a run, every object is in its place. From one moment to every later one, and from one run
to the next, no object goes away, and none changes its class, its superclass or its methods. And a
call of a class that succeeds yields a reference with the next number, to which nothing referred
when the instance was made. -/
theorem objects_in_place (limits : List Int) (turns : List Turn) (program : List Stmt) (c : Moment)
    (h : Moment.Reaches (.opening ((configured limits).after turns) program) c) :
    c.ObjectsInPlace ∧
    (((configured limits).after turns).Grows c.machine ∧
      (∀ c', Moment.Reaches c c' → c.machine.Grows c'.machine) ∧
      ∀ later,
        ((configured limits).after turns).Grows ((configured limits).after (turns ++ later))) ∧
    ∀ cls args token, c.control = .task (.construct cls args token) →
      ∀ fuel v m', Eval.instantiate fuel cls args token c.machine = .ok v m' →
        v = .object (c.machine.heap.size + 1) (some cls) ∧
        ¬ c.RefersTo (c.machine.heap.size + 1) ∧
        Moment.Reaches c ⟨.ending (.value v), c.stack, m'⟩ := by
  have hbefore := (after_keepsOrder _ turns (orderly_configured limits)).1
  obtain ⟨horderly, hgrows⟩ := (Moment.orderly_opening hbefore program).reaches h
  refine ⟨horderly.objectsInPlace, ⟨?_, fun c' hreach => (horderly.reaches hreach).2, ?_⟩, ?_⟩
  · exact ⟨hgrows.heap, hgrows.instances, hgrows.store⟩
  · intro later
    rw [after_append]
    exact (after_keepsOrder _ later hbefore).2
  · intro cls args token hcontrol fuel v m' hcall
    refine ⟨Eval.instantiate_ok hcall, horderly.not_refersTo, ?_⟩
    have hdoes := (Eval.stepwise fuel).construct cls args token c.stack c.machine
    rw [hcall, ← hcontrol] at hdoes
    exact hdoes

/-- A class is called a second time whose initializer stores the receiver in itself: the first
instance is there, and the second one gets a number to which nothing refers. -/
theorem objects_in_place_second :
    let c := Moment.step^[6] (.opening ((configured []).after [.run 40
      "class A \x7b init() \x7b this.me = this; \x7d \x7d var a = A();"])
      (parseProgram (tokenize "A();").1).statements)
    c.ObjectsInPlace ∧ c.machine.heap.size = 1 ∧ ¬ c.RefersTo 2 ∧
      ∃ m', Moment.Reaches c ⟨.ending (.value (.object 2 (some 0))), c.stack, m'⟩ := by
  intro c
  have hsize : c.machine.heap.size = 1 := by decide +kernel
  have hcall : (match c.control with
    | .task (.construct cls args token) =>
      cls == 0 && ((Eval.instantiate 20 cls args token).run' c.machine).isSome
    | _ => false) = true := by decide +kernel
  have hreach := Moment.reaches_iterate 6 (.opening ((configured []).after [.run 40
    "class A \x7b init() \x7b this.me = this; \x7d \x7d var a = A();"])
    (parseProgram (tokenize "A();").1).statements)
  obtain ⟨hplace, -, hfresh⟩ := objects_in_place [] _ _ c hreach
  clear_value c
  split at hcall
  next cls args token hcontrol =>
    rw [Bool.and_eq_true, beq_iff_eq] at hcall
    obtain ⟨rfl, hsome⟩ := hcall
    obtain ⟨v, hv⟩ := Option.isSome_iff_exists.mp hsome
    obtain ⟨m', hr⟩ := ok_of_run' hv
    obtain ⟨rfl, hnew, hlast⟩ := hfresh 0 args token hcontrol 20 v m' hr
    rw [hsize] at hnew hlast
    exact ⟨hplace, hsize, hnew, m', hlast⟩
  next => cases hcall

end Machine

end Dynascope
