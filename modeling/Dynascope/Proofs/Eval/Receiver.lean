import Dynascope.Proofs.Eval.Framed
import Dynascope.Proofs.Store.Resolution

/-!
# Receivers and methods

Names are looked up through the frames of all calls, and yet a method finds its own receiver: no
frame above that of its body binds the name, as long as no other body runs.

* `Resolves`: which method is meant by a name, looked for from a class on and bound to an instance.
* `Moment.InBody f call first c`: at `c` the body of `f` runs, which began at `first`.
* `Moment.Inside`: what stays as it is while a body runs; `Inside.moves` is the step, and
  `InBody.inside` the run.
* `Moment.FindsReceiver`, `Moment.FindsMethods`: what evaluation finds in a body and elsewhere.
* `Machine.receivers_in_place`: both over whole histories.
-/

namespace Dynascope

open Eval Machine

/-! ## Methods -/

/-- What a name means that is looked for from a class on and bound to an instance: a new copy of the
method of the nearest class that has one, which owns it, or nil if there is none. -/
inductive Resolves (m : Machine) (start : ClassId) (name : Text) (id : InstanceId) :
    Value → Machine → Prop where
  | found {owner : ClassId} {method : FunctionId} {f : Function}
      (hnear : m.store.Nearest name start owner method) (hf : m.store.function? method = some f)
      (hname : f.name = name) (howner : f.owner = some owner) :
    Resolves m start name id (.function m.store.functions.size)
      { m with store := (m.store.addFunction (f.bind id)).2 }
  | missing (h : ∀ owner, Relation.ReflTransGen m.store.Inherits start owner →
      m.store.ownMethod? name owner = none) : Resolves m start name id .nil m

namespace Eval

variable {m : Machine} {name : Text} {id : InstanceId}

theorem lookup_eq {v : Value} (h : m.frames.get? name = some v) (token : Option Token) :
    lookup name token m = .ok v m := by
  rw [lookup, get_bind_apply, h]
  rfl

theorem boundMethod_some {method : Option FunctionId} {f : Function}
    (h : method.bind m.store.function? = some f) : boundMethod method id m =
      .ok (.function m.store.functions.size)
        { m with store := (m.store.addFunction (f.bind id)).2 } := by
  rw [boundMethod, get_bind_apply, h]
  rfl

theorem boundMethod_none : boundMethod none id m = .ok .nil m :=
  rfl

theorem boundMethod_resolves (hm : m.Orderly) (start : ClassId) (name : Text) (id : InstanceId) :
    ∃ v m', boundMethod (m.store.findMethod? start name) id m = .ok v m' ∧
      Resolves m start name id v m' := by
  rcases hm.descends.findMethod?_cases name start with
    ⟨owner, method, hnear, hfind⟩ | ⟨hall, hfind⟩
  · obtain ⟨c, hc, hget⟩ := Option.bind_eq_some_iff.mp hnear.ownMethod?
    obtain ⟨f, hf, hname, howner, -⟩ := hm.owned owner c name method hc hget
    rw [hfind]
    exact ⟨_, _, boundMethod_some hf, .found hnear hf hname howner⟩
  · rw [hfind]
    exact ⟨_, _, boundMethod_none, .missing hall⟩

/-- A field comes before all methods. -/
theorem property_field {v : Value} (h : m.heap.field? id name = some v) (cls : Option ClassId) :
    property id cls name m = .ok v m := by
  rw [property, get_bind_apply, h]
  rfl

theorem property_method (h : m.heap.field? id name = none) (cls : ClassId) :
    property id (some cls) name m = boundMethod (m.store.findMethod? cls name) id m := by
  rw [property, get_bind_apply, h]
  rfl

theorem superMethod_eq {superclass : ClassId} {cls : Option ClassId}
    (hsuper : m.frames.get? superName = some (.cls superclass))
    (hthis : m.frames.get? thisName = some (.object id cls)) (keyword : Option Token)
    (method : Token) : superMethod keyword method m =
      boundMethod (m.store.findMethod? superclass method.lexeme) id m := by
  unfold superMethod
  rw [ok_bind (lookup_eq hsuper keyword)]
  show (lookup thisName keyword >>= _) m = _
  rw [ok_bind (lookup_eq hthis keyword)]
  rfl

end Eval

/-! ## Bodies -/

/-- The function of a call that is about to define its receiver. -/
def Control.callee? : Control → Option Function
  | .task (.receive f _ _) => some f
  | _ => none

theorem Control.exists_receive {c : Control} {f : Function} (h : c.callee? = some f) :
    ∃ args body, c = .task (.receive f args body) := by
  unfold callee? at h
  split at h
  next g args body =>
    obtain rfl := Option.some.inj h
    exact ⟨args, body, rfl⟩
  next => cases h

/-- Whether statements are about to run. -/
def Control.isStmts : Control → Bool
  | .task (.stmts _) => true
  | _ => false

theorem Control.exists_stmts {c : Control} (h : c.isStmts = true) :
    ∃ body, c = .task (.stmts body) := by
  unfold isStmts at h
  split at h
  next body => exact ⟨body, rfl⟩
  next => cases h

/-- Whether it is the end of a body that waits. -/
def Pending.endsBody : Pending → Bool
  | .bodyEnd => true
  | _ => false

namespace Moment

/-- The number of bodies that run. -/
def bodies (c : Moment) : Nat :=
  c.stack.countP Pending.endsBody

/-- A move of the prologue of a call, which defines its receiver and its parameters. -/
def MovesInPrologue (c c' : Moment) : Prop :=
  c.control.isPrologue = true ∧ Moves c c'

/-- A move after which no less waits than `height`. -/
def MovesAbove (height : Nat) (c c' : Moment) : Prop :=
  Moves c c' ∧ height ≤ c'.stack.length

/-- At `c` the body of `f` runs, outside of the bodies of other calls: the call is about to define
its receiver at `call`, its body begins at `first`, and since then the end of the body has waited
and no other body has begun that still runs. -/
structure InBody (f : Function) (call first c : Moment) : Prop where
  receives : call.control.callee? = some f
  prologue : Relation.ReflTransGen MovesInPrologue call first
  begun : first.control.isStmts = true
  inside : Relation.ReflTransGen (MovesAbove first.stack.length) first c
  alone : c.bodies = first.bodies

/-- In the body of `f`: the receiver is the instance to which `f` is bound, and methods of the
superclass are looked for from the superclass of the owner of `f` on. -/
structure FindsReceiver (f : Function) (c : Moment) : Prop where
  this : ∀ fuel keyword, eval (fuel + 1) (.receiver keyword) c.machine =
    .ok (.object f.this (c.machine.heap.classOf? f.this)) c.machine
  superclass : ∀ superclass, c.machine.store.superclassOf? f = some superclass →
    ∀ fuel keyword method, ∃ v m',
      eval (fuel + 1) (.superMethod keyword method) c.machine = .ok v m' ∧
        Resolves c.machine superclass method.lexeme f.this v m'

/-! ## While a body runs -/

/-- What waited when a body began still waits, below what waits since; and the frames there at that
time have the same roles, below the frames of what waits since. -/
def Inside (below : List Pending) (lower : List Role) (c : Moment) : Prop :=
  ∃ new upper, c.stack = new ++ below ∧ c.roles = upper ++ lower ∧
    upper.length = new.countP Pending.endsFrame ∧ (c.control.isPrologue = true → new ≠ [])

variable {D : FunDecl → Prop} {f : Function} {c c' : Moment} {below : List Pending}
  {lower : List Role}

/-- Nothing waits in place of the end of a body. -/
theorem stack_step_bodyEnd (o : Ending) (stack : List Pending) (m : Machine) :
    (step ⟨.ending o, .bodyEnd :: stack, m⟩).stack = stack := by
  cases o with
  | flow flow => cases flow <;> rfl
  | _ => rfl

/-- What is resumed has begun to wait since, unless the body ends. -/
theorem exists_waiting {new rest : List Pending} (hstack : c.stack = new ++ .bodyEnd :: rest)
    (hheight : rest.length < c.step.stack.length) :
    ∃ new', new = c.resumed ++ new' ∧ c.waiting = new' ++ .bodyEnd :: rest := by
  obtain ⟨control, stack, m⟩ := c
  have hstack : stack = new ++ .bodyEnd :: rest := hstack
  subst hstack
  cases control with
  | task t => exact ⟨new, rfl, rfl⟩
  | ending o =>
    cases new with
    | nil =>
      rw [List.nil_append, stack_step_bodyEnd] at hheight
      exact absurd hheight (Nat.lt_irrefl _)
    | cons p new => exact ⟨new, rfl, rfl⟩

/-- While the end of a body waits, the roles of its frame and of those below it stay. -/
theorem Inside.moves {rest : List Pending} (h : c.Inside (.bodyEnd :: rest) lower)
    (hframed : c.Framed D) (hmove : MovesAbove (rest.length + 1) c c') :
    c'.Inside (.bodyEnd :: rest) lower := by
  obtain ⟨new, upper, hstack, hroles, hlength, hprologue⟩ := h
  obtain ⟨hmove, hheight⟩ := hmove
  cases hmove with
  | cutOff t stack m => exact ⟨new, upper, hstack, hroles, hlength, nofun⟩
  | step =>
    cases hp : c.control.isPrologue with
    | true =>
      -- Another call defines its receiver, in the frame of its own body.
      obtain ⟨-, hsame, r, r', roles, hr, hr'⟩ := hframed.step_prologue hp
      obtain ⟨waiting, htop⟩ := hframed.prologue hp
      cases new with
      | nil => exact absurd rfl (hprologue hp)
      | cons p new =>
        obtain ⟨rfl, -⟩ := List.cons.inj (htop.symm.trans hstack)
        cases upper with
        | nil =>
          rw [List.countP_cons_of_pos rfl] at hlength
          cases hlength
        | cons u upper =>
          obtain ⟨rfl, rfl⟩ := List.cons.inj (hr.symm.trans hroles)
          exact ⟨.bodyEnd :: new, r' :: upper, hsame.trans hstack, hr', hlength,
            fun _ => List.cons_ne_nil _ _⟩
    | false =>
      obtain ⟨-, more, hnext⟩ := hframed.toStems.step hp
      obtain ⟨new', rfl, hwaiting⟩ := exists_waiting hstack hheight
      rw [List.countP_append] at hlength
      refine ⟨more ++ new', List.replicate (more.countP Pending.endsFrame) .plain ++
        upper.drop (c.resumed.countP Pending.endsFrame), ?_, ?_, ?_, fun hprologue' => ?_⟩
      · rw [hnext.stack, hwaiting, List.append_assoc]
      · rw [hnext.roles, hroles, List.drop_append_of_le_length (by omega), List.append_assoc]
      · rw [List.length_append, List.length_replicate, List.length_drop, List.countP_append]
        omega
      · obtain ⟨rfl, -⟩ := hnext.prologue hprologue'
        exact List.cons_ne_nil _ _

/-! ## The prologue of a bound method -/

end Moment

/-- The role after some definitions. -/
def Role.settle (r : Role) (es : List (Text × Value)) : Role :=
  es.foldl (fun r e => r.set e.1 e.2) r

theorem Role.settle_ordinary {es : List (Text × Value)} (h : ∀ e ∈ es, Ordinary e.1) (r : Role) :
    r.settle es = r := by
  induction es with
  | nil => rfl
  | cons e es ih =>
    rw [List.forall_mem_cons] at h
    show (r.set e.1 e.2).settle es = r
    rw [Role.set_ordinary h.1]
    exact ih h.2

/-- The frame binds the instance to which a function is bound and, if there is one, the superclass
of its owner. -/
structure Role.Receives (m : Machine) (f : Function) (r : Role) : Prop where
  this : r.this = some (.object f.this (m.heap.classOf? f.this))
  superclass : ∀ s, m.store.superclassOf? f = some s → r.superclass = some (.cls s)

theorem Heap.ref?_of_classOf? {h : Heap Value} {id : InstanceId} {cls : ClassId}
    (hc : h.classOf? id = some cls) : h.ref? id = some (.object id (some cls)) := by
  obtain ⟨x, hx, rfl⟩ := Option.map_eq_some_iff.mp hc
  rw [Heap.ref?, hx]
  rfl

namespace Moment

variable {D : FunDecl → Prop} {f : Function} {c c' : Moment}

theorem settle_receiverBindings (hf : f.Stems D) {m : Machine} {cls : ClassId}
    (hcls : m.heap.classOf? f.this = some cls) (r : Role) (args : List Value) :
    (r.settle
      (receiverBindings m f (.object f.this (some cls)) ++ f.params.zip args)).Receives m f := by
  have hparams : ∀ e ∈ f.params.zip args, Ordinary e.1 :=
    fun e he => hf.params e.1 (List.of_mem_zip he).1
  have hsplit : r.settle (receiverBindings m f (.object f.this (some cls)) ++ f.params.zip args) =
      r.settle (receiverBindings m f (.object f.this (some cls))) :=
    List.foldl_append.trans (Role.settle_ordinary hparams _)
  rw [hsplit]
  unfold receiverBindings
  cases hs : m.store.superclassOf? f with
  | none =>
    show Role.Receives m f (r.set thisName _)
    rw [Role.set_this]
    exact ⟨by rw [hcls], fun s hsome => nomatch hs.symm.trans hsome⟩
  | some s =>
    show Role.Receives m f ((r.set thisName _).set superName _)
    rw [Role.set_this, Role.set_super]
    refine ⟨by rw [hcls], fun s' hsome => ?_⟩
    rw [Option.some.inj (hs.symm.trans hsome)]

/-- The call of a bound method on its way to the body: when all is defined, the frame of the body
binds the receiver. -/
def Prepares (f : Function) (m : Machine) (c : Moment) : Prop :=
  match c.control with
  | .task (.receive g _ _) => g = f ∧ c.machine = m
  | .task (.enter names values _) =>
    ∃ r rest, c.roles = r :: rest ∧ (r.settle (names.zip values)).Receives m f
  | .task (.stmts _) => ∃ r rest, c.roles = r :: rest ∧ r.Receives m f
  | _ => True

theorem Prepares.moves {m : Machine} (h : c.Prepares f m) (hframed : c.Framed D)
    (hb : f.isBound = true) {cls : ClassId} (hcls : m.heap.classOf? f.this = some cls)
    (hmove : MovesInPrologue c c') : c'.Prepares f m ∧ c'.stack = c.stack := by
  obtain ⟨hp, hmove⟩ := hmove
  cases hmove with
  | cutOff t stack m => exact ⟨trivial, rfl⟩
  | step =>
    refine ⟨?_, (hframed.step_prologue hp).2.1⟩
    obtain ⟨r, rest, hroles, -⟩ := hframed.exists_role hp
    obtain ⟨control, stack, machine⟩ := c
    cases control with
    | ending o => cases hp
    | task t =>
      cases t with
      | receive g args body =>
        obtain ⟨rfl, rfl⟩ := h
        rw [step_receive_bound hb (Heap.ref?_of_classOf? hcls)]
        refine ⟨r, rest, hroles, ?_⟩
        rw [zip_receiverBindings]
        exact settle_receiverBindings (hframed.control.function g rfl) hcls r args
      | enter names values body =>
        obtain ⟨r, rest, hroles, hreceives⟩ := h
        cases names with
        | nil => exact ⟨r, rest, hroles, hreceives⟩
        | cons name names =>
          cases values with
          | nil => trivial
          | cons value values =>
            cases hd : machine.frames.define? name value with
            | none =>
              rw [step_enter_unnamed hd]
              trivial
            | some frames =>
              rw [step_enter hd]
              exact ⟨_, rest, (Frames.roles_define?_cons hd hroles).1, hreceives⟩
      | _ => cases hp

/-- The frames of blocks have no role. -/
theorem plain_of_fits {stack : List Pending} {roles : List Role}
    (h : List.Forall₂ Pending.Fits (frameEnds stack) roles)
    (hnone : stack.countP Pending.endsBody = 0) : ∀ r ∈ roles, r = .plain := by
  intro r hr
  obtain ⟨p, hp, hfits⟩ := exists_fits h hr
  obtain ⟨hmem, hends⟩ := List.mem_filter.mp hp
  have hbody := List.countP_eq_zero.mp hnone p hmem
  cases p with
  | blockEnd => exact hfits
  | bodyEnd => exact absurd rfl hbody
  | _ => cases hends

/-- While a body runs alone, no frame above its own has a role, and its own binds the receiver. -/
theorem InBody.exists_role {call first : Moment} (h : InBody f call first c)
    (hframed : call.Framed D) (hb : f.isBound = true) {cls : ClassId}
    (hcls : call.machine.heap.classOf? f.this = some cls) :
    ∃ upper r rest, c.roles = upper ++ r :: rest ∧ (∀ u ∈ upper, u = .plain) ∧
      r.Receives call.machine f := by
  obtain ⟨args, body, hcall⟩ := Control.exists_receive h.receives
  -- The prologue leads to the body with the frame of the body on top.
  have hprologue : ∀ c, Relation.ReflTransGen MovesInPrologue call c →
      c.Framed D ∧ c.Prepares f call.machine ∧ c.stack = call.stack := by
    intro c hreach
    induction hreach with
    | refl =>
      refine ⟨hframed, ?_, rfl⟩
      unfold Prepares
      rw [hcall]
      exact ⟨rfl, rfl⟩
    | tail _ hmove ih =>
      obtain ⟨hprevious, hprepares, hstack⟩ := ih
      obtain ⟨hnext, hsame⟩ := hprepares.moves hprevious hb hcls hmove
      exact ⟨hprevious.moves hmove.2, hnext, hsame.trans hstack⟩
  obtain ⟨hfirst, hprepared, hstack⟩ := hprologue first h.prologue
  obtain ⟨ss, hbegun⟩ := Control.exists_stmts h.begun
  unfold Prepares at hprepared
  rw [hbegun] at hprepared
  obtain ⟨r, lower, hroles, hreceives⟩ := hprepared
  obtain ⟨waiting, hwaiting⟩ := hframed.prologue (by rw [hcall]; rfl)
  have hbelow : first.stack = .bodyEnd :: waiting := hstack.trans hwaiting
  -- From then on the frame of the body keeps its role.
  have hinside : ∀ c, Relation.ReflTransGen (MovesAbove first.stack.length) first c →
      c.Framed D ∧ c.Inside (.bodyEnd :: waiting) (r :: lower) := by
    intro c hreach
    rw [hbelow] at hreach
    induction hreach with
    | refl =>
      exact ⟨hfirst, [], [], hbelow, hroles, rfl, fun hp => by rw [hbegun] at hp; cases hp⟩
    | tail _ hmove ih =>
      obtain ⟨hprevious, hin⟩ := ih
      exact ⟨hprevious.moves hmove.1, hin.moves hprevious hmove⟩
  obtain ⟨hlast, new, upper, hnew, hupper, hlength, -⟩ := hinside c h.inside
  refine ⟨upper, r, lower, hupper, ?_, hreceives⟩
  -- No body has begun since, so the frames above are those of blocks.
  have hnone : new.countP Pending.endsBody = 0 := by
    have halone := h.alone
    unfold bodies at halone
    rw [hnew, hbelow, List.countP_append] at halone
    omega
  have hlayout := hlast.layout
  rw [hnew, frameEnds_append, hupper] at hlayout
  have hfits := List.forall₂_take upper.length hlayout
  rw [List.take_left, hlength, ← length_frameEnds, List.take_left] at hfits
  exact plain_of_fits hfits hnone

end Moment

/-- A frame keeps what it binds, since objects stay. -/
theorem Role.Receives.mono {m m' : Machine} {f : Function} {r : Role} (h : r.Receives m f)
    (hgrows : m.Grows m') (hf : f.Placed m.store) {cls : ClassId}
    (hcls : m.heap.classOf? f.this = some cls) : r.Receives m' f := by
  refine ⟨?_, fun s hs => h.superclass s ?_⟩
  · rw [h.this, hcls, hgrows.instances hcls]
  · obtain ⟨c, hc, hsuper⟩ := Option.bind_eq_some_iff.mp hs
    obtain ⟨owner, howner, hc⟩ := Option.bind_eq_some_iff.mp hc
    obtain ⟨c', -, hc', -, -⟩ := hf owner howner
    obtain rfl := Option.some.inj (hc.symm.trans (hgrows.store.classes hc'))
    unfold Store.superclassOf?
    rw [howner]
    exact Option.bind_eq_some_iff.mpr ⟨c, hc', hsuper⟩

namespace Moment

variable {D : FunDecl → Prop} {f : Function} {c : Moment}

theorem InBody.reaches {call first : Moment} (h : InBody f call first c) : Reaches call c := by
  have hprologue : Reaches call first :=
    Relation.ReflTransGen.mono (fun _ _ hmove => hmove.2) _ _ h.prologue
  have hinside : Reaches first c :=
    Relation.ReflTransGen.mono (fun _ _ hmove => hmove.1) _ _ h.inside
  exact hprologue.trans hinside

/-- In the body of a bound method, whatever has been defined and assigned, the receiver is found. -/
theorem InBody.findsReceiver {call first : Moment} (h : InBody f call first c)
    (hframed : call.Framed D) (horderly : call.Orderly) (hb : f.isBound = true) :
    c.FindsReceiver f := by
  obtain ⟨args, body, hcall⟩ := Control.exists_receive h.receives
  obtain ⟨⟨id, hid⟩, hplaced⟩ := horderly.control.function f (by rw [hcall]; rfl)
  obtain ⟨cls, hcls⟩ := horderly.machine.bound hid hb
  obtain ⟨upper, r, rest, hroles, hupper, hcallee⟩ := h.exists_role hframed hb hcls
  obtain ⟨hlast, hgrows⟩ := horderly.reaches h.reaches
  have hreceives := hcallee.mono hgrows hplaced hcls
  have hthis := Frames.get?_of_roles Role.this (fun _ => rfl) hroles
    (fun u hu => by rw [hupper u hu]; rfl) hreceives.this
  refine ⟨fun fuel keyword => ?_, fun superclass hs fuel keyword method => ?_⟩
  · rw [eval]
    exact lookup_eq hthis keyword
  · have hsuper := Frames.get?_of_roles Role.superclass (fun _ => rfl) hroles
      (fun u hu => by rw [hupper u hu]; rfl) (hreceives.superclass superclass hs)
    rw [eval, superMethod_eq hsuper hthis]
    exact boundMethod_resolves hlast.machine superclass method.lexeme f.this

end Moment

/-! ## Declarations of classes -/

namespace Eval

variable {α : Type} {m : Machine}

/-- A computation that keeps a relation, whatever its result. -/
theorem ends_of_along {R : Machine → Machine → Prop} {act : Eval α} (h : Along R act) :
    Ends act m (fun _ m' => R m m') fun _ _ => True := by
  have hm := h m
  unfold Ends
  cases hr : act m with
  | ok a m' =>
    rw [hr] at hm
    exact hm
  | error stop m' => trivial

theorem define_store (name : Text) (value : Value) :
    Along (fun m m' => m'.store = m.store) (define name value) := by
  intro m
  unfold define
  split <;> rfl

theorem assign_store (name : Token) (value : Value) :
    Along (fun m m' => m'.store = m.store) (assign name value) := by
  intro m
  unfold assign
  split <;> rfl

/-- The declaration of a class, if it succeeds, adds a class with the methods that are declared. -/
theorem declareClass_declares (name : Token) (superclass : Option Token)
    (methods : List (Option FunDecl)) :
    Ends (declareClass name superclass methods) m
      (fun _ m' => ∃ ds, methods = ds.map some ∧ m'.store.HasDeclared m.store.classes.size ds)
      fun _ _ => True := by
  refine Ends.bind (ends_of_along (define_store _ _)) fun _ m₁ hdefined => ?_
  refine Ends.bind (ends_of_along (R := Eq) ?parent) ?declared
  case parent =>
    cases superclass with
    | none => exact Along.pure _
    | some t =>
      refine Along.bind (lookup_reads _ _) fun v => ?_
      cases v <;> first | exact Along.pure _ | exact Along.throw _
  rintro parent _ rfl
  cases hall : methods.mapM id with
  | none => trivial
  | some ds =>
    have hnew : Ends (newClass name.lexeme parent ds) m₁
        (fun _ m' => m'.store = (m₁.store.addDeclared name.lexeme parent
          (ds.map fun d => .ofDecl d none)).2) fun _ _ => True := rfl
    rw [required, pure_bind]
    refine Ends.bind hnew fun id m₂ hadded => ?_
    refine Ends.imp (ends_of_along (assign_store _ _)) (fun _ m₃ hassigned => ?_) fun _ _ h => h
    refine ⟨ds, mapM_id_eq_some.mp hall, ?_⟩
    rw [hassigned, hadded, hdefined]
    exact m.store.hasDeclared_addDeclared _ _ _

theorem exec_classDecl {fuel : Nat} {name : Token} {superclass : Option Token}
    {methods : List (Option FunDecl)} {flow : Flow} {m' : Machine}
    (h : exec fuel (.classDecl name superclass methods) m = .ok flow m') :
    ∃ ds, methods = ds.map some ∧ m'.store.HasDeclared m.store.classes.size ds := by
  have hends : Ends (exec fuel (.classDecl name superclass methods)) m
      (fun _ m' => ∃ ds, methods = ds.map some ∧ m'.store.HasDeclared m.store.classes.size ds)
      fun _ _ => True := by
    cases fuel with
    | zero => trivial
    | succ n =>
      rw [exec]
      exact Ends.bind (declareClass_declares _ _ _) fun _ m' hdeclared => hdeclared
  rw [Ends, h] at hends
  exact hends

end Eval

/-! ## Histories -/

namespace Moment

/-- Steps that are all of one kind. -/
theorem reflTransGen_iterate {R : Moment → Moment → Prop} {c : Moment} {n : Nat}
    (h : ∀ k < n, R (step^[k] c) (step^[k] c).step) : Relation.ReflTransGen R c (step^[n] c) := by
  induction n with
  | zero => exact .refl
  | succ n ih =>
    rw [Function.iterate_succ_apply']
    exact .tail (ih fun k hk => h k (Nat.lt_succ_of_lt hk)) (h n (Nat.lt_succ_self n))

/-- A body that is entered and run by steps. -/
theorem inBody_iterate {f : Function} {c : Moment} {i j : Nat}
    (hcall : c.control.callee? = some f)
    (hprologue : ∀ k < i, (step^[k] c).control.isPrologue = true)
    (hbegun : (step^[i] c).control.isStmts = true)
    (hinside : ∀ k < j, (step^[i] c).stack.length ≤ (step^[k] (step^[i] c)).step.stack.length)
    (halone : (step^[j] (step^[i] c)).bodies = (step^[i] c).bodies) :
    InBody f c (step^[i] c) (step^[j] (step^[i] c)) where
  receives := hcall
  prologue := reflTransGen_iterate fun k hk => ⟨hprologue k hk, .step _⟩
  begun := hbegun
  inside := reflTransGen_iterate fun k hk => ⟨.step _, hinside k hk⟩
  alone := halone

/-- What evaluation finds at a moment. -/
structure FindsMethods (c : Moment) : Prop where
  /-- Where a frame binds the name of the receiver, it binds it to an instance. -/
  this : ∀ frame ∈ c.machine.frames.toList, ∀ v, frame.vars.get? thisName = some v →
    ∃ id cls, v = .object id (some cls) ∧ c.machine.heap.classOf? id = some cls
  /-- Where a frame binds the name of the superclass, it binds it to a class. -/
  superclass : ∀ frame ∈ c.machine.frames.toList, ∀ v, frame.vars.get? superName = some v →
    ∃ id, v = .cls id ∧ id < c.machine.store.classes.size
  /-- A reference to an instance tells its class. -/
  instances : ∀ id cls, c.Holds (.object id cls) →
    ∃ k, cls = some k ∧ c.machine.heap.classOf? id = some k
  /-- A field is found before all methods. -/
  field : ∀ id name v, c.machine.heap.field? id name = some v →
    ∀ cls, property id cls name c.machine = .ok v c.machine
  /-- Without a field the method of the nearest class is found. -/
  method : ∀ id cls name, c.machine.heap.classOf? id = some cls →
    c.machine.heap.field? id name = none →
    ∃ v m', property id (some cls) name c.machine = .ok v m' ∧ Resolves c.machine cls name id v m'
  /-- A class has the methods of its declaration, of which none is missing, from then on. -/
  declared : ∀ fuel name superclass methods flow m',
    exec fuel (.classDecl name superclass methods) c.machine = .ok flow m' →
    ∃ ds, methods = ds.map some ∧
      ∀ later, m'.Grows later → later.store.HasDeclared c.machine.store.classes.size ds

variable {D : FunDecl → Prop} {c : Moment}

/-- The frames above the global one bind the receiver and the superclass as they should, and the
global one binds neither. -/
theorem Framed.typed (h : c.Framed D) {frame : Frame Value}
    (hf : frame ∈ c.machine.frames.toList) : frame.role.Typed := by
  rcases List.mem_append.mp hf with hinner | hglobal
  · obtain ⟨p, -, hfits⟩ := exists_fits h.layout (List.mem_map_of_mem hinner)
    exact hfits.typed
  · rw [List.mem_singleton.mp hglobal, h.machine.globals]
    exact Role.typed_plain

theorem findsMethods (hframed : c.Framed D) (horderly : c.Orderly) : c.FindsMethods where
  this frame hf v hv := by
    obtain ⟨id, cls, rfl⟩ := (hframed.typed hf).this v hv
    obtain ⟨k, hk, hcls⟩ := (horderly.machine.frames frame hf).get? hv
    exact ⟨id, cls, rfl, Option.some.inj hk ▸ hcls⟩
  superclass frame hf v hv := by
    obtain ⟨id, rfl⟩ := (hframed.typed hf).superclass v hv
    exact ⟨id, rfl, (horderly.machine.frames frame hf).get? hv⟩
  instances id cls hv := horderly.sits hv
  field id name v hv := property_field hv
  method id cls name _ hfield := by
    rw [property_method hfield]
    exact boundMethod_resolves horderly.machine cls name id
  declared fuel name superclass methods flow m' hexec := by
    obtain ⟨ds, hds, hdeclared⟩ := exec_classDecl hexec
    exact ⟨ds, hds, fun later hgrows => hgrows.store.hasDeclared hdeclared⟩

end Moment

namespace Machine

/-- **Receivers are in place.** On a machine with any limits that has run any sources with any
output, at every moment of the run of a source: the receiver that a frame binds is an instance, and
the superclass a class. A property of an instance is a field or else the method of the nearest
class that declares it, the last one declared there, bound to the instance. And while the body of a
bound method runs, outside of the bodies of other calls, the receiver is the instance that it is
bound to, and the methods of the superclass are looked for from the superclass of its owner on. -/
theorem receivers_in_place (limits : List Int) (turns : List Turn)
    (hturns : ∀ turn ∈ turns, turn.isSource) (source : Text) (c : Moment)
    (h : Moment.Reaches (.opening ((configured limits).after turns)
      (parseProgram (tokenize source).1).statements) c) :
    c.FindsMethods ∧
    ((∀ c', Moment.Reaches c c' → c.machine.Grows c'.machine) ∧
      ∀ later,
        ((configured limits).after turns).Grows ((configured limits).after (turns ++ later))) ∧
    ∀ f first c', f.isBound = true → Moment.InBody f c first c' → c'.FindsReceiver f := by
  have hbefore := (after_keepsOrder _ turns (orderly_configured limits)).1
  obtain ⟨D, -, hopening⟩ := (known_after (known_configured limits) hturns).exists_framed source
  have horderly := ((Moment.orderly_opening hbefore _).reaches h).1
  have hframed := hopening.reaches h
  refine ⟨Moment.findsMethods hframed horderly, ⟨fun c' hreach => (horderly.reaches hreach).2, ?_⟩,
    fun f first c' hb hbody => hbody.findsReceiver hframed horderly hb⟩
  intro later
  rw [after_append]
  exact (after_keepsOrder _ later hbefore).2

/-- The method of a subclass, in a block of its body: the receiver is found, and the method of the
superclass too. -/
theorem receivers_in_place_block :
    let call := Moment.step^[10] (.opening ((configured []).after [.run 40
      "class A \x7bm() \x7b\x7d\x7d class B < A \x7bm() \x7b\x7bsuper.m;\x7d\x7d\x7d var b = B();"])
      (parseProgram (tokenize "b.m();").1).statements)
    let c := Moment.step^[4] (Moment.step^[4] call)
    Eval.eval 1 (.receiver none) c.machine = .ok (.object 1 (some 1)) c.machine ∧
      ∀ method, ∃ v m', Eval.eval 1 (.superMethod none method) c.machine = .ok v m' ∧
        Resolves c.machine 0 method.lexeme 1 v m' := by
  intro call c
  have hcall : call.control.callee?.map
      (fun f => (f.isBound, f.this, c.machine.store.superclassOf? f)) = some (true, 1, some 0) := by
    decide +kernel
  have hprologue : ∀ k < 4, (Moment.step^[k] call).control.isPrologue = true := by decide +kernel
  have hbegun : (Moment.step^[4] call).control.isStmts = true := by decide +kernel
  have hinside : ∀ k < 4, (Moment.step^[4] call).stack.length ≤
      (Moment.step^[k] (Moment.step^[4] call)).step.stack.length := by decide +kernel
  have halone : c.bodies = (Moment.step^[4] call).bodies := by decide +kernel
  have hcls : c.machine.heap.classOf? 1 = some 1 := by decide +kernel
  have hreach := Moment.reaches_iterate 10 (.opening ((configured []).after [.run 40
    "class A \x7bm() \x7b\x7d\x7d class B < A \x7bm() \x7b\x7bsuper.m;\x7d\x7d\x7d var b = B();"])
    (parseProgram (tokenize "b.m();").1).statements)
  obtain ⟨-, -, hbody⟩ := receivers_in_place [] _ (by decide) _ call hreach
  clear hreach
  subst c
  clear_value call
  obtain ⟨f, hf, hfacts⟩ := Option.map_eq_some_iff.mp hcall
  obtain ⟨hb, hthis, hsuper⟩ : _ ∧ _ ∧ _ := by simpa only [Prod.mk.injEq] using hfacts
  obtain ⟨hreceiver, hmethods⟩ :=
    hbody f _ _ hb (Moment.inBody_iterate hf hprologue hbegun hinside halone)
  have hfound := hreceiver 0 none
  rw [hthis, hcls] at hfound
  exact ⟨hfound, fun method => hthis ▸ hmethods 0 hsuper 0 none method⟩

end Machine

end Dynascope
