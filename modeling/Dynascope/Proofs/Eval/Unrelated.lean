import Dynascope.Proofs.Eval.Framed
import Dynascope.Proofs.Eval.LineByLine
import Dynascope.Proofs.Scope.Bystander

/-!
# Unrelated globals

A global variable that a program does not mention makes no difference to its run, and the run makes
none to the variable. The names that the code of a run uses are those of the program, of the
receiver and of the superclass: function objects carry code that was part of the program.

* `Unmentioned x`, `Function.Omits x`, `Store.Omits x`: trees, function objects and stores that
  never use the variable `x`.
* `Machine.withGlobal`: the machine with one more global variable.
* `Unaffected x v act`: `act` does the same with and without the variable, and function objects
  still omit it. The rules follow the structure of a computation.
* `Eval.Heedless n`: with fuel `n`, code that omits `x` is unaffected. `Eval.heedless` is the
  induction on the fuel.
* `unrelated_global`: the statement about sources and new machines.
-/

namespace Dynascope

/-! ## Code that omits a name -/

/-- No variable of that name is mentioned. -/
abbrev Unmentioned (x : Text) (xs : List Mention) : Prop :=
  AllRead (· ≠ x) xs

/-- A function object that neither has a parameter of that name nor uses it in its body. The
parameter of `print` is never defined. -/
def Function.Omits (x : Text) (f : Function) : Prop :=
  ∀ site body, f.code = .declared site (.block body) →
    (∀ y ∈ f.params, y ≠ x) ∧ Unmentioned x (Stmt.allMentions body)

/-- All function objects omit the name. -/
def Store.Omits (x : Text) (s : Store) : Prop :=
  ∀ id f, s.function? id = some f → f.Omits x

variable {x : Text}

theorem Unmentioned.decl {d : FunDecl} (h : Unmentioned x d.mentions) :
    (∀ t ∈ d.name :: d.params, t.lexeme ≠ x) ∧ Unmentioned x d.body.mentions := by
  obtain ⟨site, name, params, body⟩ := d
  obtain ⟨-, hrest⟩ := List.forall_mem_cons.mp h
  obtain ⟨hnames, hbody⟩ := allRead_append.mp hrest
  exact ⟨allRead_namesOf.mp hnames, hbody⟩

theorem Function.omits_ofDecl {d : FunDecl} (h : Unmentioned x d.mentions)
    (owner : Option ClassId) : (Function.ofDecl d owner).Omits x := by
  intro site body hcode
  obtain ⟨hnames, hbody⟩ := Unmentioned.decl h
  obtain ⟨-, hblock⟩ := Code.declared.inj hcode
  rw [hblock] at hbody
  exact ⟨List.forall_mem_map.mpr (List.forall_mem_cons.mp hnames).2, hbody⟩

theorem Store.Omits.addFunction {s : Store} (h : s.Omits x) {f : Function} (hf : f.Omits x) :
    (s.addFunction f).2.Omits x := by
  intro id g hg
  rcases Store.function?_of_addFunction hg with rfl | hold
  · exact hf
  · exact h id g hold

theorem Store.Omits.addDeclared {s : Store} (h : s.Omits x) (name : Text)
    (superclass : Option ClassId) {methods : List Function} (hm : ∀ f ∈ methods, f.Omits x) :
    (s.addDeclared name superclass methods).2.Omits x := by
  intro id f hf
  rcases Store.function?_of_addDeclared hf with hold | ⟨g, hg, rfl⟩
  · exact h id f hold
  · exact hm g hg

/-- The machine with a variable of that name in the global frame. -/
def Machine.withGlobal (m : Machine) (x : Text) (v : Value) : Machine :=
  { m with frames := m.frames.withGlobal x v }

/-! ## Computations that a variable does not affect -/

variable {α β : Type} {v : Value}

/-- Two computations ended in the same way, the second one with one more global variable, and no
function object uses it. -/
inductive Beside (x : Text) (v : Value) :
    EStateM.Result Stop Machine α → EStateM.Result Stop Machine α → Prop where
  | ok {a : α} {m : Machine} (h : m.store.Omits x) : Beside x v (.ok a m) (.ok a (m.withGlobal x v))
  | error {stop : Stop} {m : Machine} (h : m.store.Omits x) :
    Beside x v (.error stop m) (.error stop (m.withGlobal x v))

/-- As long as no function object uses the variable, a computation does the same without it. -/
def Unaffected (x : Text) (v : Value) (act : Eval α) : Prop :=
  ∀ m : Machine, m.store.Omits x → Beside x v (act m) (act (m.withGlobal x v))

namespace Unaffected

theorem pure (a : α) : Unaffected x v (Pure.pure a) :=
  fun _ h => .ok h

theorem throw (stop : Stop) : Unaffected x v (MonadExcept.throw stop : Eval α) :=
  fun _ h => .error h

theorem fail (fault : Fault) (token : Option Token) :
    Unaffected x v (Eval.fail fault token : Eval α) :=
  throw _

variable {act : Eval α}

theorem bind {f : α → Eval β} (h : Unaffected x v act) (hf : ∀ a, Unaffected x v (f a)) :
    Unaffected x v (act >>= f) := by
  intro m hm
  have hact := h m hm
  generalize hr : act m = r at hact
  generalize hr' : act (m.withGlobal x v) = r' at hact
  cases hact with
  | ok hnext =>
    rw [ok_bind hr, ok_bind hr']
    exact hf _ _ hnext
  | error hnext =>
    rw [error_bind hr, error_bind hr']
    exact .error hnext

/-- The machine is read first, and what is read does not depend on the variable. -/
theorem get_bind {f : Machine → Eval β} (hsame : ∀ m : Machine, f (m.withGlobal x v) = f m)
    (hf : ∀ m : Machine, m.store.Omits x → Unaffected x v (f m)) :
    Unaffected x v (MonadState.get >>= f) := by
  intro m hm
  show Beside x v (f m m) (f (m.withGlobal x v) (m.withGlobal x v))
  rw [hsame m]
  exact hf m hm m hm

theorem ite {b : Prop} [Decidable b] {yes no : Eval α} (hyes : Unaffected x v yes)
    (hno : Unaffected x v no) : Unaffected x v (if b then yes else no) := by
  split
  · exact hyes
  · exact hno

/-- What is done before and after a computation leaves the store and the variable alone. -/
theorem around (enter leave : Machine → Machine) (mark : Stop → Stop)
    (henter : ∀ m, enter (m.withGlobal x v) = (enter m).withGlobal x v)
    (hleave : ∀ m, leave (m.withGlobal x v) = (leave m).withGlobal x v)
    (hstore : ∀ m, (enter m).store = m.store) (hstore' : ∀ m, (leave m).store = m.store)
    (h : Unaffected x v act) : Unaffected x v fun m => mapEnd id mark leave (act (enter m)) := by
  intro m hm
  have hact := h (enter m) (hstore m ▸ hm)
  dsimp only
  rw [henter]
  generalize act (enter m) = r at hact ⊢
  generalize act ((enter m).withGlobal x v) = r' at hact ⊢
  cases hact with
  | ok hnext =>
    simp only [mapEnd, hleave]
    exact .ok ((hstore' _).symm ▸ hnext)
  | error hnext =>
    simp only [mapEnd, hleave]
    exact .error ((hstore' _).symm ▸ hnext)

theorem withFrame (name : Text) (h : Unaffected x v act) :
    Unaffected x v (Eval.withFrame name act) := by
  have hframe : Eval.withFrame name act = fun m =>
      mapEnd id id (fun m => { m with frames := m.frames.pop })
        (act { m with frames := m.frames.push name }) := by
    funext m
    unfold Eval.withFrame
    cases act { m with frames := m.frames.push name } <;> rfl
  rw [hframe]
  exact .around (fun m => { m with frames := m.frames.push name }) _ id (fun _ => rfl)
    (fun _ => rfl) (fun _ => rfl) (fun _ => rfl) h

/-- A call is counted, and its errors are attributed. -/
theorem call (token : Option Token) (h : Unaffected x v act) :
    Unaffected x v (Eval.attributed token (Eval.counted act)) := by
  rw [funext (Eval.attributed_counted token act)]
  exact .around (fun m => { m with depth := m.depth + 1 }) _ _ (fun _ => rfl) (fun _ => rfl)
    (fun _ => rfl) (fun _ => rfl) h

end Unaffected

/-! ## The operations of the machine -/

namespace Eval

theorem lookup_unaffected {y : Text} (hy : y ≠ x) (token : Option Token) :
    Unaffected x v (lookup y token) := by
  refine .get_bind (fun m => ?_) fun m _ => ?_
  · rw [Machine.withGlobal, Frames.get?_withGlobal v _ hy]
  · split
    · exact .pure _
    · exact .fail _ _

theorem assign_unaffected {y : Token} (hy : y.lexeme ≠ x) (value : Value) :
    Unaffected x v (assign y value) := by
  intro m hm
  have hassign := Frames.assign?_withGlobal v value m.frames hy
  unfold assign Machine.withGlobal
  dsimp only
  rw [hassign]
  cases m.frames.assign? y.lexeme value with
  | none => exact .error hm
  | some frames => exact .ok (m := { m with frames := frames }) hm

theorem define_unaffected {y : Text} (hy : y ≠ x) (value : Value) :
    Unaffected x v (define y value) := by
  intro m hm
  have hdefine := Frames.define?_withGlobal v value m.frames hy
  unfold define Machine.withGlobal
  dsimp only
  rw [hdefine]
  cases m.frames.define? y value with
  | none => exact .error hm
  | some frames => exact .ok (m := { m with frames := frames }) hm

theorem defineAll_unaffected {names : List Text} (hnames : ∀ y ∈ names, y ≠ x)
    (values : List Value) : Unaffected x v (defineAll names values) := by
  induction names generalizing values with
  | nil => exact .pure _
  | cons y names ih =>
    obtain ⟨hy, hrest⟩ := List.forall_mem_cons.mp hnames
    cases values with
    | nil => exact .throw _
    | cons value values => exact .bind (define_unaffected hy value) fun _ => ih hrest values

theorem newFunction_unaffected {f : Function} (hf : f.Omits x) : Unaffected x v (newFunction f) :=
  fun m hm => .ok (m := { m with store := (m.store.addFunction f).2 }) (hm.addFunction hf)

theorem newInstance_unaffected (cls : ClassId) : Unaffected x v (newInstance cls) :=
  fun m hm => .ok (m := { m with heap := (m.heap.new cls).2 }) hm

/-- Methods are made from their declarations. -/
theorem newClass_unaffected (name : Text) (superclass : Option ClassId) {methods : List FunDecl}
    (h : Unmentioned x (FunDecl.allMentions (methods.map some))) :
    Unaffected x v (newClass name superclass methods) := by
  intro m hm
  have hmethods : ∀ f ∈ methods.map (Function.ofDecl · none), f.Omits x := by
    refine List.forall_mem_map.mpr fun d hd => Function.omits_ofDecl (fun y hy => ?_) none
    exact h y (FunDecl.mem_allMentions hd hy)
  exact .ok (m := { m with store := (m.store.addDeclared name superclass _).2 })
    (hm.addDeclared name superclass hmethods)

/-- A bound copy of a method has its code. -/
theorem boundMethod_unaffected (method : Option FunctionId) (id : InstanceId) :
    Unaffected x v (boundMethod method id) := by
  refine .get_bind (fun _ => rfl) fun m hm => ?_
  split
  next f hf =>
    obtain ⟨fid, -, hf⟩ := Option.bind_eq_some_iff.mp hf
    have hbound : (f.bind id).Omits x := hm fid f hf
    exact .bind (newFunction_unaffected hbound) fun _ => .pure _
  next => exact .pure _

theorem required_unaffected (part : Option α) : Unaffected x v (required part) := by
  cases part with
  | none => exact .throw _
  | some a => exact .pure a

theorem property_unaffected (id : InstanceId) (cls : Option ClassId) (name : Text) :
    Unaffected x v (property id cls name) := by
  refine .get_bind (fun _ => rfl) fun m _ => ?_
  split
  · exact .pure _
  · exact boundMethod_unaffected _ _

theorem setField_unaffected (id : InstanceId) (name : Token) (value : Value) :
    Unaffected x v (setField id name value) := by
  intro m hm
  unfold setField Machine.withGlobal
  dsimp only
  split
  next heap _ => exact .ok (m := { m with heap := heap }) hm
  · exact .error hm
  · exact .error hm

theorem write_unaffected (text : Text) : Unaffected x v (write text) := by
  intro m hm
  unfold write Machine.withGlobal
  dsimp only
  split
  · exact .ok (m := { m with written := m.written.push text }) hm
  · exact .error hm
  next n _ =>
    exact .ok (m := { m with written := m.written.push text, writesLeft := some n }) hm

theorem number_unaffected (operator : Token) (value : Value) :
    Unaffected x v (number operator value) := by
  unfold number
  split
  · exact .pure _
  · exact .throw _

theorem unaryOp_unaffected (operator : Token) (right : Value) :
    Unaffected x v (unaryOp operator right) := by
  unfold unaryOp
  split
  · exact .pure _
  · exact .bind (number_unaffected _ _) fun _ => .pure _
  · exact .throw _

theorem numericOp_unaffected (operator : Token) (left right : Value) :
    Unaffected x v (numericOp operator left right) := by
  refine .bind (number_unaffected _ _) fun a => .bind (number_unaffected _ _) fun b => ?_
  split
  · exact .ite (.throw _) (.pure _)
  · split
    · exact .pure _
    · exact .throw _

theorem binaryOp_unaffected (operator : Token) (left right : Value) :
    Unaffected x v (binaryOp operator left right) := by
  refine .get_bind (fun _ => rfl) fun m _ => ?_
  split
  · exact .pure _
  · exact .pure _
  · exact .ite (.pure _) (numericOp_unaffected _ _ _)
  · exact numericOp_unaffected _ _ _

theorem decides_unaffected (operator : Token) (left : Value) :
    Unaffected x v (decides operator left) := by
  unfold decides
  split
  · exact .pure _
  · exact .pure _
  · exact .throw _

theorem superMethod_unaffected (hx : Ordinary x) (keyword : Option Token) (method : Token) :
    Unaffected x v (superMethod keyword method) := by
  refine .bind (lookup_unaffected hx.ne_super.symm _) fun s => ?_
  split
  · refine .bind (lookup_unaffected hx.ne_this.symm _) fun t => ?_
    split
    · exact .get_bind (fun _ => rfl) fun m _ => boundMethod_unaffected _ _
    · exact .throw _
  · exact .throw _

theorem defineReceiver_unaffected (hx : Ordinary x) (f : Function) :
    Unaffected x v (defineReceiver f) := by
  refine .ite (.get_bind (fun _ => rfl) fun m _ => ?_) (.pure _)
  split
  · exact .fail _ _
  · refine .bind (define_unaffected hx.ne_this.symm _) fun _ => ?_
    split
    · exact define_unaffected hx.ne_super.symm _
    · exact .pure _

theorem declareClass_unaffected {name : Token} {superclass : Option Token}
    {methods : List (Option FunDecl)} (hname : name.lexeme ≠ x)
    (hsuper : ∀ t ∈ superclass, t.lexeme ≠ x)
    (hmethods : Unmentioned x (FunDecl.allMentions methods)) :
    Unaffected x v (declareClass name superclass methods) := by
  refine .bind (define_unaffected hname _) fun _ => .bind ?_ fun parent => ?_
  · split
    · exact .pure _
    next t =>
      refine .bind (lookup_unaffected (hsuper t rfl) _) fun w => ?_
      split
      · exact .pure _
      · exact .throw _
  · cases hall : methods.mapM id with
    | none => exact .throw _
    | some ds =>
      obtain rfl := mapM_id_eq_some.mp hall
      rw [required, pure_bind]
      exact .bind (newClass_unaffected _ _ hmethods) fun id => assign_unaffected hname _

end Eval

/-! ## The whole evaluator -/

namespace Eval

/-- With fuel `n`, code that omits `x` is not affected by it. -/
structure Heedless (x : Text) (v : Value) (n : Nat) : Prop where
  expr : ∀ {e}, Unmentioned x e.mentions → Unaffected x v (eval n e)
  exprs : ∀ {es}, Unmentioned x (Expr.allMentions es) → Unaffected x v (evalAll n es)
  call : ∀ id args token, Unaffected x v (invoke n id args token)
  code : ∀ {f} args, f.Omits x → Unaffected x v (runFunction n f args)
  construct : ∀ cls args token, Unaffected x v (instantiate n cls args token)
  stmt : ∀ {s}, Unmentioned x s.mentions → Unaffected x v (exec n s)
  stmts : ∀ {ss}, Unmentioned x (Stmt.allMentions ss) → Unaffected x v (execAll n ss)
  loop : ∀ {condition body}, Unmentioned x condition.mentions → Unmentioned x body.mentions →
    Unaffected x v (execLoop n condition body)

variable {n : Nat}

theorem eval_unaffected (hx : Ordinary x) (h : Heedless x v n) {e : Expr}
    (he : Unmentioned x e.mentions) : Unaffected x v (eval (n + 1) e) := by
  cases e with
  | absent => exact .fail _ _
  | assign y value =>
    obtain ⟨hy, hvalue⟩ := allRead_name.mp he
    exact .bind (h.expr hvalue) fun w => .bind (assign_unaffected hy _) fun _ => .pure _
  | binary left operator right =>
    obtain ⟨hl, hr⟩ := allRead_append.mp he
    exact .bind (h.expr hl) fun l => .bind (h.expr hr) fun r => binaryOp_unaffected _ _ _
  | call callee paren arguments =>
    obtain ⟨hc, ha⟩ := allRead_append.mp he
    refine .bind (h.expr hc) fun f => .bind (h.exprs ha) fun args => ?_
    split
    · exact h.call _ _ _
    · exact h.construct _ _ _
    · exact .fail _ _
  | get object name =>
    refine .bind (h.expr he) fun o => ?_
    split
    · exact .bind (required_unaffected _) fun name => property_unaffected _ _ _
    · exact .throw _
  | group inner => exact h.expr he
  | literal value =>
    unfold eval
    split
    · exact .pure _
    · exact .fail _ _
  | logical left operator right =>
    obtain ⟨hl, hr⟩ := allRead_append.mp he
    refine .bind (h.expr hl) fun l => .bind (decides_unaffected _ _) fun decided => ?_
    exact .ite (.pure _) (h.expr hr)
  | set object name value =>
    obtain ⟨ho, hvalue⟩ := allRead_append.mp he
    refine .bind (h.expr ho) fun o => ?_
    split
    · exact .bind (h.expr hvalue) fun w => .bind (required_unaffected _) fun name =>
        .bind (setField_unaffected _ _ _) fun _ => .pure _
    · exact .throw _
  | superMethod keyword method => exact superMethod_unaffected hx _ _
  | receiver keyword => exact lookup_unaffected hx.ne_this.symm _
  | unary operator right => exact .bind (h.expr he) fun r => unaryOp_unaffected _ _
  | name y => exact lookup_unaffected (allRead_name.mp he).1 _

theorem evalAll_unaffected (h : Heedless x v n) {es : List Expr}
    (hes : Unmentioned x (Expr.allMentions es)) : Unaffected x v (evalAll (n + 1) es) := by
  cases es with
  | nil => exact .pure _
  | cons e rest =>
    obtain ⟨he, hrest⟩ := allRead_append.mp hes
    exact .bind (h.expr he) fun w => .bind (h.exprs hrest) fun ws => .pure _

/-- Here the code of the store is run. -/
theorem invoke_unaffected (h : Heedless x v n) (id : FunctionId) (args : List Value)
    (token : Option Token) : Unaffected x v (invoke (n + 1) id args token) := by
  refine .get_bind (fun _ => rfl) fun m hm => ?_
  split
  · exact .fail _ _
  next f hf => exact .ite (.fail _ _) (.ite (.fail _ _) (.call token (h.code args (hm id f hf))))

theorem runFunction_unaffected (hx : Ordinary x) (h : Heedless x v n) {f : Function}
    (args : List Value) (hf : f.Omits x) : Unaffected x v (runFunction (n + 1) f args) := by
  unfold runFunction
  split
  · exact .throw _
  · exact .get_bind (fun _ => rfl) fun m _ => .bind (write_unaffected _) fun _ => .pure _
  next site body hcode =>
    obtain ⟨hparams, hbody⟩ := hf site body hcode
    refine .bind (.withFrame _ (.bind (defineReceiver_unaffected hx f) fun _ =>
      .bind (defineAll_unaffected hparams _) fun _ => h.stmts hbody)) fun flow => ?_
    split
    · exact .pure _
    · exact .pure _
  · exact .fail _ _

theorem instantiate_unaffected (h : Heedless x v n) (cls : ClassId) (args : List Value)
    (token : Option Token) : Unaffected x v (instantiate (n + 1) cls args token) := by
  refine .bind (newInstance_unaffected cls) fun id => .get_bind (fun _ => rfl) fun m _ =>
    .bind (boundMethod_unaffected _ _) fun w => ?_
  split
  · exact .bind (h.call _ _ _) fun _ => .pure _
  · exact .pure _

theorem exec_unaffected (h : Heedless x v n) {s : Stmt} (hs : Unmentioned x s.mentions) :
    Unaffected x v (exec (n + 1) s) := by
  cases s with
  | absent => exact .fail _ _
  | block body => exact .withFrame _ (h.stmts hs)
  | classDecl name superclass methods =>
    obtain ⟨hnames, hmethods⟩ := allRead_append.mp hs
    obtain ⟨hname, hsuper⟩ := List.forall_mem_cons.mp (allRead_namesOf.mp hnames)
    have hsuper : ∀ t ∈ superclass, t.lexeme ≠ x :=
      fun t ht => hsuper t (Option.mem_toList.mpr ht)
    exact .bind (declareClass_unaffected hname hsuper hmethods) fun _ => .pure _
  | expr e => exact .bind (h.expr hs) fun _ => .pure _
  | funDecl decl =>
    have hname : decl.name.lexeme ≠ x := (Unmentioned.decl hs).1 _ List.mem_cons_self
    exact .bind (newFunction_unaffected (Function.omits_ofDecl hs none)) fun id =>
      .bind (define_unaffected hname _) fun _ => .pure _
  | choice condition yes no =>
    obtain ⟨hc, hbranches⟩ := allRead_append.mp hs
    obtain ⟨hyes, hno⟩ := allRead_append.mp hbranches
    refine .bind (h.expr hc) fun c => .ite (h.stmt hyes) ?_
    split
    · exact .pure _
    · exact h.stmt hno
  | ret keyword value =>
    unfold exec
    split
    · exact .pure _
    · exact .bind (h.expr hs) fun w => .pure _
  | varDecl name initial =>
    obtain ⟨hname, hinitial⟩ := allRead_name.mp hs
    refine .bind ?_ fun w => .bind (define_unaffected hname _) fun _ => .pure _
    split
    · exact .pure _
    · exact h.expr hinitial
  | loop condition body =>
    obtain ⟨hc, hbody⟩ := allRead_append.mp hs
    exact h.loop hc hbody

theorem execAll_unaffected (h : Heedless x v n) {ss : List Stmt}
    (hss : Unmentioned x (Stmt.allMentions ss)) : Unaffected x v (execAll (n + 1) ss) := by
  cases ss with
  | nil => exact .pure _
  | cons s rest =>
    obtain ⟨hs, hrest⟩ := allRead_append.mp hss
    refine .bind (h.stmt hs) fun flow => ?_
    split
    · exact h.stmts hrest
    · exact .pure _

theorem execLoop_unaffected (h : Heedless x v n) {condition : Expr} {body : Stmt}
    (hc : Unmentioned x condition.mentions) (hbody : Unmentioned x body.mentions) :
    Unaffected x v (execLoop (n + 1) condition body) := by
  refine .bind (h.expr hc) fun c => .ite (.bind (h.stmt hbody) fun flow => ?_) (.pure _)
  split
  · exact h.loop hc hbody
  · exact .pure _

/-- **Code that does not mention a variable is not affected by it**, with every amount of fuel. -/
theorem heedless (hx : Ordinary x) (v : Value) (n : Nat) : Heedless x v n := by
  induction n with
  | zero =>
    exact ⟨fun _ => .throw _, fun _ => .throw _, fun _ _ _ => .throw _, fun _ _ => .throw _,
      fun _ _ _ => .throw _, fun _ => .throw _, fun _ => .throw _, fun _ _ => .throw _⟩
  | succ n ih =>
    exact ⟨eval_unaffected hx ih, evalAll_unaffected ih, invoke_unaffected ih,
      runFunction_unaffected hx ih, instantiate_unaffected ih, exec_unaffected ih,
      execAll_unaffected ih, execLoop_unaffected ih⟩

theorem interpret_unaffected (hx : Ordinary x) (fuel : Nat) {program : List Stmt}
    (hp : Unmentioned x (Stmt.allMentions program)) (last : Held) :
    Unaffected x v (interpret fuel program last) := by
  have h := heedless hx v fuel
  induction program generalizing last with
  | nil => exact .pure _
  | cons s rest ih =>
    obtain ⟨hs, hrest⟩ := allRead_append.mp hp
    unfold interpret
    split
    · exact .bind (h.expr hs) fun w => ih hrest _
    · refine .bind (h.stmt hs) fun flow => ?_
      split
      · exact ih hrest _
      · exact .pure _

end Eval

/-! ## Runs of sources -/

namespace Machine

/-- A new machine knows `print` only, whose code is no tree. -/
theorem omits_configured (limits : List Int) (x : Text) : (configured limits).store.Omits x := by
  obtain ⟨maxDepth, hm⟩ := configured_eq limits
  rw [hm]
  intro id f hf site body hcode
  rcases Store.function?_of_addFunction (s := .empty) hf with rfl | hold
  · cases hcode
  · cases hold

/-- A program that does not mention the variable runs in the same way. -/
theorem interpretWith_withGlobal {m : Machine} (hm : m.store.Omits x) (hx : Ordinary x)
    (v : Value) (fuel : Nat) {program : List Stmt} (hp : Unmentioned x (Stmt.allMentions program))
    (diagnostics : List ParseError) :
    (m.withGlobal x v).interpretWith fuel program diagnostics =
      Prod.map id (·.withGlobal x v) (m.interpretWith fuel program diagnostics) := by
  have hloaded : Unmentioned x (Stmt.allMentions (m.load program).1) :=
    (renumbers_numberedAll program m.nextSite).read hp
  have hrun := Eval.interpret_unaffected (v := v) hx fuel hloaded none (m.load program).2 hm
  rw [interpretWith_eq, interpretWith_eq]
  show Report.ofEnd diagnostics (Eval.interpret fuel (m.load program).1 none
    ((m.load program).2.withGlobal x v)) = _
  generalize Eval.interpret fuel (m.load program).1 none (m.load program).2 = r at hrun
  generalize Eval.interpret fuel (m.load program).1 none ((m.load program).2.withGlobal x v) = r'
    at hrun
  cases hrun <;> rfl

end Machine

open Machine

/-- **Unrelated globals do not interfere.** On a new machine, with any limits for its calls and its
writes, a source is run with and without one more global variable, whose name is no keyword and no
lexeme of the source. Both runs report the same value or failure and the same parse errors, and they
leave the same machine, with the same output and heap, except that the variable is still bound to
its value. -/
theorem unrelated_global (limits : List Int) (writesLeft : Option Nat) (fuel : Nat) (source : Text)
    (x : Text) (v : Value) (hx : Kind.keyword? x = none)
    (hsource : ∀ t ∈ (tokenize source).1, t.lexeme ≠ x) :
    let m := (configured limits).perform (.output writesLeft)
    let run := m.runWith fuel source
    let run' := (m.withGlobal x v).runWith fuel source
    run'.1 = run.1 ∧ run'.2 = run.2.withGlobal x v ∧
      run'.2.heap = run.2.heap ∧ run'.2.output = run.2.output ∧
      ∀ y, run'.2.frames.globals.vars.get? y =
        if y = x then some v else run.2.frames.globals.vars.get? y := by
  intro m run run'
  have hm : m.store.Omits x := omits_configured limits x
  have hprogram : Unmentioned x (Stmt.allMentions (parseProgram (tokenize source).1).statements) :=
    allRead_parseProgram fun t ht _ => hsource t ht
  have hrun : run' = Prod.map id (·.withGlobal x v) run := by
    show (m.withGlobal x v).runWith fuel source = Prod.map id _ (m.runWith fuel source)
    unfold runWith
    split
    next => rfl
    next tokens ht =>
      rw [ht] at hprogram
      simp only
      split
      · rfl
      · exact interpretWith_withGlobal hm (ordinary_of_keyword? hx) v fuel hprogram _
  rw [hrun]
  exact ⟨rfl, rfl, rfl, rfl, fun y => Bindings.get?_set _ x y v⟩

/-- A class whose initializer calls that of its superclass, and an undefined name at the end. The
variable has the name of the parameter of `print`; in the source the name stands in a string. -/
theorem unrelated_global_text :
    let source : Text := "class A \x7b init(n) \x7b this.n = n; \x7d \x7d
      class B < A \x7b init(n) \x7b super.init(n + 1); \x7d \x7d print(\"text\" + B(1).n); nope;"
    let m := (configured [8]).perform (.output none)
    let run := m.runWith 40 source
    let run' := (m.withGlobal "text" (.string "mine")).runWith 40 source
    Kind.keyword? "text" = none ∧ (∀ t ∈ (tokenize source).1, t.lexeme ≠ ("text" : Text)) ∧
      run.2.output = "text2\n" ∧ run.1.token?.map Token.lexeme = some "nope" ∧
      run.2.frames.globals.vars.get? "text" = none ∧
      run'.1 = run.1 ∧ run'.2 = run.2.withGlobal "text" (.string "mine") ∧
      run'.2.heap = run.2.heap ∧ run'.2.output = run.2.output ∧
      ∀ y, run'.2.frames.globals.vars.get? y =
        if y = "text" then some (.string "mine") else run.2.frames.globals.vars.get? y := by
  intro source
  have hx : Kind.keyword? "text" = none := by decide
  have hsource : ∀ t ∈ (tokenize source).1, t.lexeme ≠ ("text" : Text) := by decide +kernel
  have h := unrelated_global [8] none 40 source "text" (.string "mine") hx hsource
  exact ⟨hx, hsource, by decide +kernel, by decide +kernel, by decide +kernel, h⟩

end Dynascope
