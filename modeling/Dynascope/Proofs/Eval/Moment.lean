import Dynascope.Eval.Run
import Mathlib.Logic.Function.Iterate
import Mathlib.Logic.Relation

/-!
# Moments of a run

What evaluation is about at a moment: what it does next, what waits for the outcome of that, and the
machine. A step begins a task or hands an outcome to what waits for it; it makes at most one change
to the machine.

* `Task`, `Ending`, `Pending`: what is to be done, how it ended, and what waits for an outcome.
* `Task.begin`, `Pending.resume`: the two kinds of steps.
* `Moment`: a control, the stack of all that waits, and the machine.
* `Moment.Moves`, `Moment.Reaches`: from one moment to the next, and to all later ones. A task may
  also be cut off, as it is when the fuel is used up.
* `Moment.activeCalls`: the calls that have begun and not ended.
-/

namespace Dynascope

/-- What is to be done. -/
inductive Task where
  | expr (e : Expr)
  | exprs (es : List Expr)
  | call (id : FunctionId) (args : List Value) (token : Option Token)
  | code (f : Function) (args : List Value)
  /-- The receiver of a function is defined, then its parameters, then its body runs. -/
  | receive (f : Function) (args : List Value) (body : List Stmt)
  /-- Names are defined, one at a time, then a body runs. -/
  | enter (names : List Text) (values : List Value) (body : List Stmt)
  | construct (cls : ClassId) (args : List Value) (token : Option Token)
  /-- A new instance is handed to its initializer. -/
  | setUp (id : InstanceId) (cls : ClassId) (args : List Value) (token : Option Token)
  | stmt (s : Stmt)
  /-- A class is made whose superclass is known. -/
  | build (name : Token) (superclass : Option ClassId) (methods : List (Option FunDecl))
  | stmts (ss : List Stmt)
  | loop (condition : Expr) (body : Stmt)
  | program (ss : List Stmt) (last : Held)

/-- How a task ended. -/
inductive Ending where
  | value (v : Value)
  | values (vs : List Value)
  | flow (flow : Flow)
  | result (last : Held)
  | stopped (stop : Stop)

/-- What waits for the outcome of a task. -/
inductive Pending where
  | assign (name : Token)
  | rightOperand (operator : Token) (right : Expr)
  | operation (left : Value) (operator : Token)
  | arguments (paren : Option Token) (arguments : List Expr)
  | application (callee : Value) (paren : Option Token)
  | furtherArguments (rest : List Expr)
  | firstArgument (v : Value)
  | property (name : Option Token)
  | decision (operator : Token) (right : Expr)
  | fieldValue (name : Option Token) (value : Expr)
  | field (id : InstanceId) (cls : Option ClassId) (name : Option Token)
  | operand (operator : Token)
  /-- The end of an active call. -/
  | active (token : Option Token)
  /-- The end of a body, with its frame. -/
  | bodyEnd
  /-- The end of a block, with its frame. -/
  | blockEnd
  | constructed (id : InstanceId) (cls : ClassId)
  | discard
  | branches (yes no : Stmt)
  | ret
  | define (name : Text)
  | superclass (name : Token) (parent : Token) (methods : List (Option FunDecl))
  | following (rest : List Stmt)
  | test (condition : Expr) (body : Stmt)
  | again (condition : Expr) (body : Stmt)
  | keep (rest : List Stmt)
  | next (rest : List Stmt) (last : Held)

/-- What evaluation turns to next. -/
inductive Control where
  | task (t : Task)
  | ending (o : Ending)

open Eval

/-- Begins a task: what is turned to next, and what waits for it. -/
def Task.begin : Task → Eval (Control × List Pending)
  | .expr .absent => fail .unreachable none
  | .expr (.assign name value) => return (.task (.expr value), [.assign name])
  | .expr (.binary left operator right) =>
    return (.task (.expr left), [.rightOperand operator right])
  | .expr (.call callee paren arguments) =>
    return (.task (.expr callee), [.arguments paren arguments])
  | .expr (.get object name) => return (.task (.expr object), [.property name])
  | .expr (.group inner) => return (.task (.expr inner), [])
  | .expr (.literal value) =>
    match Value.ofLiteral? value with
    | some v => return (.ending (.value v), [])
    | none => fail .unreachable none
  | .expr (.logical left operator right) =>
    return (.task (.expr left), [.decision operator right])
  | .expr (.set object name value) => return (.task (.expr object), [.fieldValue name value])
  | .expr (.superMethod keyword method) => do
    let v ← superMethod keyword method
    return (.ending (.value v), [])
  | .expr (.receiver keyword) => do
    let v ← lookup thisName keyword
    return (.ending (.value v), [])
  | .expr (.unary operator right) => return (.task (.expr right), [.operand operator])
  | .expr (.name name) => do
    let v ← lookup name.lexeme (some name)
    return (.ending (.value v), [])
  | .exprs [] => return (.ending (.values []), [])
  | .exprs (e :: rest) => return (.task (.expr e), [.furtherArguments rest])
  | .call id args token => do
    let m ← get
    match m.store.function? id with
    | none => fail .unreachable token
    | some f =>
      if args.length ≠ f.arity then fail (.argumentCount args.length f.arity) token
      else if 0 < m.maxDepth && m.maxDepth ≤ m.depth then fail (.callDepth m.maxDepth) token
      else do
        modify fun m => { m with depth := m.depth + 1 }
        return (.task (.code f args), [.active token])
  | .code f args =>
    match f.code, args with
    | .print, [] => throw .missingArgument
    | .print, v :: _ => do
      write ((← get).store.render v ++ [Text.newline])
      return (.ending (.value .nil), [])
    | .declared _ (.block body), args => do
      modify fun m => { m with frames := m.frames.push f.name }
      return (.task (.receive f args body), [.bodyEnd])
    | .declared _ _, _ => fail .missingBlock none
  | .receive f args body => do
    if f.isBound then
      let m ← get
      match m.heap.ref? f.this with
      | none => fail .unreachable none
      | some this =>
        match m.store.superclassOf? f with
        | some superclass =>
          return (.task (.enter (thisName :: superName :: f.params)
            (this :: .cls superclass :: args) body), [])
        | none => return (.task (.enter (thisName :: f.params) (this :: args) body), [])
    else return (.task (.enter f.params args body), [])
  | .enter [] _ body => return (.task (.stmts body), [])
  | .enter (_ :: _) [] _ => throw .missingArgument
  | .enter (name :: names) (value :: values) body => do
    define name value
    return (.task (.enter names values body), [])
  | .construct cls args token => do
    let id ← newInstance cls
    return (.task (.setUp id cls args token), [])
  | .setUp id cls args token => do
    match ← boundMethod ((← get).store.findMethod? cls initName) id with
    | .function initializer => return (.task (.call initializer args token), [.constructed id cls])
    | _ => return (.ending (.value (.object id (some cls))), [])
  | .stmt .absent => fail .unreachable none
  | .stmt (.block body) => do
    modify fun m => { m with frames := m.frames.push "block" }
    return (.task (.stmts body), [.blockEnd])
  | .stmt (.classDecl name superclass methods) => do
    define name.lexeme .nil
    match superclass with
    | none => return (.task (.build name none methods), [])
    | some t => return (.task (.expr (.name t)), [.superclass name t methods])
  | .stmt (.expr e) => return (.task (.expr e), [.discard])
  | .stmt (.funDecl decl) => do
    let id ← newFunction (.ofDecl decl none)
    return (.ending (.value (.function id)), [.define decl.name.lexeme])
  | .stmt (.choice condition yes no) => return (.task (.expr condition), [.branches yes no])
  | .stmt (.ret _ value) =>
    match value with
    | .absent => return (.ending (.flow (.returned .nil)), [])
    | value => return (.task (.expr value), [.ret])
  | .stmt (.varDecl name initial) =>
    match initial with
    | .absent => return (.ending (.value .nil), [.define name.lexeme])
    | initial => return (.task (.expr initial), [.define name.lexeme])
  | .stmt (.loop condition body) => return (.task (.loop condition body), [])
  | .build name superclass methods => do
    let declared ← required (methods.mapM id)
    let id ← newClass name.lexeme superclass declared
    return (.ending (.value (.cls id)), [.assign name, .discard])
  | .stmts [] => return (.ending (.flow .normal), [])
  | .stmts (s :: rest) => return (.task (.stmt s), [.following rest])
  | .loop condition body => return (.task (.expr condition), [.test condition body])
  | .program [] last => return (.ending (.result last), [])
  | .program (s :: rest) last =>
    match s with
    | .expr e => return (.task (.expr e), [.keep rest])
    | s => return (.task (.stmt s), [.next rest last])

/-- Hands an outcome to what waits for it. A stop is passed on; on its way out a call is uncounted,
and the frames of blocks and calls are taken off. -/
def Pending.resume : Pending → Ending → Eval (Control × List Pending)
  | .assign name, .value v => do
    Eval.assign name v
    return (.ending (.value v), [])
  | .rightOperand operator right, .value l =>
    return (.task (.expr right), [.operation l operator])
  | .operation l operator, .value r => do
    let v ← binaryOp operator l r
    return (.ending (.value v), [])
  | .arguments paren es, .value f =>
    return (.task (.exprs es), [.application f paren])
  | .application f paren, .values args =>
    match f with
    | .function id => return (.task (.call id args paren), [])
    | .cls id => return (.task (.construct id args paren), [])
    | _ => fail .notCallable paren
  | .furtherArguments rest, .value v => return (.task (.exprs rest), [.firstArgument v])
  | .firstArgument v, .values vs => return (.ending (.values (v :: vs)), [])
  | .property name, .value o =>
    match o with
    | .object id cls => do
      let name ← required name
      let v ← Eval.property id cls name.lexeme
      return (.ending (.value v), [])
    | v => unexpected v .object name
  | .decision operator right, .value l => do
    if ← decides operator l then return (.ending (.value l), [])
    else return (.task (.expr right), [])
  | .fieldValue name value, .value o =>
    match o with
    | .object id cls => return (.task (.expr value), [.field id cls name])
    | v => unexpected v .object name
  | .field id _ name, .value v => do
    let name ← required name
    setField id name v
    return (.ending (.value v), [])
  | .operand operator, .value r => do
    let v ← unaryOp operator r
    return (.ending (.value v), [])
  | .active token, o => do
    modify fun m => { m with depth := m.depth - 1 }
    match o with
    | .stopped stop => return (.ending (.stopped (stop.attributedTo token)), [])
    | o => return (.ending o, [])
  | .bodyEnd, o => do
    modify fun m => { m with frames := m.frames.pop }
    match o with
    | .flow (.returned v) => return (.ending (.value v), [])
    | .flow .normal => return (.ending (.value .nil), [])
    | o => return (.ending o, [])
  | .blockEnd, o => do
    modify fun m => { m with frames := m.frames.pop }
    return (.ending o, [])
  | .constructed id cls, .value _ => return (.ending (.value (.object id (some cls))), [])
  | .discard, .value _ => return (.ending (.flow .normal), [])
  | .branches yes no, .value c =>
    if c.truthy then return (.task (.stmt yes), [])
    else
      match no with
      | .absent => return (.ending (.flow .normal), [])
      | no => return (.task (.stmt no), [])
  | .ret, .value v => return (.ending (.flow (.returned v)), [])
  | .define name, .value v => do
    Eval.define name v
    return (.ending (.flow .normal), [])
  | .superclass name parent methods, .value v =>
    match v with
    | .cls id => return (.task (.build name (some id) methods), [])
    | v => unexpected v .cls (some parent)
  | .following rest, .flow .normal => return (.task (.stmts rest), [])
  | .test condition body, .value c =>
    if c.truthy then return (.task (.stmt body), [.again condition body])
    else return (.ending (.flow .normal), [])
  | .again condition body, .flow .normal => return (.task (.loop condition body), [])
  | .keep rest, .value v => return (.task (.program rest (some v)), [])
  | .next rest last, .flow flow =>
    match flow with
    | .normal => return (.task (.program rest last), [])
    | .returned v => return (.ending (.result (some v)), [])
  | _, o => return (.ending o, [])

/-- Whether it is the end of an active call that waits. -/
def Pending.isActive : Pending → Bool
  | .active _ => true
  | _ => false

/-- A moment of a run. What waits stands on a stack, the first to go on on top. -/
structure Moment where
  control : Control
  stack : List Pending
  machine : Machine

namespace Moment

/-- The moment after a step, with what waited before it. -/
def ofStep (stack : List Pending) : EStateM.Result Stop Machine (Control × List Pending) → Moment
  | .ok (control, new) m => ⟨control, new ++ stack, m⟩
  | .error stop m => ⟨.ending (.stopped stop), stack, m⟩

/-- The next moment. An outcome for which nothing waits is the end. -/
def step : Moment → Moment
  | ⟨.task t, stack, m⟩ => ofStep stack (t.begin m)
  | ⟨.ending o, [], m⟩ => ⟨.ending o, [], m⟩
  | ⟨.ending o, p :: stack, m⟩ => ofStep stack (p.resume o m)

/-- From one moment to the next; a task may be cut off. -/
inductive Moves : Moment → Moment → Prop where
  | step (c : Moment) : Moves c c.step
  | cutOff (t : Task) (stack : List Pending) (m : Machine) :
    Moves ⟨.task t, stack, m⟩ ⟨.ending (.stopped .outOfFuel), stack, m⟩

/-- From one moment to another, which may be much later. -/
abbrev Reaches : Moment → Moment → Prop :=
  Relation.ReflTransGen Moves

theorem reaches_iterate (n : Nat) (c : Moment) : Reaches c (step^[n] c) := by
  induction n generalizing c with
  | zero => exact .refl
  | succ n ih => exact .head (.step c) (ih c.step)

/-- The first moment of a program. -/
def start (program : List Stmt) (m : Machine) : Moment :=
  ⟨.task (.program program none), [], m⟩

/-- The first moment of the run of a program, which is numbered first. -/
def opening (m : Machine) (program : List Stmt) : Moment :=
  start (m.load program).1 (m.load program).2

/-- The number of calls that have begun and not ended. -/
def activeCalls (c : Moment) : Nat :=
  c.stack.countP Pending.isActive

end Moment

end Dynascope
