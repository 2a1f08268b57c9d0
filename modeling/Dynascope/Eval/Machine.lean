import Dynascope.Eval.Fault
import Dynascope.Scope.Frames
import Dynascope.Store.Heap

/-!
# The machine

* `Machine`: the state of an interpreter, which lasts from one run to the next.
* `Eval`: computations on the machine. However they end, the state reached so far stays.
* `withFrame`, `counted`, `attributed`: what surrounds blocks and calls. They undo their changes
  on every way out.
* `lookup`, `define`, `write` and so on: the steps from which evaluation is made.
-/

namespace Dynascope

/-- The state of an interpreter. -/
structure Machine where
  frames : Frames Value
  heap : Heap Value
  store : Store
  /-- The number of active calls. -/
  depth : Nat
  /-- The largest number of active calls, or 0 for no limit. -/
  maxDepth : Nat
  /-- What has been written, one text per write. -/
  written : Array Text
  /-- How many more writes succeed; none for all. -/
  writesLeft : Option Nat
  /-- The number for the next function declaration of a program. -/
  nextSite : Nat

/-- The largest number of active calls unless another one is set. -/
def defaultMaxDepth : Nat := 1024

namespace Machine

/-- The function `print`. -/
def printFunction : Function :=
  { name := "print", params := [("text" : Text)], code := .print, this := 0, owner := none }

/-- A new machine; the global frame holds `print`. -/
def new : Machine :=
  let (id, store) := Store.empty.addFunction printFunction
  { frames := ⟨[], Frame.set (.empty "global") printFunction.name (.function id)⟩
    heap := .empty
    store := store
    depth := 0
    maxDepth := defaultMaxDepth
    written := #[]
    writesLeft := none
    nextSite := 1 }

/-- Sets the limit of active calls; a negative one is ignored. -/
def limitDepth (m : Machine) (limit : Int) : Machine :=
  if 0 ≤ limit then { m with maxDepth := limit.toNat } else m

/-- Lets only so many writes succeed. -/
def limitWrites (m : Machine) (count : Nat) : Machine :=
  { m with writesLeft := some count }

/-- All that has been written. -/
def output (m : Machine) : Text :=
  m.written.toList.flatten

/-- Forgets what has been written. -/
def clearOutput (m : Machine) : Machine :=
  { m with written := #[] }

end Machine

/-- A computation on the machine. -/
abbrev Eval := EStateM Stop Machine

namespace Eval

variable {α : Type}

/-- Ends evaluation with a fault, attributed to a token. -/
def fail (fault : Fault) (token : Option Token) : Eval α :=
  throw (.fault ⟨fault, token⟩)

/-- Ends evaluation because a value of another type is needed. -/
def unexpected (value : Value) (expected : ValueKind) (token : Option Token) : Eval α :=
  fail (.unexpectedValue (some value) expected.name) token

/-- What stands in a place of a tree that must not be empty. -/
def required : Option α → Eval α
  | some a => return a
  | none => throw .missingPart

/-- Runs a computation in a frame of its own, which is taken off however the computation ends. -/
@[inline] def withFrame (name : Text) (act : Eval α) : Eval α := fun m =>
  match act { m with frames := m.frames.push name } with
  | .ok a m => .ok a { m with frames := m.frames.pop }
  | .error e m => .error e { m with frames := m.frames.pop }

/-- Runs a computation as one more active call. -/
@[inline] def counted (act : Eval α) : Eval α := fun m =>
  match act { m with depth := m.depth + 1 } with
  | .ok a m => .ok a { m with depth := m.depth - 1 }
  | .error e m => .error e { m with depth := m.depth - 1 }

/-- Attributes an error without a token to a token. -/
@[inline] def attributed (token : Option Token) (act : Eval α) : Eval α := fun m =>
  match act m with
  | .ok a m => .ok a m
  | .error e m => .error (e.attributedTo token) m

/-- The value of a name. -/
def lookup (name : Text) (token : Option Token) : Eval Value := do
  match (← get).frames.get? name with
  | some v => return v
  | none => fail .undefinedVariable token

/-- Defines a name in the current frame. -/
def define (name : Text) (value : Value) : Eval Unit := fun m =>
  match m.frames.define? name value with
  | some frames => .ok () { m with frames := frames }
  | none => .error .emptyName m

/-- Defines names one after the other; each name needs a value. -/
def defineAll : List Text → List Value → Eval Unit
  | [], _ => return ()
  | _ :: _, [] => throw .missingArgument
  | name :: names, value :: values => do
    define name value
    defineAll names values

/-- Gives a new value to the topmost definition of a name. -/
def assign (name : Token) (value : Value) : Eval Unit := fun m =>
  match m.frames.assign? name.lexeme value with
  | some frames => .ok () { m with frames := frames }
  | none => .error (.fault ⟨.undefinedVariable, some name⟩) m

/-- Adds a function object. -/
def newFunction (f : Function) : Eval FunctionId := fun m =>
  let (id, store) := m.store.addFunction f
  .ok id { m with store := store }

/-- A copy of a method that is bound to an instance, or nil if there is no method. -/
def boundMethod (method : Option FunctionId) (id : InstanceId) : Eval Value := do
  match method.bind (← get).store.function? with
  | some f => return .function (← newFunction (f.bind id))
  | none => return .nil

/-- Makes an instance of a class. -/
def newInstance (cls : ClassId) : Eval InstanceId := fun m =>
  let (id, heap) := m.heap.new cls
  .ok id { m with heap := heap }

/-- A property of an instance: a field or else a method of its class, bound to the instance; nil
if there is neither. -/
def property (id : InstanceId) (cls : Option ClassId) (name : Text) : Eval Value := do
  let m ← get
  match m.heap.field? id name with
  | some v => return v
  | none => boundMethod (cls.bind fun c => m.store.findMethod? c name) id

/-- Gives a value to a field. -/
def setField (id : InstanceId) (name : Token) (value : Value) : Eval Unit := fun m =>
  match m.heap.setField id name.lexeme value with
  | .ok heap => .ok () { m with heap := heap }
  | .error (.noInstance _) => .error (.fault ⟨.unreachable, some name⟩) m
  | .error .emptyName => .error .emptyName m

/-- Writes a text, if writes still succeed. -/
def write (text : Text) : Eval Unit := fun m =>
  match m.writesLeft with
  | none => .ok () { m with written := m.written.push text }
  | some 0 => .error .writeFailed m
  | some (n + 1) => .ok () { m with written := m.written.push text, writesLeft := some n }

/-- Adds the class of a declaration with its methods. -/
def newClass (name : Text) (superclass : Option ClassId) (methods : List FunDecl) :
    Eval ClassId := fun m =>
  let (ids, store) := m.store.addFunctions (methods.map fun d => .ofDecl d none)
  let (id, store) := store.addClass name superclass ids
  .ok id { m with store := store }

end Eval

end Dynascope
