import Dynascope.Scope.Bindings
import Dynascope.Value.Basic

/-!
# Instances

* `Instance`: the class and the fields of an instance.
* `Heap`: all instances; the first has number 1, and no number is used twice.
* `Heap.new`, `Heap.ref?`, `Heap.field?`, `Heap.setField`: the operations on instances.
-/

namespace Dynascope

/-- An instance of a class. -/
structure Instance (V : Type) where
  cls : ClassId
  fields : Bindings V

/-- Why a field cannot be written. -/
inductive FieldError where
  /-- There is no instance with the number. -/
  | noInstance (id : InstanceId)
  /-- A field needs a name. -/
  | emptyName
  deriving Repr, DecidableEq

/-- The text for a number that no instance has. -/
def noInstanceMessage (id : InstanceId) : Text :=
  ("no instance with id " : Text) ++ Text.ofInt id

/-- The instances in the order in which they were made. -/
structure Heap (V : Type) where
  instances : Array (Instance V)

namespace Heap

variable {V : Type}

/-- No instances. -/
def empty : Heap V :=
  ⟨#[]⟩

/-- The number of instances. -/
def size (h : Heap V) : Nat :=
  h.instances.size

/-- Makes an instance without fields. -/
def new (h : Heap V) (cls : ClassId) : InstanceId × Heap V :=
  (h.size + 1, ⟨h.instances.push ⟨cls, .empty⟩⟩)

/-- The place of the instance with a number. -/
def index? (h : Heap V) (id : InstanceId) : Option Nat :=
  if 0 < id && id ≤ h.size then some (id.toNat - 1) else none

/-- The instance with a number. -/
def instance? (h : Heap V) (id : InstanceId) : Option (Instance V) :=
  (h.index? id).bind fun i => h.instances[i]?

/-- A reference to the instance with a number. -/
def ref? (h : Heap V) (id : InstanceId) : Option Value :=
  (h.instance? id).map fun i => .object id (some i.cls)

/-- The value of a field. -/
def field? (h : Heap V) (id : InstanceId) (name : Text) : Option V :=
  (h.instance? id).bind fun i => i.fields.get? name

/-- Gives a value to a field, which is made if need be. -/
def setField (h : Heap V) (id : InstanceId) (name : Text) (value : V) :
    Except FieldError (Heap V) :=
  match h.index? id with
  | none => .error (.noInstance id)
  | some i =>
    if name.isEmpty then .error .emptyName
    else .ok ⟨h.instances.modify i fun x => { x with fields := x.fields.set name value }⟩

end Heap

end Dynascope
