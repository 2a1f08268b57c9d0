import Dynascope.Scope.Bindings
import Dynascope.Tree.Basic
import Dynascope.Value.Basic

/-!
# Functions and classes

* `Function`: a function object. A method belongs to the class that owns it; a bound copy of it
  carries the instance it is bound to.
* `Class`: a class object with its own methods; of several methods with one name the last counts.
* `Store`: all function and class objects.
* `Store.lineage`: a class, its superclass, the superclass of that, and so on.
* `Store.findMethod?`: the method of the nearest class of the lineage that has one of the name.
* `Store.render`, `Store.equal`: the text of values and their equality.
-/

namespace Dynascope

/-- What a call of a function does. -/
inductive Code where
  /-- Writes the argument. -/
  | print
  /-- Runs the body of a declaration. -/
  | declared (site : Nat) (body : Stmt)

/-- What tells the bodies of functions apart: the site of the declaration. A function without a
body has none. -/
def Code.site? : Code → Option Nat
  | .print => none
  | .declared _ .absent => none
  | .declared site _ => some site

/-- A function object. -/
structure Function where
  name : Text
  params : List Text
  code : Code
  /-- The instance it is bound to, or 0. -/
  this : InstanceId
  /-- The class whose method it is. -/
  owner : Option ClassId

namespace Function

/-- The function of a declaration, not bound to an instance. -/
def ofDecl (decl : FunDecl) (owner : Option ClassId) : Function :=
  { name := decl.name.lexeme
    params := decl.params.map Token.lexeme
    code := .declared decl.site decl.body
    this := 0
    owner := owner }

/-- The number of arguments a call needs. -/
def arity (f : Function) : Nat :=
  f.params.length

/-- Whether a function is bound to an instance. -/
def isBound (f : Function) : Bool :=
  f.this ≠ 0

/-- A copy of a function that is bound to an instance. -/
def bind (f : Function) (instanceId : InstanceId) : Function :=
  { f with this := instanceId }

/-- Two functions are the same if name, body and bound instance are. -/
def same (f g : Function) : Bool :=
  f.name = g.name && f.code.site? = g.code.site? && f.this = g.this

end Function

/-- A class object. -/
structure Class where
  name : Text
  superclass : Option ClassId
  methods : Bindings FunctionId

/-- The function and class objects, by number. -/
structure Store where
  functions : Array Function
  classes : Array Class

namespace Store

/-- No objects. -/
def empty : Store :=
  ⟨#[], #[]⟩

/-- The function object with a number. -/
def function? (s : Store) (id : FunctionId) : Option Function :=
  s.functions[id]?

/-- The class object with a number. -/
def class? (s : Store) (id : ClassId) : Option Class :=
  s.classes[id]?

/-- Adds a function object. -/
def addFunction (s : Store) (f : Function) : FunctionId × Store :=
  (s.functions.size, { s with functions := s.functions.push f })

/-- Adds function objects one after the other. -/
def addFunctions (s : Store) : List Function → List FunctionId × Store
  | [] => ([], s)
  | f :: rest =>
    let (id, s) := s.addFunction f
    let (ids, s) := s.addFunctions rest
    (id :: ids, s)

/-- Makes a class the owner of a function. -/
def own (s : Store) (owner : ClassId) (id : FunctionId) : Store :=
  { s with functions := s.functions.modify id fun f => { f with owner := some owner } }

/-- The name of a function object. -/
def functionName (s : Store) (id : FunctionId) : Text :=
  ((s.function? id).map Function.name).getD []

/-- Adds a class with methods, which it owns from then on. -/
def addClass (s : Store) (name : Text) (superclass : Option ClassId)
    (methods : List FunctionId) : ClassId × Store :=
  let id := s.classes.size
  let table := methods.foldl (fun t m => t.set (s.functionName m) m) Bindings.empty
  let owned := methods.foldl (fun s m => s.own id m) s
  (id, { owned with classes := owned.classes.push ⟨name, superclass, table⟩ })

/-- A class and its ancestors, at most `fuel` of them. -/
def lineageUpTo (s : Store) : (fuel : Nat) → ClassId → List ClassId
  | 0, _ => []
  | n + 1, id =>
    match s.class? id with
    | none => []
    | some c => id :: (c.superclass.map (s.lineageUpTo n)).getD []

/-- A class and its ancestors. There are no more of them than classes. -/
def lineage (s : Store) (id : ClassId) : List ClassId :=
  s.lineageUpTo s.classes.size id

/-- The method of a class itself. -/
def ownMethod? (s : Store) (name : Text) (id : ClassId) : Option FunctionId :=
  (s.class? id).bind fun c => c.methods.get? name

/-- The method of the nearest class of the lineage that has one of the name. -/
def findMethod? (s : Store) (id : ClassId) (name : Text) : Option FunctionId :=
  (s.lineage id).findSome? (s.ownMethod? name)

/-- The superclass of the owner of a function. -/
def superclassOf? (s : Store) (f : Function) : Option ClassId :=
  (f.owner.bind s.class?).bind Class.superclass

/-- The name of a class. -/
def className (s : Store) (id : ClassId) : Text :=
  ((s.class? id).map Class.name).getD []

/-- The text of a value. -/
def render (s : Store) : Value → Text
  | .nil => "nil"
  | .bool b => boolText b
  | .number x => Number.text x
  | .string t => t
  | .function _ => "native function"
  | .cls id => s.className id
  | .object _ none => "instance"
  | .object _ (some id) => s.className id ++ (" instance" : Text)

/-- Equality of values. Values of different types differ; instances and classes are equal if they
are one object, functions if name, body and bound instance agree. -/
def equal (s : Store) : Value → Value → Bool
  | .nil, .nil => true
  | .bool a, .bool b => a == b
  | .number x, .number y => x == y
  | .string a, .string b => a == b
  | .function f, .function g =>
    match s.function? f, s.function? g with
    | some f, some g => f.same g
    | _, _ => f == g
  | .cls a, .cls b => a == b
  | .object a _, .object b _ => a == b
  | _, _ => false

/-- The text of the content of a place. -/
def renderHeld (s : Store) : Held → Text
  | none => "<nil>"
  | some v => s.render v

/-- Equality of the contents of two places; no value equals nil. -/
def equalHeld (s : Store) : Held → Held → Bool
  | some a, some b => s.equal a b
  | a, b => a.isNil && b.isNil

/-- The text of a variable with its content. -/
def renderTag (s : Store) (name : Text) (content : Held) : Text :=
  ("<tag '" : Text) ++ name ++ ("'=" : Text) ++ s.renderHeld content ++ (">" : Text)

end Store

end Dynascope
