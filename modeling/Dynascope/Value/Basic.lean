import Dynascope.Number.Reader
import Dynascope.Token.Basic

/-!
# Values

Functions, classes and instances are objects of a store; their values are references.

* `ValueKind`: the type of a value, with its name.
* `Value`: a value.
* `Value.truthy`, `Value.toNumber?`: the conversions to truth values and numbers.
* `Held`: a place that may hold no value at all.
-/

namespace Dynascope

/-- The type of a value. -/
inductive ValueKind where
  | nil
  | bool
  | number
  | string
  | function
  | cls
  | object
  /-- A type outside the language. -/
  | other (code : Int)
  deriving Repr, DecidableEq

namespace ValueKind

/-- The type with a number; numbers are signed bytes. -/
def ofCode (n : Int) : ValueKind :=
  match n.bmod 256 with
  | 0 => nil
  | 1 => bool
  | 2 => number
  | 3 => string
  | 4 => function
  | 5 => cls
  | 6 => object
  | k => other k

/-- The name of a type. -/
def name : ValueKind → Text
  | nil => "Nil"
  | bool => "Bool"
  | number => "Number"
  | string => "String"
  | function => "Function"
  | cls => "Class"
  | object => "Instance"
  | other n => ("Kind(" : Text) ++ Text.ofInt n ++ (")" : Text)

end ValueKind

/-- The number of a function object. -/
abbrev FunctionId := Nat

/-- The number of a class object. -/
abbrev ClassId := Nat

/-- The number of an instance. Instances count from 1; no instance has a smaller number. -/
abbrev InstanceId := Int

/-- A value. -/
inductive Value where
  | nil
  | bool (value : Bool)
  | number (value : Float)
  | string (value : Text)
  | function (id : FunctionId)
  | cls (id : ClassId)
  /-- An instance with the class it was made from; a reference made by hand may lack the class. -/
  | object (id : InstanceId) (cls : Option ClassId)
  deriving Repr, DecidableEq

namespace Value

/-- The type of a value. -/
def kind : Value → ValueKind
  | nil => .nil
  | bool _ => .bool
  | number _ => .number
  | string _ => .string
  | function _ => .function
  | cls _ => .cls
  | object _ _ => .object

/-- The value of a constant, unless its type is foreign to the language. -/
def ofLiteral? : Literal → Option Value
  | .nil => some nil
  | .bool b => some (bool b)
  | .number x => some (number x)
  | .string s => some (string s)
  | .foreign _ => none

/-- Whether a value counts as true: all do but nil, false, zero and the empty string. -/
def truthy : Value → Bool
  | nil => false
  | bool b => b
  | number x => x != 0
  | string s => !s.isEmpty
  | _ => true

/-- The number of a value: numbers, truth values as 1 and 0, and strings that are numerals. -/
def toNumber? : Value → Option Float
  | number x => some x
  | bool b => some (if b then 1 else 0)
  | string s =>
    match Number.read s with
    | .number x => some x
    | _ => none
  | _ => none

end Value

/-- The content of a place that may hold no value at all. -/
abbrev Held := Option Value

namespace Held

/-- Whether the content counts as true; no value does not. -/
def truthy : Held → Bool
  | none => false
  | some v => v.truthy

/-- Whether the content is nil; no value counts as nil here. -/
def isNil : Held → Bool
  | none => true
  | some v => v.kind = .nil

end Held

end Dynascope
