import Dynascope.Eval.Machine

/-!
# Operators

What the operators do with the values of their operands.

* `unaryOp`: negation of truth values and numbers.
* `binaryOp`: equality, concatenation, arithmetic and comparison.
* `arithmetic?`: the operations on two numbers.
-/

namespace Dynascope.Eval

/-- The name of the receiver in the frame of a method. -/
def thisName : Text := "this"

/-- The name of the superclass in the frame of a method. -/
def superName : Text := "super"

/-- The name of the method that is called on a new instance. -/
def initName : Text := "init"

/-- The number of a value, which has to have one. -/
def number (operator : Token) (value : Value) : Eval Float :=
  match value.toNumber? with
  | some x => return x
  | none => unexpected value .number (some operator)

/-- The value of an operation with one operand. -/
def unaryOp (operator : Token) (right : Value) : Eval Value := do
  match operator.kind with
  | .bang => return .bool !right.truthy
  | .minus => return .number (-(← number operator right))
  | _ => fail .unreachable (some operator)

/-- The value of an operation with two numbers, except division. -/
def arithmetic? (operator : Kind) (x y : Float) : Option Value :=
  match operator with
  | .plus => some (.number (x + y))
  | .minus => some (.number (x - y))
  | .star => some (.number (x * y))
  | .greater => some (.bool (y < x))
  | .greaterEqual => some (.bool (y ≤ x))
  | .less => some (.bool (x < y))
  | .lessEqual => some (.bool (x ≤ y))
  | _ => none

/-- The value of an operation on the numbers of two values. -/
def numericOp (operator : Token) (left right : Value) : Eval Value := do
  let x ← number operator left
  let y ← number operator right
  match operator.kind with
  | .slash =>
    if y == 0 then fail .divisionByZero (some operator)
    else return .number (x / y)
  | kind =>
    match arithmetic? kind x y with
    | some v => return v
    | none => fail .unreachable (some operator)

/-- The value of an operation with two operands. A sum with a string concatenates the texts. -/
def binaryOp (operator : Token) (left right : Value) : Eval Value := do
  let store := (← get).store
  match operator.kind with
  | .equalEqual => return .bool (store.equal left right)
  | .bangEqual => return .bool !store.equal left right
  | .plus =>
    if left.kind = .string || right.kind = .string then
      return .string (store.render left ++ store.render right)
    else numericOp operator left right
  | _ => numericOp operator left right

/-- Whether the left operand decides a conjunction or disjunction. -/
def decides (operator : Token) (left : Value) : Eval Bool :=
  match operator.kind with
  | .kwOr => return left.truthy
  | .kwAnd => return !left.truthy
  | _ => fail .unreachable (some operator)

/-- The method of the superclass, bound to the receiver of the current method. -/
def superMethod (keyword : Option Token) (method : Token) : Eval Value := do
  match ← lookup superName keyword with
  | .cls superclass =>
    match ← lookup thisName keyword with
    | .object id _ =>
      boundMethod ((← get).store.findMethod? superclass method.lexeme) id
    | v => unexpected v .object keyword
  | v => unexpected v .cls keyword

/-- Defines the receiver of a bound method and the superclass of its owner. -/
def defineReceiver (f : Function) : Eval Unit := do
  if f.isBound then
    let m ← get
    match m.heap.ref? f.this with
    | none => fail .unreachable none
    | some this =>
      define thisName this
      match m.store.superclassOf? f with
      | some superclass => define superName (.cls superclass)
      | none => return ()
  else return ()

/-- Declares a class. Its name is defined before the superclass is looked up, so a class never
finds itself. -/
def declareClass (name : Token) (superclass : Option Token) (methods : List (Option FunDecl)) :
    Eval Unit := do
  define name.lexeme .nil
  let parent ← (do
    match superclass with
    | none => return none
    | some t =>
      match ← lookup t.lexeme (some t) with
      | .cls id => return some id
      | v => unexpected v .cls (some t))
  let declared ← required (methods.mapM id)
  let id ← newClass name.lexeme parent declared
  assign name (.cls id)

end Dynascope.Eval
