import Dynascope.Eval.Operators

/-!
# Evaluation

Expressions yield values, statements end normally or return. Each call hands one unit less of fuel
on; a program that ends does so with all fuel from some amount on.

* `Flow`: how a statement ends.
* `eval`, `exec`: evaluation of expressions and execution of statements.
* `invoke`, `instantiate`: calls of functions and of classes.
-/

namespace Dynascope

/-- How a statement ends. -/
inductive Flow where
  | normal
  | returned (value : Value)
  deriving Repr, DecidableEq

namespace Eval

mutual

/-- The value of an expression. -/
def eval : (fuel : Nat) → Expr → Eval Value
  | 0, _ => throw .outOfFuel
  | _ + 1, .absent => fail .unreachable none
  | n + 1, .assign name value => do
    let v ← eval n value
    assign name v
    return v
  | n + 1, .binary left operator right => do
    let l ← eval n left
    let r ← eval n right
    binaryOp operator l r
  | n + 1, .call callee paren arguments => do
    let f ← eval n callee
    let args ← evalAll n arguments
    match f with
    | .function id => invoke n id args paren
    | .cls id => instantiate n id args paren
    | _ => fail .notCallable paren
  | n + 1, .get object name => do
    match ← eval n object with
    | .object id cls => do
      let name ← required name
      property id cls name.lexeme
    | v => unexpected v .object name
  | n + 1, .group inner => eval n inner
  | _ + 1, .literal value =>
    match Value.ofLiteral? value with
    | some v => return v
    | none => fail .unreachable none
  | n + 1, .logical left operator right => do
    let l ← eval n left
    if ← decides operator l then return l
    else eval n right
  | n + 1, .set object name value => do
    match ← eval n object with
    | .object id _ =>
      let v ← eval n value
      let name ← required name
      setField id name v
      return v
    | v => unexpected v .object name
  | _ + 1, .superMethod keyword method => superMethod keyword method
  | _ + 1, .receiver keyword => lookup thisName keyword
  | n + 1, .unary operator right => do
    let r ← eval n right
    unaryOp operator r
  | _ + 1, .name name => lookup name.lexeme (some name)

/-- The values of expressions, from left to right. -/
def evalAll : (fuel : Nat) → List Expr → Eval (List Value)
  | 0, _ => throw .outOfFuel
  | _ + 1, [] => return []
  | n + 1, e :: rest => do
    let v ← eval n e
    let vs ← evalAll n rest
    return v :: vs

/-- Calls a function. The number of arguments is checked before the depth of calls; an error
without a token is attributed to the call. -/
def invoke : (fuel : Nat) → FunctionId → List Value → Option Token → Eval Value
  | 0, _, _, _ => throw .outOfFuel
  | n + 1, id, args, token => do
    let m ← get
    match m.store.function? id with
    | none => fail .unreachable token
    | some f =>
      if args.length ≠ f.arity then fail (.argumentCount args.length f.arity) token
      else if 0 < m.maxDepth && m.maxDepth ≤ m.depth then fail (.callDepth m.maxDepth) token
      else attributed token (counted (runFunction n f args))

/-- Runs the code of a function. A body runs in a frame with the receiver, the superclass and the
arguments. -/
def runFunction : (fuel : Nat) → Function → List Value → Eval Value
  | 0, _, _ => throw .outOfFuel
  | n + 1, f, args =>
    match f.code, args with
    | .print, [] => throw .missingArgument
    | .print, v :: _ => do
      write ((← get).store.render v ++ [Text.newline])
      return .nil
    | .declared _ (.block body), args => do
      let flow ← withFrame f.name (do
        defineReceiver f
        defineAll f.params args
        execAll n body)
      match flow with
      | .returned v => return v
      | .normal => return .nil
    | .declared _ _, _ => fail .missingBlock none

/-- Makes an instance of a class and calls its initializer, if it has one. Without one the
arguments are ignored. -/
def instantiate : (fuel : Nat) → ClassId → List Value → Option Token → Eval Value
  | 0, _, _, _ => throw .outOfFuel
  | n + 1, cls, args, token => do
    let id ← newInstance cls
    match ← boundMethod ((← get).store.findMethod? cls initName) id with
    | .function initializer =>
      let _ ← invoke n initializer args token
      return .object id (some cls)
    | _ => return .object id (some cls)

/-- Executes a statement. -/
def exec : (fuel : Nat) → Stmt → Eval Flow
  | 0, _ => throw .outOfFuel
  | _ + 1, .absent => fail .unreachable none
  | n + 1, .block body => withFrame "block" (execAll n body)
  | _ + 1, .classDecl name superclass methods => do
    declareClass name superclass methods
    return .normal
  | n + 1, .expr e => do
    let _ ← eval n e
    return .normal
  | _ + 1, .funDecl decl => do
    let id ← newFunction (.ofDecl decl none)
    define decl.name.lexeme (.function id)
    return .normal
  | n + 1, .choice condition yes no => do
    let c ← eval n condition
    if c.truthy then exec n yes
    else
      match no with
      | .absent => return .normal
      | no => exec n no
  | n + 1, .ret _ value =>
    match value with
    | .absent => return .returned .nil
    | value => do
      let v ← eval n value
      return .returned v
  | n + 1, .varDecl name initial => do
    let v ← (match initial with
      | .absent => return .nil
      | initial => eval n initial)
    define name.lexeme v
    return .normal
  | n + 1, .loop condition body => execLoop n condition body

/-- Executes statements up to the first that does not end normally. -/
def execAll : (fuel : Nat) → List Stmt → Eval Flow
  | 0, _ => throw .outOfFuel
  | _ + 1, [] => return .normal
  | n + 1, s :: rest => do
    match ← exec n s with
    | .normal => execAll n rest
    | flow => return flow

/-- Executes the body of a loop as long as its condition holds and the body ends normally. -/
def execLoop : (fuel : Nat) → Expr → Stmt → Eval Flow
  | 0, _, _ => throw .outOfFuel
  | n + 1, condition, body => do
    let c ← eval n condition
    if c.truthy then
      match ← exec n body with
      | .normal => execLoop n condition body
      | flow => return flow
    else return .normal

end

/-- Executes the statements of a program. The result is the value of the last expression statement,
if there is one, or that of a return statement, which ends the program. -/
def interpret (fuel : Nat) : List Stmt → Held → Eval Held
  | [], last => return last
  | s :: rest, last =>
    match s with
    | .expr e => do
      let v ← eval fuel e
      interpret fuel rest (some v)
    | s => do
      match ← exec fuel s with
      | .normal => interpret fuel rest last
      | .returned v => return some v

end Eval

end Dynascope
