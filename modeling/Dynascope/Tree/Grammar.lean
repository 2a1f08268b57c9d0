import Dynascope.Tree.Basic
import Dynascope.Tree.ParseError

/-!
# The grammar

The parser reads a list of tokens by recursive descent. Its state is what is left of the tokens, on
failure too: recovery goes on from the place of the failure.

```text
declaration := "class" IDENT ("<" IDENT)? "{" function* "}" | "fun" function | varDecl | statement
function    := IDENT "(" (IDENT ("," IDENT)*)? ")" block
varDecl     := "var" IDENT ("=" expression)? ";"
statement   := for | if | return | while | block | expression ";"
expression  := (call "." IDENT | IDENT) "=" expression | or
or, and, equality, comparison, term, factor := chains of operators, associating to the left
unary       := ("!" | "-") unary | call
call        := primary ("(" (expression ("," expression)*)? ")" | "." IDENT)*
```

* `Level`: the binary operators by precedence.
* `Parser`: a reader of tokens.
* `declaration` and the functions with it: one reader per rule. Each call hands one unit less of
  fuel on, and `fuelFor` is enough for every list of tokens.
* `synchronize`: what recovery drops.
* `parseProgram`: the statements and errors of a list of tokens.
-/

namespace Dynascope

/-- Reads tokens; success and failure both leave the rest of the tokens. -/
abbrev Parser := EStateM ParseError (List Token)

namespace Parser

/-- Whether no token is left before the end of the input. -/
def atEnd : List Token → Bool
  | [] => true
  | t :: _ => t.kind = .endOfInput

/-- Whether the next token is of a kind. -/
def next (kind : Kind) : Parser Bool := do
  return (← get).head?.any fun t => t.kind = kind

/-- Whether no token is left before the end of the input. -/
def done : Parser Bool := do
  return atEnd (← get)

/-- Takes the next token if its kind is among `kinds`. -/
def accept (kinds : List Kind) : Parser (Option Token) := do
  match ← get with
  | [] => return none
  | t :: rest =>
    if t.kind ∈ kinds then
      set rest
      return some t
    else return none

/-- Fails at the next token, or without a token if none is left. -/
def failHere {α : Type} (fault : ParseFault) : Parser α := do
  match ← get with
  | [] => throw ⟨.noToken, none⟩
  | t :: _ => throw ⟨fault, some t⟩

/-- Takes the next token, which has to be of a kind. -/
def expect (kind : Kind) : Parser Token := do
  match ← accept [kind] with
  | some t => return t
  | none => failHere (.expected kind)

/-- Fails because the fuel is used up. -/
def exhausted {α : Type} : Parser α :=
  throw ⟨.noToken, none⟩

/-- Names separated by commas, at least one. -/
def names : (fuel : Nat) → Parser (List Token)
  | 0 => exhausted
  | n + 1 => do
    let name ← expect .identifier
    match ← accept [.comma] with
    | some _ => return name :: (← names n)
    | none => return [name]

end Parser

/-- The binary operators by precedence, from the loosest to the tightest. -/
inductive Level where
  | or
  | and
  | equality
  | comparison
  | term
  | factor
  deriving Repr, DecidableEq

namespace Level

/-- The next tighter level. -/
def tighter? : Level → Option Level
  | or => some and
  | and => some equality
  | equality => some comparison
  | comparison => some term
  | term => some factor
  | factor => none

/-- The operators of a level. -/
def operators : Level → List Kind
  | or => [.kwOr]
  | and => [.kwAnd]
  | equality => [.bangEqual, .equalEqual]
  | comparison => [.greater, .greaterEqual, .less, .lessEqual]
  | term => [.minus, .plus]
  | factor => [.slash, .star]

/-- The tree of an operation of a level. -/
def node (level : Level) (left : Expr) (operator : Token) (right : Expr) : Expr :=
  match level with
  | or | and => .logical left operator right
  | _ => .binary left operator right

end Level

/-- The tree of a `for` loop: a block with the initial statement and a loop, whose body is a block
with the body and the increment. A missing condition is true. -/
def forLoop (initial : Option Stmt) (condition increment : Option Expr) (body : Stmt) : Stmt :=
  let step := increment.toList.map Stmt.expr
  let loop := Stmt.loop (condition.getD (.literal (.bool true))) (.block (body :: step))
  .block (initial.toList ++ [loop])

/-- The constant of a number or string token. -/
def Token.constant (t : Token) : Parser Expr :=
  match t.value with
  | some value => return .literal value
  | none => throw ⟨.literalWithoutValue, some t⟩

open Dynascope.Parser

mutual

/-- An expression: an assignment or a disjunction. The target of an assignment is read as a
disjunction and has to be a variable or a property. -/
def expression : (fuel : Nat) → Parser Expr
  | 0 => exhausted
  | n + 1 => do
    let target ← chain n .or
    match ← accept [.equal] with
    | none => return target
    | some equals =>
      let value ← expression n
      match target with
      | .name name => return .assign name value
      | .get object name => return .set object name value
      | _ => throw ⟨.invalidTarget, some equals⟩

/-- A chain of operators of one level. -/
def chain : (fuel : Nat) → Level → Parser Expr
  | 0, _ => exhausted
  | n + 1, level => do
    let left ← operand n level
    chainRest n level left

/-- The rest of a chain after its left part. -/
def chainRest : (fuel : Nat) → Level → Expr → Parser Expr
  | 0, _, _ => exhausted
  | n + 1, level, left => do
    match ← accept level.operators with
    | none => return left
    | some operator =>
      let right ← operand n level
      chainRest n level (level.node left operator right)

/-- An operand of a level: a chain of the next level, or an operand with its signs. -/
def operand : (fuel : Nat) → Level → Parser Expr
  | 0, _ => exhausted
  | n + 1, level =>
    match level.tighter? with
    | some tighter => chain n tighter
    | none => unary n

/-- An operand with its signs. -/
def unary : (fuel : Nat) → Parser Expr
  | 0 => exhausted
  | n + 1 => do
    match ← accept [.bang, .minus] with
    | some operator => return .unary operator (← unary n)
    | none => call n

/-- A primary expression with its calls and properties. -/
def call : (fuel : Nat) → Parser Expr
  | 0 => exhausted
  | n + 1 => do
    let callee ← primary n
    callRest n callee

/-- The calls and properties that follow an expression. -/
def callRest : (fuel : Nat) → Expr → Parser Expr
  | 0, _ => exhausted
  | n + 1, callee => do
    match ← accept [.leftParen, .dot] with
    | none => return callee
    | some t =>
      if t.kind = .leftParen then
        let given ← (do
          if ← next .rightParen then return []
          else arguments n)
        let paren ← expect .rightParen
        callRest n (.call callee (some paren) given)
      else
        let name ← expect .identifier
        callRest n (.get callee (some name))

/-- Expressions separated by commas, at least one. -/
def arguments : (fuel : Nat) → Parser (List Expr)
  | 0 => exhausted
  | n + 1 => do
    let argument ← expression n
    match ← accept [.comma] with
    | some _ => return argument :: (← arguments n)
    | none => return [argument]

/-- A constant, a variable, a receiver, a method of the superclass or a group. -/
def primary : (fuel : Nat) → Parser Expr
  | 0 => exhausted
  | n + 1 => do
    match ← accept [.kwFalse, .kwTrue, .kwNil, .number, .string, .kwSuper, .kwThis, .identifier,
        .leftParen] with
    | none => failHere .unexpectedToken
    | some t =>
      match t.kind with
      | .kwFalse => return .literal (.bool false)
      | .kwTrue => return .literal (.bool true)
      | .kwNil => return .literal .nil
      | .kwSuper =>
        let _ ← expect .dot
        let method ← expect .identifier
        return .superMethod (some t) method
      | .kwThis => return .receiver (some t)
      | .identifier => return .name t
      | .leftParen =>
        let inner ← expression n
        let _ ← expect .rightParen
        return .group inner
      | _ => t.constant

end

/-- An expression followed by a semicolon. -/
def expressionStatement (fuel : Nat) : Parser Stmt := do
  let e ← expression fuel
  let _ ← expect .semicolon
  return .expr e

/-- An expression in parentheses. -/
def parenthesized (fuel : Nat) : Parser Expr := do
  let _ ← expect .leftParen
  let e ← expression fuel
  let _ ← expect .rightParen
  return e

/-- An expression, unless a token of a kind is next. -/
def expressionUnless (kind : Kind) (fuel : Nat) : Parser (Option Expr) := do
  if ← next kind then return none
  else return some (← expression fuel)

/-- A variable declaration after its keyword. -/
def varDeclaration (fuel : Nat) : Parser Stmt := do
  let name ← expect .identifier
  match ← accept [.equal] with
  | some _ =>
    let initial ← expression fuel
    let _ ← expect .semicolon
    return .varDecl name initial
  | none =>
    let _ ← expect .semicolon
    return .varDecl name .absent

/-- A `return` statement after its keyword. -/
def returnStatement (keyword : Token) (fuel : Nat) : Parser Stmt := do
  let value ← expressionUnless .semicolon fuel
  let _ ← expect .semicolon
  return .ret (some keyword) (value.getD .absent)

/-- The initial statement of a `for` loop with its semicolon. -/
def forInitial (fuel : Nat) : Parser (Option Stmt) := do
  match ← accept [.semicolon, .kwVar] with
  | none => return some (← expressionStatement fuel)
  | some t => if t.kind = .semicolon then return none else return some (← varDeclaration fuel)

/-- The parameters of a function and the opening brace of its body. -/
def parameters (fuel : Nat) : Parser (List Token) := do
  let _ ← expect .leftParen
  let params ← (do
    if ← next .rightParen then return []
    else names fuel)
  let _ ← expect .rightParen
  let _ ← expect .leftBrace
  return params

/-- The superclass of a class and the opening brace of its body. -/
def superclassClause : Parser (Option Token) := do
  let superclass ← (do
    match ← accept [.less] with
    | some _ => return some (← expect .identifier)
    | none => return none)
  let _ ← expect .leftBrace
  return superclass

mutual

/-- A declaration or a statement. -/
def declaration : (fuel : Nat) → Parser Stmt
  | 0 => exhausted
  | n + 1 => do
    match ← accept [.kwClass, .kwFun, .kwVar] with
    | none => statement n
    | some t =>
      match t.kind with
      | .kwClass =>
        let name ← expect .identifier
        let superclass ← superclassClause
        return .classDecl name superclass ((← methods n).map some)
      | .kwFun => return .funDecl (← function n)
      | _ => varDeclaration n

/-- A function after its keyword, or a method. -/
def function : (fuel : Nat) → Parser FunDecl
  | 0 => exhausted
  | n + 1 => do
    let name ← expect .identifier
    let params ← parameters n
    return ⟨0, name, params, .block (← block n)⟩

/-- The methods of a class and the closing brace. -/
def methods : (fuel : Nat) → Parser (List FunDecl)
  | 0 => exhausted
  | n + 1 => do
    if (← next .rightBrace) || (← done) then
      let _ ← expect .rightBrace
      return []
    else
      let method ← function n
      return method :: (← methods n)

/-- The statements of a block and the closing brace. -/
def block : (fuel : Nat) → Parser (List Stmt)
  | 0 => exhausted
  | n + 1 => do
    if (← next .rightBrace) || (← done) then
      let _ ← expect .rightBrace
      return []
    else
      let first ← declaration n
      return first :: (← block n)

/-- A statement. -/
def statement : (fuel : Nat) → Parser Stmt
  | 0 => exhausted
  | n + 1 => do
    match ← accept [.kwFor, .kwIf, .kwReturn, .kwWhile, .leftBrace] with
    | none => expressionStatement n
    | some t =>
      match t.kind with
      | .kwFor =>
        let _ ← expect .leftParen
        let initial ← forInitial n
        let condition ← expressionUnless .semicolon n
        let _ ← expect .semicolon
        let increment ← expressionUnless .rightParen n
        let _ ← expect .rightParen
        return forLoop initial condition increment (← statement n)
      | .kwIf =>
        let condition ← parenthesized n
        let yes ← statement n
        match ← accept [.kwElse] with
        | some _ => return .choice condition yes (← statement n)
        | none => return .choice condition yes .absent
      | .kwReturn => returnStatement t n
      | .kwWhile =>
        let condition ← parenthesized n
        return .loop condition (← statement n)
      | _ => return .block (← block n)

end

/-- Fuel that is enough to read one declaration from at most `count` tokens: between two tokens
fewer than 32 rules are entered. -/
def fuelFor (count : Nat) : Nat :=
  32 * (count + 1)

/-- The kinds of the tokens at which recovery stops. -/
def starters : List Kind :=
  [.kwClass, .kwFun, .kwVar, .kwFor, .kwIf, .kwWhile, .kwReturn]

/-- Drops tokens up to the end, a token after a semicolon, or a token that starts a declaration or
statement; `previous` is the token before them. -/
def skipTo (previous : Token) : List Token → List Token
  | [] => []
  | t :: rest =>
    if t.kind = .endOfInput || previous.kind = .semicolon || t.kind ∈ starters then t :: rest
    else skipTo t rest

/-- What is left after recovery from a failure: the token of the failure is dropped in any case. -/
def synchronize : List Token → List Token
  | [] => []
  | t :: rest => if t.kind = .endOfInput then t :: rest else skipTo t rest

/-- The statements and errors of a parsed program, in order. -/
structure Parsed where
  statements : List Stmt
  errors : List ParseError

/-- Reads declarations up to the end, recovering from each failure. Besides the number of
declarations, the fuel bounds the number of tokens. -/
def parseFrom : (fuel : Nat) → List Token → Parsed
  | 0, _ => ⟨[], []⟩
  | n + 1, tokens =>
    if atEnd tokens then ⟨[], []⟩
    else
      match declaration (fuelFor n) tokens with
      | .ok s rest =>
        let later := parseFrom n rest
        ⟨s :: later.statements, later.errors⟩
      | .error e rest =>
        let later := parseFrom n (synchronize rest)
        ⟨later.statements, e :: later.errors⟩

/-- The statements and errors of a list of tokens. Every declaration, and every failure with its
recovery, takes at least one token. -/
def parseProgram (tokens : List Token) : Parsed :=
  parseFrom (tokens.length + 1) tokens

end Dynascope
