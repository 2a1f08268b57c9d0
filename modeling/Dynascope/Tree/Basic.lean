import Dynascope.Token.Basic

/-!
# Trees

The trees that the parser builds and the evaluator walks. Trees may also be made by hand, so every
place for a sub-tree may be empty: `absent` stands there, or `none` in the place of a method. The
parser leaves only the optional places empty: the `else` branch, the value of a `return` and the
initial value of a variable.

A token may be missing where nothing needs it, or where a runtime error can be raised in its place
all the same; such an error has no token. The other tokens are always there.

* `Expr`: expressions.
* `Stmt`, `FunDecl`: statements and function declarations.
* `Stmt.numbered`: the same statement with its function declarations numbered. The *site* of a
  declaration tells function bodies apart; it is 0 until a program is numbered.
-/

namespace Dynascope

/-- An expression. -/
inductive Expr where
  /-- No expression. -/
  | absent
  /-- An assignment to a variable. -/
  | assign (name : Token) (value : Expr)
  /-- An arithmetic operation, a comparison or a test for equality. -/
  | binary (left : Expr) (operator : Token) (right : Expr)
  /-- A call, with the closing parenthesis as its place. -/
  | call (callee : Expr) (paren : Option Token) (arguments : List Expr)
  /-- A property of an object. -/
  | get (object : Expr) (name : Option Token)
  /-- An expression in parentheses. -/
  | group (inner : Expr)
  /-- A constant. -/
  | literal (value : Literal)
  /-- A conjunction or disjunction, evaluated from the left as far as needed. -/
  | logical (left : Expr) (operator : Token) (right : Expr)
  /-- An assignment to a property of an object. -/
  | set (object : Expr) (name : Option Token) (value : Expr)
  /-- A method of the superclass. -/
  | superMethod (keyword : Option Token) (method : Token)
  /-- The receiver of a method. -/
  | receiver (keyword : Option Token)
  /-- An operation with one operand. -/
  | unary (operator : Token) (right : Expr)
  /-- A variable. -/
  | name (name : Token)
  deriving Repr

mutual

/-- A statement. -/
inductive Stmt where
  /-- No statement. -/
  | absent
  /-- Statements with a frame of their own. -/
  | block (body : List Stmt)
  /-- A class with the name of its superclass and its methods. -/
  | classDecl (name : Token) (superclass : Option Token) (methods : List (Option FunDecl))
  /-- An expression evaluated for its effect. -/
  | expr (expr : Expr)
  /-- A function. -/
  | funDecl (decl : FunDecl)
  /-- A choice. -/
  | choice (condition : Expr) (yes no : Stmt)
  /-- The end of a call, with its value. -/
  | ret (keyword : Option Token) (value : Expr)
  /-- A variable with its initial value. -/
  | varDecl (name : Token) (initial : Expr)
  /-- A loop that tests its condition first. -/
  | loop (condition : Expr) (body : Stmt)

/-- The declaration of a function or method. -/
structure FunDecl where
  /-- The number of the declaration in its program. -/
  site : Nat
  name : Token
  params : List Token
  /-- The body; a function can be called only if it is a block. -/
  body : Stmt

end

mutual

/-- A statement whose function declarations are numbered from `n` on, and the next free number. -/
def Stmt.numbered : Stmt → Nat → Stmt × Nat
  | .block body, n =>
    let (body, n) := numberedAll body n
    (.block body, n)
  | .classDecl name superclass methods, n =>
    let (methods, n) := numberedMethods methods n
    (.classDecl name superclass methods, n)
  | .funDecl decl, n =>
    let (decl, n) := decl.numbered n
    (.funDecl decl, n)
  | .choice condition yes no, n =>
    let (yes, n) := yes.numbered n
    let (no, n) := no.numbered n
    (.choice condition yes no, n)
  | .loop condition body, n =>
    let (body, n) := body.numbered n
    (.loop condition body, n)
  | .absent, n => (.absent, n)
  | .expr e, n => (.expr e, n)
  | .ret keyword value, n => (.ret keyword value, n)
  | .varDecl name initial, n => (.varDecl name initial, n)

/-- A function declaration numbered `n`, the declarations in its body numbered after it. -/
def FunDecl.numbered : FunDecl → Nat → FunDecl × Nat
  | ⟨_, name, params, body⟩, n =>
    let (body, next) := body.numbered (n + 1)
    (⟨n, name, params, body⟩, next)

/-- Statements numbered one after the other. -/
def numberedAll : List Stmt → Nat → List Stmt × Nat
  | [], n => ([], n)
  | s :: rest, n =>
    let (s, n) := s.numbered n
    let (rest, n) := numberedAll rest n
    (s :: rest, n)

/-- Methods numbered one after the other. -/
def numberedMethods : List (Option FunDecl) → Nat → List (Option FunDecl) × Nat
  | [], n => ([], n)
  | none :: rest, n =>
    let (rest, n) := numberedMethods rest n
    (none :: rest, n)
  | some f :: rest, n =>
    let (f, n) := f.numbered n
    let (rest, n) := numberedMethods rest n
    (some f :: rest, n)

end

end Dynascope
