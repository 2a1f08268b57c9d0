import Dynascope.Proofs.Tree.Recovery

/-!
# The recursive descent

The functions of the descent without fuel. What a function does itself is a tree of actions: it
looks at the tokens, takes the next one, or calls a function and goes on with the answer.

* `Rule`: the functions, the loops over declarations and over skipped tokens among them.
* `Descent`: the actions of a function; `Descent.run` is what they come to if the functions that are
  called give some answers.
* `Rule.body`: the actions of every function.
* `Rule.reader`: what a function does with some fuel.
* `ExprRule.run_body`, `StmtRule.run_body`: with one more unit of fuel, a function does what its
  actions say if the functions that it calls do what they do with the fuel before. A function for
  statements that never calls itself needs no unit of its own.
-/

namespace Dynascope

/-- The functions of the descent, with what they are given besides the tokens. -/
inductive Rule where
  | expr (rule : ExprRule)
  | stmt (rule : StmtRule)
  /-- The declarations up to the end. -/
  | program
  /-- Recovery from a failure. -/
  | synchronize
  /-- What recovery drops after a token. -/
  | skip (previous : Token)

/-- What a function gives. -/
abbrev Rule.Tree : Rule → Type
  | expr rule => rule.Tree
  | stmt rule => rule.Tree
  | program => Parsed
  | synchronize => Unit
  | skip _ => Unit

/-- What a function does itself. -/
inductive Descent (α : Type) : Type where
  | ends (result : α)
  | fails (error : ParseError)
  /-- It looks at the tokens that are left. -/
  | looks (next : List Token → Descent α)
  /-- It takes the next token. -/
  | takes (next : Descent α)
  /-- It calls a function and goes on with the tokens that this one leaves. -/
  | calls (rule : Rule) (next : Except ParseError rule.Tree → Descent α)

namespace Descent

variable {α β : Type}

/-- One function after another. -/
def andThen : Descent α → (α → Descent β) → Descent β
  | ends a, f => f a
  | fails e, _ => fails e
  | looks next, f => looks fun ts => (next ts).andThen f
  | takes next, f => takes (next.andThen f)
  | calls rule next, f => calls rule fun answer => (next answer).andThen f

instance : Monad Descent where
  pure := ends
  bind := andThen

/-- Whether the next token is of a kind. -/
def next (kind : Kind) : Descent Bool :=
  looks fun ts => ends (ts.head?.any fun t => t.kind = kind)

/-- Whether no token is left before the end of the input. -/
def done : Descent Bool :=
  looks fun ts => ends (Parser.atEnd ts)

/-- Takes the next token if its kind is among `kinds`. -/
def accept (kinds : List Kind) : Descent (Option Token) :=
  looks fun
    | [] => ends none
    | t :: _ => if t.kind ∈ kinds then takes (ends (some t)) else ends none

/-- Fails at the next token, or without a token if none is left. -/
def failHere (fault : ParseFault) : Descent α :=
  looks fun
    | [] => fails ⟨.noToken, none⟩
    | t :: _ => fails ⟨fault, some t⟩

/-- Takes the next token, which has to be of a kind. -/
def expect (kind : Kind) : Descent Token := do
  match ← accept [kind] with
  | some t => return t
  | none => failHere (.expected kind)

/-- Calls a function and fails if it does. -/
def descend (rule : Rule) : Descent rule.Tree :=
  calls rule fun
    | .ok a => ends a
    | .error e => fails e

end Descent

open Descent

/-- The functions for expressions. -/
def ExprRule.body : (rule : ExprRule) → Descent rule.Tree
  | expression => do
    let target ← descend (.expr (chain .or))
    match ← accept [.equal] with
    | none => return target
    | some equals =>
      let value ← descend (.expr expression)
      match target with
      | .name name => return .assign name value
      | .get object name => return .set object name value
      | _ => fails ⟨.invalidTarget, some equals⟩
  | chain level => do
    let left ← descend (.expr (operand level))
    descend (.expr (chainRest level left))
  | chainRest level left => do
    match ← accept level.operators with
    | none => return left
    | some operator =>
      let right ← descend (.expr (operand level))
      descend (.expr (chainRest level (level.node left operator right)))
  | operand level =>
    match level.tighter? with
    | some tighter => descend (.expr (chain tighter))
    | none => descend (.expr unary)
  | unary => do
    match ← accept [.bang, .minus] with
    | some operator => return .unary operator (← descend (.expr unary))
    | none => descend (.expr call)
  | call => do
    let callee ← descend (.expr primary)
    descend (.expr (callRest callee))
  | callRest callee => do
    match ← accept [.leftParen, .dot] with
    | none => return callee
    | some t =>
      if t.kind = .leftParen then
        let given ← (do
          if ← next .rightParen then return []
          else descend (.expr arguments))
        let paren ← expect .rightParen
        descend (.expr (callRest (.call callee (some paren) given)))
      else
        let name ← expect .identifier
        descend (.expr (callRest (.get callee (some name))))
  | arguments => do
    let argument ← descend (.expr expression)
    match ← accept [.comma] with
    | some _ => return argument :: (← descend (.expr arguments))
    | none => return [argument]
  | primary => do
    match ← accept [.kwFalse, .kwTrue, .kwNil, .number, .string, .kwSuper, .kwThis, .identifier,
        .leftParen] with
    | none => failHere .unexpectedToken
    | some t =>
      match t.kind with
      | .kwFalse => return .literal (.bool false)
      | .kwTrue => return .literal (.bool true)
      | .kwNil => return .literal .nil
      | .kwSuper =>
        let _ ← expect .dot
        let method ← expect .identifier
        return .superMethod (some t) method
      | .kwThis => return .receiver (some t)
      | .identifier => return .name t
      | .leftParen =>
        let inner ← descend (.expr expression)
        let _ ← expect .rightParen
        return .group inner
      | _ =>
        match t.value with
        | some value => return .literal value
        | none => fails ⟨.literalWithoutValue, some t⟩

/-- The functions for statements and their parts. -/
def StmtRule.body : (rule : StmtRule) → Descent rule.Tree
  | names => do
    let name ← expect .identifier
    match ← accept [.comma] with
    | some _ => return name :: (← descend (.stmt names))
    | none => return [name]
  | expressionStatement => do
    let e ← descend (.expr .expression)
    let _ ← expect .semicolon
    return .expr e
  | parenthesized => do
    let _ ← expect .leftParen
    let e ← descend (.expr .expression)
    let _ ← expect .rightParen
    return e
  | expressionUnless kind => do
    if ← next kind then return none
    else return some (← descend (.expr .expression))
  | varDeclaration => do
    let name ← expect .identifier
    match ← accept [.equal] with
    | some _ =>
      let initial ← descend (.expr .expression)
      let _ ← expect .semicolon
      return .varDecl name initial
    | none =>
      let _ ← expect .semicolon
      return .varDecl name .absent
  | returnStatement keyword => do
    let value ← descend (.stmt (expressionUnless .semicolon))
    let _ ← expect .semicolon
    return .ret (some keyword) (value.getD .absent)
  | forInitial => do
    match ← accept [.semicolon, .kwVar] with
    | none => return some (← descend (.stmt expressionStatement))
    | some t =>
      if t.kind = .semicolon then return none else return some (← descend (.stmt varDeclaration))
  | parameters => do
    let _ ← expect .leftParen
    let params ← (do
      if ← next .rightParen then return []
      else descend (.stmt names))
    let _ ← expect .rightParen
    let _ ← expect .leftBrace
    return params
  | superclassClause => do
    let superclass ← (do
      match ← accept [.less] with
      | some _ => return some (← expect .identifier)
      | none => return none)
    let _ ← expect .leftBrace
    return superclass
  | declaration => do
    match ← accept [.kwClass, .kwFun, .kwVar] with
    | none => descend (.stmt statement)
    | some t =>
      match t.kind with
      | .kwClass =>
        let name ← expect .identifier
        let superclass ← descend (.stmt superclassClause)
        return .classDecl name superclass ((← descend (.stmt methods)).map some)
      | .kwFun => return .funDecl (← descend (.stmt function))
      | _ => descend (.stmt varDeclaration)
  | function => do
    let name ← expect .identifier
    let params ← descend (.stmt parameters)
    return ⟨0, name, params, .block (← descend (.stmt block))⟩
  | methods => do
    if (← next .rightBrace) || (← done) then
      let _ ← expect .rightBrace
      return []
    else
      let method ← descend (.stmt function)
      return method :: (← descend (.stmt methods))
  | block => do
    if (← next .rightBrace) || (← done) then
      let _ ← expect .rightBrace
      return []
    else
      let first ← descend (.stmt declaration)
      return first :: (← descend (.stmt block))
  | statement => do
    match ← accept [.kwFor, .kwIf, .kwReturn, .kwWhile, .leftBrace] with
    | none => descend (.stmt expressionStatement)
    | some t =>
      match t.kind with
      | .kwFor =>
        let _ ← expect .leftParen
        let initial ← descend (.stmt forInitial)
        let condition ← descend (.stmt (expressionUnless .semicolon))
        let _ ← expect .semicolon
        let increment ← descend (.stmt (expressionUnless .rightParen))
        let _ ← expect .rightParen
        return forLoop initial condition increment (← descend (.stmt statement))
      | .kwIf =>
        let condition ← descend (.stmt parenthesized)
        let yes ← descend (.stmt statement)
        match ← accept [.kwElse] with
        | some _ => return .choice condition yes (← descend (.stmt statement))
        | none => return .choice condition yes .absent
      | .kwReturn => descend (.stmt (returnStatement t))
      | .kwWhile =>
        let condition ← descend (.stmt parenthesized)
        return .loop condition (← descend (.stmt statement))
      | _ => return .block (← descend (.stmt block))

/-- Every function. -/
def Rule.body : (rule : Rule) → Descent rule.Tree
  | expr rule => rule.body
  | stmt rule => rule.body
  | program => do
    if ← done then return ⟨[], []⟩
    else
      calls (.stmt .declaration) fun
        | .ok s => do
          let later ← descend program
          return ⟨s :: later.statements, later.errors⟩
        | .error e => do
          let _ ← descend synchronize
          let later ← descend program
          return ⟨later.statements, e :: later.errors⟩
  | synchronize =>
    looks fun
      | [] => ends ()
      | t :: _ => if t.kind = .endOfInput then ends () else takes (descend (skip t))
  | skip previous =>
    looks fun
      | [] => ends ()
      | t :: _ =>
        if t.kind = .endOfInput || previous.kind = .semicolon || t.kind ∈ starters then ends ()
        else takes (descend (skip t))

/-! ## Running the actions -/

/-- What functions give, whichever they are. -/
abbrev Answers := (rule : Rule) → Parser rule.Tree

/-- What a function gave, apart from the tokens that it left. -/
def answer {α : Type} : EStateM.Result ParseError (List Token) α → Except ParseError α
  | .ok a _ => .ok a
  | .error e _ => .error e

namespace Descent

variable {α β : Type} {answers : Answers}

/-- What actions come to if the functions that are called give some answers. -/
def run (answers : Answers) : Descent α → Parser α
  | ends a => pure a
  | fails e => throw e
  | looks next => fun ts => (next ts).run answers ts
  | takes next => fun ts => next.run answers ts.tail
  | calls rule next => fun ts =>
    (next (answer (answers rule ts))).run answers (finalState (answers rule ts))

theorem run_andThen (p : Descent α) (f : α → Descent β) :
    (p.andThen f).run answers = p.run answers >>= fun a => (f a).run answers := by
  funext ts
  induction p generalizing ts with
  | ends a => rfl
  | fails e => rfl
  | looks next ih => exact ih ts ts
  | takes next ih => exact ih ts.tail
  | calls rule next ih => exact ih _ _

/-- What follows an action is run after it. -/
theorem run_bind {p : Descent α} {q : Parser α} {f : α → Descent β} {g : α → Parser β}
    (h : p.run answers = q) (hf : ∀ a, (f a).run answers = g a) :
    (p >>= f).run answers = q >>= g := by
  rw [← h, ← funext hf]
  exact run_andThen p f

theorem run_next (kind : Kind) : (next kind).run answers = Parser.next kind := rfl

theorem run_done : done.run answers = Parser.done := rfl

theorem run_accept (kinds : List Kind) : (accept kinds).run answers = Parser.accept kinds := by
  funext ts
  cases ts with
  | nil => rfl
  | cons t rest =>
    rw [Parser.accept_cons]
    simp only [accept, run]
    split <;> rfl

theorem run_failHere (fault : ParseFault) :
    (failHere fault : Descent α).run answers = Parser.failHere fault := by
  funext ts
  cases ts <;> rfl

theorem run_expect (kind : Kind) : (expect kind).run answers = Parser.expect kind := by
  refine run_bind (run_accept _) fun t => ?_
  cases t with
  | none => exact run_failHere _
  | some t => rfl

theorem run_descend (rule : Rule) : (descend rule).run answers = answers rule := by
  funext ts
  simp only [descend, run]
  cases answers rule ts <;> rfl

end Descent

/-! ## The readers -/

/-- What a function does with some fuel. Reading a program goes up to the end, and recovery never
fails. -/
def Rule.reader : (rule : Rule) → (fuel : Nat) → Parser rule.Tree
  | expr rule, n => rule.parser n
  | stmt rule, n => rule.parser n
  | program, n => fun ts => .ok (parseFrom n ts) (ts.drop (inputLength ts))
  | synchronize, _ => fun ts => .ok () (Dynascope.synchronize ts)
  | skip previous, _ => fun ts => .ok () (skipTo previous ts)

section

variable {answers : Answers} {n : Nat}

/-- The actions of the functions for expressions are those of their readers. -/
theorem ExprRule.run_body (h : ∀ rule : ExprRule, answers (.expr rule) = rule.parser n)
    (rule : ExprRule) : rule.body.run answers = rule.parser (n + 1) := by
  have hcall : ∀ rule : ExprRule, (descend (.expr rule)).run answers = rule.parser n := fun rule =>
    (run_descend _).trans (h rule)
  cases rule with
  | expression =>
    refine run_bind (hcall (.chain .or)) fun target => run_bind (run_accept _) fun equals => ?_
    cases equals with
    | none => rfl
    | some equals =>
      refine run_bind (hcall .expression) fun value => ?_
      cases (target : Expr) <;> rfl
  | chain level =>
    exact run_bind (hcall (.operand level)) fun left => hcall (.chainRest level left)
  | chainRest level left =>
    refine run_bind (run_accept _) fun operator => ?_
    cases operator with
    | none => rfl
    | some operator => exact run_bind (hcall (.operand level)) fun right => hcall (.chainRest _ _)
  | operand level =>
    cases level with
    | factor => exact hcall .unary
    | _ => exact hcall (.chain _)
  | unary =>
    refine run_bind (run_accept _) fun operator => ?_
    cases operator with
    | none => exact hcall .call
    | some operator => exact run_bind (hcall .unary) fun e => rfl
  | call => exact run_bind (hcall .primary) fun callee => hcall (.callRest callee)
  | callRest callee =>
    refine run_bind (run_accept _) fun t => ?_
    cases t with
    | none => rfl
    | some t =>
      by_cases ht : t.kind = .leftParen
      · simp only [if_pos ht]
        refine run_bind (run_bind (run_next _) fun b => ?_) fun given =>
          run_bind (run_expect _) fun paren => hcall (.callRest _)
        cases b with
        | true => rfl
        | false => exact hcall .arguments
      · simp only [if_neg ht]
        exact run_bind (run_expect _) fun name => hcall (.callRest _)
  | arguments =>
    refine run_bind (hcall .expression) fun argument => run_bind (run_accept _) fun comma => ?_
    cases comma with
    | none => rfl
    | some comma => exact run_bind (hcall .arguments) fun rest => rfl
  | primary =>
    refine run_bind (run_accept _) fun t => ?_
    cases t with
    | none => exact run_failHere _
    | some t =>
      have hconstant : run answers (match t.value with
          | some value => return .literal value
          | none => fails ⟨.literalWithoutValue, some t⟩) = t.constant := by
        unfold Token.constant
        cases t.value <;> rfl
      dsimp only
      cases t.kind with
      | kwFalse => rfl
      | kwTrue => rfl
      | kwNil => rfl
      | kwSuper =>
        exact run_bind (run_expect _) fun dot => run_bind (run_expect _) fun method => rfl
      | kwThis => rfl
      | identifier => rfl
      | leftParen =>
        exact run_bind (hcall .expression) fun inner => run_bind (run_expect _) fun right => rfl
      | _ => exact hconstant

/-- The fuel that a function for statements keeps to itself: only the functions that may call
themselves take a unit. -/
def StmtRule.cost : StmtRule → Nat
  | names => 1
  | declaration => 1
  | function => 1
  | methods => 1
  | block => 1
  | statement => 1
  | _ => 0

/-- The actions of the functions for statements are those of their readers. -/
theorem StmtRule.run_body (hexpr : answers (.expr .expression) = expression n)
    (h : ∀ rule : StmtRule, answers (.stmt rule) = rule.parser n)
    (rule : StmtRule) : rule.body.run answers = rule.parser (n + rule.cost) := by
  have hexpression : (descend (.expr .expression)).run answers = expression n :=
    (run_descend _).trans hexpr
  have hcall : ∀ rule : StmtRule, (descend (.stmt rule)).run answers = rule.parser n := fun rule =>
    (run_descend _).trans (h rule)
  cases rule with
  | names =>
    refine run_bind (run_expect _) fun name => run_bind (run_accept _) fun comma => ?_
    cases comma with
    | none => rfl
    | some comma => exact run_bind (hcall .names) fun rest => rfl
  | expressionStatement =>
    exact run_bind hexpression fun e => run_bind (run_expect _) fun semi => rfl
  | parenthesized =>
    exact run_bind (run_expect _) fun left => run_bind hexpression fun e =>
      run_bind (run_expect _) fun right => rfl
  | expressionUnless kind =>
    refine run_bind (run_next _) fun b => ?_
    cases b with
    | true => rfl
    | false => exact run_bind hexpression fun e => rfl
  | varDeclaration =>
    refine run_bind (run_expect _) fun name => run_bind (run_accept _) fun equals => ?_
    cases equals with
    | none => exact run_bind (run_expect _) fun semi => rfl
    | some equals => exact run_bind hexpression fun e => run_bind (run_expect _) fun semi => rfl
  | returnStatement keyword =>
    exact run_bind (hcall (.expressionUnless .semicolon)) fun value =>
      run_bind (run_expect _) fun semi => rfl
  | forInitial =>
    refine run_bind (run_accept _) fun t => ?_
    cases t with
    | none => exact run_bind (hcall .expressionStatement) fun s => rfl
    | some t =>
      by_cases ht : t.kind = .semicolon
      · simp only [if_pos ht]
        rfl
      · simp only [if_neg ht]
        exact run_bind (hcall .varDeclaration) fun s => rfl
  | parameters =>
    refine run_bind (run_expect _) fun left =>
      run_bind (run_bind (run_next _) fun b => ?_) fun params =>
        run_bind (run_expect _) fun right => run_bind (run_expect _) fun brace => rfl
    cases b with
    | true => rfl
    | false => exact hcall .names
  | superclassClause =>
    refine run_bind (run_bind (run_accept _) fun less => ?_) fun superclass =>
      run_bind (run_expect _) fun brace => rfl
    cases less with
    | none => rfl
    | some less => exact run_bind (run_expect _) fun name => rfl
  | declaration =>
    refine run_bind (run_accept _) fun t => ?_
    cases t with
    | none => exact hcall .statement
    | some t =>
      dsimp only
      cases t.kind with
      | kwClass =>
        exact run_bind (run_expect _) fun name => run_bind (hcall .superclassClause)
          fun superclass => run_bind (hcall .methods) fun methods => rfl
      | kwFun => exact run_bind (hcall .function) fun f => rfl
      | _ => exact hcall .varDeclaration
  | function =>
    exact run_bind (run_expect _) fun name => run_bind (hcall .parameters) fun params =>
      run_bind (hcall .block) fun body => rfl
  | methods =>
    refine run_bind (run_next _) fun closed => run_bind run_done fun ended => ?_
    split
    · exact run_bind (run_expect _) fun brace => rfl
    · exact run_bind (hcall .function) fun method => run_bind (hcall .methods) fun rest => rfl
  | block =>
    refine run_bind (run_next _) fun closed => run_bind run_done fun ended => ?_
    split
    · exact run_bind (run_expect _) fun brace => rfl
    · exact run_bind (hcall .declaration) fun first => run_bind (hcall .block) fun rest => rfl
  | statement =>
    refine run_bind (run_accept _) fun t => ?_
    cases t with
    | none => exact hcall .expressionStatement
    | some t =>
      dsimp only
      cases t.kind with
      | kwFor =>
        exact run_bind (run_expect _) fun left => run_bind (hcall .forInitial) fun initial =>
          run_bind (hcall (.expressionUnless .semicolon)) fun condition =>
            run_bind (run_expect _) fun semi =>
              run_bind (hcall (.expressionUnless .rightParen)) fun increment =>
                run_bind (run_expect _) fun right => run_bind (hcall .statement) fun body => rfl
      | kwIf =>
        refine run_bind (hcall .parenthesized) fun condition => run_bind (hcall .statement)
          fun yes => run_bind (run_accept _) fun other => ?_
        cases other with
        | none => rfl
        | some other => exact run_bind (hcall .statement) fun no => rfl
      | kwReturn => exact hcall (.returnStatement t)
      | kwWhile =>
        exact run_bind (hcall .parenthesized) fun condition => run_bind (hcall .statement)
          fun body => rfl
      | _ => exact run_bind (hcall .block) fun ss => rfl

end

end Dynascope
