import Dynascope.Token.Basic

/-!
# The grammar as productions

The context-free grammar of the language, apart from any reader.

* `Grammar.Form`: right-hand sides of productions, with options, alternatives and repetitions.
* `Grammar.Symbol.production`: the production of each symbol.
* `Grammar.Derives f ts`: the tokens `ts` can be derived from the form `f`.
-/

namespace Dynascope.Grammar

/-- The symbols of the grammar. -/
inductive Symbol where
  | declaration
  | classDecl
  | funDecl
  | function
  | parameters
  | varDecl
  | statement
  | exprStmt
  | forStmt
  | ifStmt
  | returnStmt
  | whileStmt
  | block
  | expression
  | assignment
  | or
  | and
  | equality
  | comparison
  | term
  | factor
  | unary
  | call
  | arguments
  | primary

/-- What stands on the right of a production. -/
inductive Form where
  /-- A token of one of the kinds. -/
  | token (kinds : List Kind)
  | symbol (s : Symbol)
  | nothing
  | seq (first second : Form)
  | either (left right : Form)
  /-- Any number of times. -/
  | many (f : Form)

namespace Form

/-- A token of a kind. -/
def word (kind : Kind) : Form :=
  token [kind]

/-- At most once. -/
def opt (f : Form) : Form :=
  either f nothing

/-- One form after the other. -/
def sequence : List Form → Form
  | [] => nothing
  | f :: fs => seq f (sequence fs)

/-- One of the forms. -/
def oneOf : List Form → Form
  | [] => token []
  | f :: fs => either f (oneOf fs)

/-- At least one `item`, separated by tokens of some kinds. -/
def separated (kinds : List Kind) (item : Form) : Form :=
  sequence [item, many (sequence [token kinds, item])]

end Form

open Form

/-- What follows a callee: arguments in parentheses or a property. -/
def suffix : Form :=
  oneOf [
    sequence [word .leftParen, opt (symbol .arguments), word .rightParen],
    sequence [word .dot, word .identifier]]

/-- What can be assigned to: a property or a variable. -/
def target : Form :=
  oneOf [sequence [symbol .call, word .dot, word .identifier], word .identifier]

namespace Symbol

/-- The production of a symbol. -/
def production : Symbol → Form
  | declaration => oneOf [symbol classDecl, symbol funDecl, symbol varDecl, symbol statement]
  | classDecl => sequence [word .kwClass, word .identifier,
      opt (sequence [word .less, word .identifier]),
      word .leftBrace, many (symbol function), word .rightBrace]
  | funDecl => sequence [word .kwFun, symbol function]
  | function => sequence [word .identifier, word .leftParen, opt (symbol parameters),
      word .rightParen, symbol block]
  | parameters => separated [.comma] (word .identifier)
  | varDecl => sequence [word .kwVar, word .identifier,
      opt (sequence [word .equal, symbol expression]), word .semicolon]
  | statement => oneOf [symbol exprStmt, symbol forStmt, symbol ifStmt, symbol returnStmt,
      symbol whileStmt, symbol block]
  | exprStmt => sequence [symbol expression, word .semicolon]
  | forStmt => sequence [word .kwFor, word .leftParen,
      oneOf [symbol varDecl, symbol exprStmt, word .semicolon],
      opt (symbol expression), word .semicolon,
      opt (symbol expression), word .rightParen, symbol statement]
  | ifStmt => sequence [word .kwIf, word .leftParen, symbol expression, word .rightParen,
      symbol statement, opt (sequence [word .kwElse, symbol statement])]
  | returnStmt => sequence [word .kwReturn, opt (symbol expression), word .semicolon]
  | whileStmt => sequence [word .kwWhile, word .leftParen, symbol expression, word .rightParen,
      symbol statement]
  | block => sequence [word .leftBrace, many (symbol declaration), word .rightBrace]
  | expression => symbol assignment
  | assignment => oneOf [sequence [target, word .equal, symbol assignment], symbol or]
  | or => separated [.kwOr] (symbol and)
  | and => separated [.kwAnd] (symbol equality)
  | equality => separated [.bangEqual, .equalEqual] (symbol comparison)
  | comparison => separated [.greater, .greaterEqual, .less, .lessEqual] (symbol term)
  | term => separated [.minus, .plus] (symbol factor)
  | factor => separated [.slash, .star] (symbol unary)
  | unary => oneOf [sequence [token [.bang, .minus], symbol unary], symbol call]
  | call => sequence [symbol primary, many suffix]
  | arguments => separated [.comma] (symbol expression)
  | primary => oneOf [word .kwTrue, word .kwFalse, word .kwNil, word .number, word .string,
      word .identifier, word .kwThis,
      sequence [word .leftParen, symbol expression, word .rightParen],
      sequence [word .kwSuper, word .dot, word .identifier]]

end Symbol

/-- The tokens can be derived from the form. -/
inductive Derives : Form → List Token → Prop where
  | token {kinds : List Kind} {t : Token} (h : t.kind ∈ kinds) : Derives (.token kinds) [t]
  | symbol {s : Symbol} {ts : List Token} (h : Derives s.production ts) : Derives (.symbol s) ts
  | nothing : Derives .nothing []
  | seq {f g : Form} {ts us : List Token} (hf : Derives f ts) (hg : Derives g us) :
    Derives (.seq f g) (ts ++ us)
  | left {f g : Form} {ts : List Token} (h : Derives f ts) : Derives (.either f g) ts
  | right {f g : Form} {ts : List Token} (h : Derives g ts) : Derives (.either f g) ts
  | stop {f : Form} : Derives (.many f) []
  | more {f : Form} {ts us : List Token} (h : Derives f ts) (hs : Derives (.many f) us) :
    Derives (.many f) (ts ++ us)

namespace Derives

variable {f : Form} {fs : List Form} {ts us : List Token} {t : Token} {kind : Kind}

theorem word (h : t.kind = kind) : Derives (.word kind) [t] :=
  .token (List.mem_singleton.mpr h)

theorem some (h : Derives f ts) : Derives (.opt f) ts :=
  .left h

theorem none : Derives (.opt f) [] :=
  .right .nothing

theorem cons (h : t.kind = kind) (hs : Derives (.sequence fs) us) :
    Derives (.sequence (.word kind :: fs)) (t :: us) :=
  .seq (word h) hs

theorem last (h : Derives f ts) : Derives (.sequence [f]) ts := by
  have hseq := seq h nothing
  rwa [List.append_nil] at hseq

theorem ends (h : t.kind = kind) : Derives (.sequence [.word kind]) [t] :=
  last (word h)

theorem sequence_append {gs : List Form} (h : Derives (.sequence fs) ts)
    (hg : Derives (.sequence gs) us) : Derives (.sequence (fs ++ gs)) (ts ++ us) := by
  induction fs generalizing ts with
  | nil =>
    cases h
    exact hg
  | cons f fs ih =>
    cases h with
    | seq hf hs =>
      rw [List.append_assoc]
      exact .seq hf (ih hs)

theorem sequence_split (fs : List Form) {gs : List Form} (h : Derives (.sequence (fs ++ gs)) ts) :
    ∃ us vs, ts = us ++ vs ∧ Derives (.sequence fs) us ∧ Derives (.sequence gs) vs := by
  induction fs generalizing ts with
  | nil => exact ⟨[], ts, rfl, .nothing, h⟩
  | cons f fs ih =>
    cases h with
    | @seq _ _ ts _ hf hs =>
      obtain ⟨us, vs, rfl, hfs, hgs⟩ := ih hs
      exact ⟨ts ++ us, vs, (List.append_assoc ..).symm, .seq hf hfs, hgs⟩

theorem oneOf (hf : f ∈ fs) (h : Derives f ts) : Derives (.oneOf fs) ts := by
  induction fs with
  | nil => cases hf
  | cons g fs ih =>
    rcases List.mem_cons.mp hf with rfl | hf
    · exact .left h
    · exact .right (ih hf)

theorem separated_single {kinds : List Kind} (h : Derives f ts) :
    Derives (.separated kinds f) ts := by
  have hseq := seq h (last (stop (f := .sequence [.token kinds, f])))
  rwa [List.append_nil] at hseq

theorem separated_cons {kinds : List Kind} (h : Derives f ts) (ht : t.kind ∈ kinds)
    (hs : Derives (.separated kinds f) us) : Derives (.separated kinds f) (ts ++ t :: us) := by
  cases hs with
  | seq hf hmany =>
    cases hmany with
    | seq hmany hnil =>
      cases hnil
      have hlink : Derives (.sequence [.token kinds, f]) (t :: _) := .seq (.token ht) (.last hf)
      rw [List.append_nil]
      exact .seq h (.last (.more hlink hmany))

end Derives

end Dynascope.Grammar
