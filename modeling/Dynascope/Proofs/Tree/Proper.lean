import Dynascope.Proofs.Token.Scanned
import Dynascope.Proofs.Tree.NormalForm
import Dynascope.Tree.Outline

/-!
# Trees of a source

A tree that was read from a source has all its parts: evaluation can walk it without meeting an
empty place, an unknown operator or a constant of a foreign type.

* `Expr.Proper`, `Stmt.Proper`: trees with all their parts. Other than a normal form, this does not
  speak of precedence, and it holds of numbered trees too.
* `Stmt.isSome_outlines`: a proper tree has an outline, and with it a display and a text.
* `Stmt.proper_numbered`: numbering keeps trees proper.
* `proper_of_source`: every statement read from a source is proper.
* `ParseError.Located`, `located_of_source`: every parse error of a source stands at one of its
  tokens.
-/

namespace Dynascope

/-! ## Trees with all their parts -/

mutual

/-- An expression with all its parts, known operators and constants, and no empty name. -/
def Expr.Proper : Expr → Prop
  | .absent => False
  | .assign name value => name.lexeme ≠ [] ∧ value.Proper
  | .binary left operator right => 3 ≤ operator.kind.precedence ∧ left.Proper ∧ right.Proper
  | .call callee paren arguments => paren.isSome ∧ callee.Proper ∧ ProperAll arguments
  | .get object name => (∃ x ∈ name, x.lexeme ≠ []) ∧ object.Proper
  | .group inner => inner.Proper
  | .literal value => (Value.ofLiteral? value).isSome
  | .logical left operator right =>
    (operator.kind = .kwOr ∨ operator.kind = .kwAnd) ∧ left.Proper ∧ right.Proper
  | .set object name value => (∃ x ∈ name, x.lexeme ≠ []) ∧ object.Proper ∧ value.Proper
  | .superMethod keyword method => keyword.isSome ∧ method.lexeme ≠ []
  | .receiver keyword => keyword.isSome
  | .unary operator right => (operator.kind = .bang ∨ operator.kind = .minus) ∧ right.Proper
  | .name name => name.lexeme ≠ []

/-- Expressions with all their parts. -/
def ProperAll : List Expr → Prop
  | [] => True
  | e :: es => e.Proper ∧ ProperAll es

end

mutual

/-- A statement with all its parts; only the optional places may be empty. -/
def Stmt.Proper : Stmt → Prop
  | .absent => False
  | .block body => ProperBlock body
  | .classDecl name _ methods => name.lexeme ≠ [] ∧ ProperMethods methods
  | .expr e => e.Proper
  | .funDecl decl => decl.Proper
  | .choice condition yes no => condition.Proper ∧ yes.Proper ∧ (no = .absent ∨ no.Proper)
  | .ret _ value => value = .absent ∨ value.Proper
  | .varDecl name initial => name.lexeme ≠ [] ∧ (initial = .absent ∨ initial.Proper)
  | .loop condition body => condition.Proper ∧ body.Proper

/-- A function with a name, named parameters and a block as its body. -/
def FunDecl.Proper : FunDecl → Prop
  | ⟨_, name, params, body⟩ =>
    name.lexeme ≠ [] ∧ (∀ x ∈ params, x.lexeme ≠ []) ∧ ProperBody body

/-- A block with all its parts. -/
def ProperBody : Stmt → Prop
  | .block body => ProperBlock body
  | _ => False

/-- Statements with all their parts. -/
def ProperBlock : List Stmt → Prop
  | [] => True
  | s :: ss => s.Proper ∧ ProperBlock ss

/-- Methods with all their parts, none of them missing. -/
def ProperMethods : List (Option FunDecl) → Prop
  | [] => True
  | none :: _ => False
  | some m :: ms => m.Proper ∧ ProperMethods ms

end

theorem ProperBody.eq_block {body : Stmt} (h : ProperBody body) : ∃ ss, body = .block ss := by
  cases body with
  | block ss => exact ⟨ss, rfl⟩
  | _ => exact h.elim

/-- The parts of a list in which none is missing. -/
theorem mapM_id_eq_some {α : Type} {xs : List (Option α)} {ys : List α} :
    xs.mapM id = some ys ↔ xs = ys.map some := by
  induction xs generalizing ys with
  | nil => cases ys <;> simp
  | cons x xs ih =>
    cases x with
    | none => cases ys <;> simp [List.mapM_cons]
    | some x =>
      cases ys with
      | nil => simp [List.mapM_cons, Option.bind_eq_some_iff]
      | cons y ys => simpa [List.mapM_cons, Option.bind_eq_some_iff, ih] using and_comm

theorem ProperMethods.exists_decls {methods : List (Option FunDecl)} (h : ProperMethods methods) :
    ∃ ds : List FunDecl, methods = ds.map some ∧ ∀ d ∈ ds, d.Proper := by
  induction methods with
  | nil => exact ⟨[], rfl, List.forall_mem_nil _⟩
  | cons m ms ih =>
    cases m with
    | none => exact h.elim
    | some d =>
      obtain ⟨ds, rfl, hds⟩ := ih h.2
      exact ⟨d :: ds, rfl, List.forall_mem_cons.mpr ⟨h.1, hds⟩⟩

/-! ## Numbering -/

mutual

theorem Stmt.proper_numbered (s : Stmt) (n : Nat) (h : s.Proper) : (s.numbered n).1.Proper := by
  match s with
  | .absent => exact h
  | .block body => exact proper_numberedAll body n h
  | .classDecl name superclass methods => exact ⟨h.1, proper_numberedMethods methods n h.2⟩
  | .expr e => exact h
  | .funDecl decl => exact decl.proper_numbered n h
  | .choice condition yes no =>
    obtain ⟨hc, hy, hn⟩ := h
    refine ⟨hc, yes.proper_numbered n hy, ?_⟩
    rcases hn with rfl | hn
    · exact .inl rfl
    · exact .inr (no.proper_numbered _ hn)
  | .ret keyword value => exact h
  | .varDecl name initial => exact h
  | .loop condition body => exact ⟨h.1, body.proper_numbered n h.2⟩

theorem FunDecl.proper_numbered (f : FunDecl) (n : Nat) (h : f.Proper) :
    (f.numbered n).1.Proper := by
  match f with
  | ⟨site, name, params, body⟩ =>
    obtain ⟨hname, hparams, hbody⟩ := h
    exact ⟨hname, hparams, proper_numberedBody body (n + 1) hbody⟩

theorem proper_numberedBody (body : Stmt) (n : Nat) (h : ProperBody body) :
    ProperBody (body.numbered n).1 := by
  match body with
  | .block ss => exact proper_numberedAll ss n h
  | .absent | .classDecl .. | .expr _ | .funDecl _ | .choice .. | .ret .. | .varDecl ..
  | .loop .. =>
    exact h.elim

theorem proper_numberedAll (ss : List Stmt) (n : Nat) (h : ProperBlock ss) :
    ProperBlock (numberedAll ss n).1 := by
  match ss with
  | [] => exact h
  | s :: ss => exact ⟨s.proper_numbered n h.1, proper_numberedAll ss _ h.2⟩

theorem proper_numberedMethods (ms : List (Option FunDecl)) (n : Nat) (h : ProperMethods ms) :
    ProperMethods (numberedMethods ms n).1 := by
  match ms with
  | [] => exact h
  | none :: _ => exact h.elim
  | some m :: ms => exact ⟨m.proper_numbered n h.1, proper_numberedMethods ms _ h.2⟩

end

/-! ## Outlines -/

@[simp] theorem Outline.isSome_alone (label : Option Text) :
    (alone label).isSome = label.isSome :=
  Option.isSome_map

@[simp] theorem Outline.isSome_above (label : Option Text) (below : Option (List Outline)) :
    (above label below).isSome = (label.isSome && below.isSome) := by
  cases label <;> cases below <;> rfl

@[simp] theorem Outline.isSome_both (first rest : Option (List Outline)) :
    (both first rest).isSome = (first.isSome && rest.isSome) := by
  cases first <;> cases rest <;> rfl

mutual

/-- All that stands in such a tree has a label. -/
theorem Expr.isSome_outlines (e : Expr) (h : e.Proper) : e.outlines.isSome := by
  match e with
  | .absent => exact h.elim
  | .assign _ value => simp [Expr.outlines, Expr.label, value.isSome_outlines h.2]
  | .binary left _ right | .logical left _ right =>
    simp [Expr.outlines, Expr.label, left.isSome_outlines h.2.1, right.isSome_outlines h.2.2]
  | .call callee _ arguments =>
    simp [Expr.outlines, Expr.label, callee.isSome_outlines h.2.1,
      isSome_outlinesAll arguments h.2.2]
  | .get object _ =>
    obtain ⟨⟨x, rfl, -⟩, ho⟩ := h
    simp [Expr.outlines, Expr.label, object.isSome_outlines ho]
  | .group inner => simp [Expr.outlines, Expr.label, inner.isSome_outlines h]
  | .set object _ value =>
    obtain ⟨⟨x, rfl, -⟩, ho, hv⟩ := h
    simp [Expr.outlines, Expr.label, object.isSome_outlines ho, value.isSome_outlines hv]
  | .unary _ right => simp [Expr.outlines, Expr.label, right.isSome_outlines h.2]
  | .literal _ | .superMethod .. | .receiver _ | .name _ => rfl

theorem isSome_outlinesAll (es : List Expr) (h : ProperAll es) : (outlinesAll es).isSome := by
  match es with
  | [] => rfl
  | e :: es => simp [outlinesAll, e.isSome_outlines h.1, isSome_outlinesAll es h.2]

end

theorem Expr.isSome_outlines_of_optional {e : Expr} (h : e = .absent ∨ e.Proper) :
    e.outlines.isSome := by
  rcases h with rfl | h
  · rfl
  · exact e.isSome_outlines h

mutual

theorem Stmt.isSome_outlines (s : Stmt) (h : s.Proper) : s.outlines.isSome := by
  match s with
  | .absent => exact h.elim
  | .block body => simp [Stmt.outlines, isSome_blockOutlines body h]
  | .classDecl _ _ methods => simp [Stmt.outlines, isSome_methodOutlines methods h.2]
  | .expr e => simp [Stmt.outlines, e.isSome_outlines h]
  | .funDecl decl => exact decl.isSome_outlines h
  | .choice condition yes no =>
    obtain ⟨hc, hy, hn⟩ := h
    have hno : no.outlines.isSome := by
      rcases hn with rfl | hn
      · rfl
      · exact no.isSome_outlines hn
    simp [Stmt.outlines, condition.isSome_outlines hc, yes.isSome_outlines hy, hno]
  | .ret _ value => simp [Stmt.outlines, Expr.isSome_outlines_of_optional h]
  | .varDecl _ initial => simp [Stmt.outlines, Expr.isSome_outlines_of_optional h.2]
  | .loop condition body =>
    simp [Stmt.outlines, condition.isSome_outlines h.1, body.isSome_outlines h.2]

theorem FunDecl.isSome_outlines (d : FunDecl) (h : d.Proper) : d.outlines.isSome := by
  match d with
  | ⟨site, name, params, body⟩ => simp [FunDecl.outlines, isSome_bodyOutlines body h.2.2]

theorem isSome_bodyOutlines (body : Stmt) (h : ProperBody body) : body.outlines.isSome := by
  match body with
  | .block ss => simp [Stmt.outlines, isSome_blockOutlines ss h]
  | .absent | .classDecl .. | .expr _ | .funDecl _ | .choice .. | .ret .. | .varDecl ..
  | .loop .. =>
    exact h.elim

theorem isSome_blockOutlines (ss : List Stmt) (h : ProperBlock ss) :
    (blockOutlines ss).isSome := by
  match ss with
  | [] => rfl
  | s :: ss => simp [blockOutlines, s.isSome_outlines h.1, isSome_blockOutlines ss h.2]

theorem isSome_methodOutlines (ms : List (Option FunDecl)) (h : ProperMethods ms) :
    (methodOutlines ms).isSome := by
  match ms with
  | [] => rfl
  | none :: _ => exact h.elim
  | some m :: ms => simp [methodOutlines, m.isSome_outlines h.1, isSome_methodOutlines ms h.2]

end

/-! ## Reading -/

/-- All tokens are such as a scanner makes. -/
def Scanned (ts : List Token) : Prop :=
  ∀ t ∈ ts, t.Scanned

theorem scanned_cons {t : Token} {ts : List Token} :
    Scanned (t :: ts) ↔ t.Scanned ∧ Scanned ts :=
  List.forall_mem_cons

theorem scanned_append {ts us : List Token} : Scanned (ts ++ us) ↔ Scanned ts ∧ Scanned us :=
  List.forall_mem_append

theorem Level.proper_node {level : Level} {op : Token} {left right : Expr}
    (h : op.kind ∈ level.operators) (hl : left.Proper) (hr : right.Proper) :
    (level.node left op right).Proper := by
  have hp := precedence_operator h
  cases level with
  | or => exact ⟨.inl (List.mem_singleton.mp h), hl, hr⟩
  | and => exact ⟨.inr (List.mem_singleton.mp h), hl, hr⟩
  | equality => exact ⟨by rw [hp]; decide, hl, hr⟩
  | comparison => exact ⟨by rw [hp]; decide, hl, hr⟩
  | term => exact ⟨by rw [hp]; decide, hl, hr⟩
  | factor => exact ⟨by rw [hp]; decide, hl, hr⟩

namespace ExprRule

/-- The tree of a rule has all its parts, if what stands before it has. -/
def ProperTree : (r : ExprRule) → r.Tree → Prop
  | chainRest _ left, e => left.Proper → e.Proper
  | callRest c, e => c.Proper → e.Proper
  | arguments, es => ProperAll es
  | expression, e | chain _, e | operand _, e | unary, e | call, e | primary, e => e.Proper

theorem Reads.proper {r : ExprRule} {ts : List Token} {e : r.Tree} (h : r.Reads ts e)
    (hts : Scanned ts) : r.ProperTree e := by
  induction h with
  | value _ ih => exact ih hts
  | assign _ _ _ ihx ihv =>
    simp only [scanned_append, scanned_cons] at hts
    exact ⟨ihx hts.1, ihv hts.2.2⟩
  | set _ _ _ ihx ihv =>
    simp only [scanned_append, scanned_cons] at hts
    obtain ⟨hx, ho⟩ := ihx hts.1
    exact ⟨hx, ho, ihv hts.2.2⟩
  | chain _ _ ihl ihr =>
    simp only [scanned_append] at hts
    exact ihr hts.2 (ihl hts.1)
  | stop => exact fun hl => hl
  | link hop _ _ ihr ihe =>
    simp only [scanned_append, scanned_cons] at hts
    exact fun hl => ihe hts.2.2 (Level.proper_node hop hl (ihr hts.2.1))
  | tighter _ _ ih => exact ih hts
  | tightest _ _ ih => exact ih hts
  | signed hop _ ih =>
    simp only [scanned_cons] at hts
    exact ⟨by simpa using hop, ih hts.2⟩
  | unsigned _ ih => exact ih hts
  | call _ _ ihc ihe =>
    simp only [scanned_append] at hts
    exact ihe hts.2 (ihc hts.1)
  | called => exact fun hc => hc
  | plain _ _ _ ih =>
    simp only [scanned_cons] at hts
    exact fun hc => ih hts.2.2 ⟨rfl, hc, trivial⟩
  | apply _ _ _ _ iha ih =>
    simp only [scanned_append, scanned_cons] at hts
    exact fun hc => ih hts.2.2.2 ⟨rfl, hc, iha hts.2.1⟩
  | property _ hx _ ih =>
    simp only [scanned_cons] at hts
    exact fun hc => ih hts.2.2 ⟨⟨_, rfl, hts.2.1.name hx⟩, hc⟩
  | lastArgument _ ih => exact ⟨ih hts, trivial⟩
  | argument _ _ _ ih ihs =>
    simp only [scanned_append, scanned_cons] at hts
    exact ⟨ih hts.1, ihs hts.2.2⟩
  | falseWord => exact rfl
  | trueWord => exact rfl
  | nilWord => exact rfl
  | constant hk hv =>
    obtain ⟨v, hv', hknown⟩ := (hts _ List.mem_cons_self).constant hk
    rw [hv] at hv'
    exact Option.some.inj hv' ▸ hknown
  | superMethod _ _ hx =>
    simp only [scanned_cons] at hts
    exact ⟨rfl, hts.2.2.1.name hx⟩
  | receiver => exact rfl
  | name hx => exact (hts _ List.mem_cons_self).name hx
  | group _ _ _ ih =>
    simp only [scanned_append, scanned_cons] at hts
    exact ih hts.2.1

end ExprRule

namespace StmtRule

/-- The tree of a rule has all its parts. -/
def ProperTree : (r : StmtRule) → r.Tree → Prop
  | names, xs | parameters, xs => ∀ x ∈ xs, x.lexeme ≠ []
  | parenthesized, e => e.Proper
  | expressionUnless _, value => ∀ e ∈ value, e.Proper
  | forInitial, initial => ∀ s ∈ initial, s.Proper
  | superclassClause, _ => True
  | function, f => f.Proper
  | methods, ms => ProperMethods (ms.map some)
  | block, ss => ProperBlock ss
  | expressionStatement, s | varDeclaration, s | returnStatement _, s | declaration, s
  | statement, s => s.Proper

theorem proper_forLoop {initial : Option Stmt} {condition increment : Option Expr} {body : Stmt}
    (hi : ∀ s ∈ initial, s.Proper) (hc : ∀ e ∈ condition, e.Proper)
    (hn : ∀ e ∈ increment, e.Proper) (hb : body.Proper) :
    (forLoop initial condition increment body).Proper := by
  have hcondition : (condition.getD (.literal (.bool true))).Proper := by
    cases condition with
    | none => exact rfl
    | some e => exact hc e rfl
  have hbody : ProperBlock (body :: increment.toList.map Stmt.expr) := by
    cases increment with
    | none => exact ⟨hb, trivial⟩
    | some e => exact ⟨hb, hn e rfl, trivial⟩
  cases initial with
  | none => exact ⟨⟨hcondition, hbody⟩, trivial⟩
  | some s => exact ⟨hi s rfl, ⟨hcondition, hbody⟩, trivial⟩

theorem Reads.proper {r : StmtRule} {ts : List Token} {s : r.Tree} {dangling : Bool}
    (h : r.Reads ts s dangling) (hts : Scanned ts) : r.ProperTree s := by
  induction h with
  | lastName hx =>
    intro y hy
    rw [List.mem_singleton.mp hy]
    exact (hts _ List.mem_cons_self).name hx
  | name hx _ _ ih =>
    simp only [scanned_cons] at hts
    exact List.forall_mem_cons.mpr ⟨hts.1.name hx, ih hts.2.2⟩
  | expressionStatement h _ =>
    simp only [scanned_append] at hts
    exact h.proper hts.1
  | parenthesized _ h _ =>
    simp only [scanned_append, scanned_cons] at hts
    exact h.proper hts.2.1
  | omitted => exact fun _ he => nomatch he
  | given h => exact fun e he => Option.some.inj he ▸ h.proper hts
  | varPlain hx _ =>
    simp only [scanned_cons] at hts
    exact ⟨hts.1.name hx, .inl rfl⟩
  | varInitial hx _ h _ =>
    simp only [scanned_append, scanned_cons] at hts
    exact ⟨hts.1.name hx, .inr (h.proper hts.2.2.1)⟩
  | @returnStatement keyword semi ts value _ _ ih =>
    simp only [scanned_append] at hts
    cases value with
    | none => exact .inl rfl
    | some e => exact .inr (ih hts.1 e rfl)
  | forNothing => exact fun _ hs => nomatch hs
  | forVar _ _ ih =>
    simp only [scanned_cons] at hts
    exact fun s hs => Option.some.inj hs ▸ ih hts.2
  | forExpr _ ih => exact fun s hs => Option.some.inj hs ▸ ih hts
  | noParameters => exact fun _ hx => nomatch hx
  | parameters _ _ _ _ ih =>
    simp only [scanned_append, scanned_cons] at hts
    exact ih hts.2.1
  | noSuperclass => trivial
  | superclass => trivial
  | classDecl _ hx _ _ _ ihm =>
    simp only [scanned_append, scanned_cons] at hts
    exact ⟨hts.2.1.name hx, ihm hts.2.2.2⟩
  | funDecl _ _ ih =>
    simp only [scanned_cons] at hts
    exact ih hts.2
  | varDecl _ _ ih =>
    simp only [scanned_cons] at hts
    exact ih hts.2
  | plain _ ih => exact ih hts
  | function hx _ _ ihp ihb =>
    simp only [scanned_append, scanned_cons] at hts
    exact ⟨hts.1.name hx, ihp hts.2.1, ihb hts.2.2⟩
  | methodsEnd => trivial
  | method _ _ ih ihs =>
    simp only [scanned_append] at hts
    exact ⟨ih hts.1, ihs hts.2⟩
  | blockEnd => trivial
  | blockNext _ _ ih ihs =>
    simp only [scanned_append] at hts
    exact ⟨ih hts.1, ihs hts.2⟩
  | expr _ ih => exact ih hts
  | forLoop _ _ _ _ _ _ _ _ ihi ihc ihn ihb =>
    simp only [scanned_append, scanned_cons] at hts
    obtain ⟨-, -, hi, hc, -, hn, -, hb⟩ := hts
    exact proper_forLoop (ihi hi) (ihc hc) (ihn hn) (ihb hb)
  | ifElse _ _ _ _ _ ihc ihy ihn =>
    simp only [scanned_append, scanned_cons] at hts
    obtain ⟨-, hc, hy, -, hn⟩ := hts
    exact ⟨ihc hc, ihy hy, .inr (ihn hn)⟩
  | ifOnly _ _ _ ihc ihy =>
    simp only [scanned_append, scanned_cons] at hts
    exact ⟨ihc hts.2.1, ihy hts.2.2, .inl rfl⟩
  | ret _ _ ih =>
    simp only [scanned_cons] at hts
    exact ih hts.2
  | loop _ _ _ ihc ihb =>
    simp only [scanned_append, scanned_cons] at hts
    exact ⟨ihc hts.2.1, ihb hts.2.2⟩
  | block _ _ ih =>
    simp only [scanned_cons] at hts
    exact ih hts.2

end StmtRule

/-- Every statement read from a source has all its parts. -/
theorem proper_of_source {source : Text} {s : Stmt}
    (hs : s ∈ (parseProgram (tokenize source).1).statements) : s.Proper := by
  obtain ⟨used, dangling, hsub, hread⟩ := (programReads _).statement hs
  exact hread.proper fun t ht => tokenize_scanned (hsub ht)

/-! ## Parse errors -/

/-- A parse error at one of the tokens: another token is needed, no expression starts there, or it
is the equals sign after something that cannot be assigned to. -/
def ParseError.Located (ts : List Token) (e : ParseError) : Prop :=
  ∃ t ∈ ts, e.token = some t ∧
    (e.fault = .unexpectedToken ∨ (∃ kind, e.fault = .expected kind) ∨ e.fault = .invalidTarget)

/-- The token for the end of the input is not dropped by recovery. -/
theorem skipTo_ended {previous : Token} {ts : List Token} (h : ∃ t ∈ ts, t.kind = .endOfInput) :
    ∃ t ∈ skipTo previous ts, t.kind = .endOfInput := by
  induction ts generalizing previous with
  | nil => exact h
  | cons u ts ih =>
    rw [skipTo]
    split
    next => exact h
    next hskip =>
      have hu : u.kind ≠ .endOfInput := by simp_all
      obtain ⟨t, ht, hk⟩ := h
      rcases List.mem_cons.mp ht with rfl | ht
      · exact absurd hk hu
      · exact ih ⟨t, ht, hk⟩

theorem synchronize_ended {ts : List Token} (h : ∃ t ∈ ts, t.kind = .endOfInput) :
    ∃ t ∈ synchronize ts, t.kind = .endOfInput := by
  cases ts with
  | nil => exact h
  | cons u ts =>
    rw [synchronize]
    split
    next => exact h
    next hu =>
      obtain ⟨t, ht, hk⟩ := h
      rcases List.mem_cons.mp ht with rfl | ht
      · exact absurd hk hu
      · exact skipTo_ended ⟨t, ht, hk⟩

/-- What follows tokens without an end holds the end. -/
theorem NoEnd.ended_right {ts us : List Token} (h : NoEnd ts)
    (hend : ∃ t ∈ ts ++ us, t.kind = .endOfInput) : ∃ t ∈ us, t.kind = .endOfInput := by
  obtain ⟨t, ht, hk⟩ := hend
  rcases List.mem_append.mp ht with ht | ht
  · exact absurd hk (h t ht)
  · exact ⟨t, ht, hk⟩

theorem Cause.located {e : ParseError} {passed rest : List Token} (h : Cause e passed rest)
    (hend : ∃ t ∈ rest, t.kind = .endOfInput) (hts : Scanned passed) :
    e.Located (passed ++ rest) := by
  cases h with
  | unexpected => exact ⟨_, by simp, rfl, .inl rfl⟩
  | expected _ => exact ⟨_, by simp, rfl, .inr (.inl ⟨_, rfl⟩)⟩
  | ended =>
    obtain ⟨t, ht, -⟩ := hend
    cases ht
  | noValue ht hk hv =>
    obtain ⟨v, hv', -⟩ := (hts _ ht).constant hk
    rw [hv] at hv'
    cases hv'
  | target ht _ => exact ⟨_, by simp [ht], rfl, .inr (.inr rfl)⟩

theorem ParseError.Located.mono {ts us : List Token} {e : ParseError} (h : e.Located ts)
    (hsub : ts ⊆ us) : e.Located us := by
  obtain ⟨t, ht, he⟩ := h
  exact ⟨t, hsub ht, he⟩

theorem ProgramReads.located {ts : List Token} {p : Parsed} (h : ProgramReads ts p)
    (hend : ∃ t ∈ ts, t.kind = .endOfInput) (hts : Scanned ts) {e : ParseError}
    (he : e ∈ p.errors) : e.Located ts := by
  induction h with
  | ended => cases he
  | read hused _ _ ih =>
    rw [scanned_append] at hts
    exact (ih (hused.ended_right hend) hts.2 he).mono (List.subset_append_right _ _)
  | @failed passed rest e' p hpassed hc _ ih =>
    have hrest := hpassed.ended_right hend
    rw [scanned_append] at hts
    rcases List.mem_cons.mp he with rfl | he
    · exact hc.located hrest hts.1
    · have hsuffix := (synchronize_suffix rest).subset
      have hsync := ih (synchronize_ended hrest) (fun t ht => hts.2 t (hsuffix ht)) he
      exact hsync.mono fun t ht => List.mem_append_right _ (hsuffix ht)

/-- Every parse error of a source stands at one of its tokens. -/
theorem located_of_source {source : Text} {e : ParseError}
    (he : e ∈ (parseProgram (tokenize source).1).errors) : e.Located (tokenize source).1 :=
  (programReads _).located (tokenize_ended source) (fun _ => tokenize_scanned) he

end Dynascope
