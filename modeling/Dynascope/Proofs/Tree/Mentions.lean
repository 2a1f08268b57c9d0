import Dynascope.Proofs.Tree.Proper
import Mathlib.Data.List.Nodup

/-!
# What trees mention

The names of variables and the declarations of functions in a tree.

* `Mention`: a name or a declaration.
* `Expr.mentions`, `Stmt.mentions`: all that a tree mentions, from left to right. A declaration is
  mentioned before what it mentions itself.
* `Renumbers`, `renumbers_numberedAll`: numbering leaves the names, and it numbers the declarations
  one after the other.
* `StmtRule.Reads.mentions`, `allRead_parseProgram`: the names in a tree that was read from tokens
  are identifiers among the tokens, and the bodies of functions are blocks.
* `mentions_of_source`: so none of the names is a keyword.
-/

namespace Dynascope

/-- What a tree mentions. -/
inductive Mention where
  /-- The name of a variable: one that is defined, assigned or read. -/
  | name (x : Text)
  /-- The declaration of a function or method. -/
  | decl (d : FunDecl)

mutual

/-- What an expression mentions; the names of properties do not count. -/
def Expr.mentions : Expr → List Mention
  | .absent | .literal _ | .superMethod .. | .receiver _ => []
  | .assign x value => .name x.lexeme :: value.mentions
  | .binary left _ right => left.mentions ++ right.mentions
  | .call callee _ arguments => callee.mentions ++ Expr.allMentions arguments
  | .get object _ => object.mentions
  | .group inner => inner.mentions
  | .logical left _ right => left.mentions ++ right.mentions
  | .set object _ value => object.mentions ++ value.mentions
  | .unary _ right => right.mentions
  | .name x => [.name x.lexeme]

/-- What expressions mention. -/
def Expr.allMentions : List Expr → List Mention
  | [] => []
  | e :: es => e.mentions ++ Expr.allMentions es

end

/-- The names that tokens stand for. -/
def namesOf (ts : List Token) : List Mention :=
  ts.map fun t => .name t.lexeme

mutual

/-- What a statement mentions. -/
def Stmt.mentions : Stmt → List Mention
  | .absent => []
  | .block body => Stmt.allMentions body
  | .classDecl name superclass methods =>
    namesOf (name :: superclass.toList) ++ FunDecl.allMentions methods
  | .expr e => e.mentions
  | .funDecl decl => decl.mentions
  | .choice condition yes no => condition.mentions ++ (yes.mentions ++ no.mentions)
  | .ret _ value => value.mentions
  | .varDecl name initial => .name name.lexeme :: initial.mentions
  | .loop condition body => condition.mentions ++ body.mentions

/-- What a declaration mentions: itself, its name, its parameters, and what its body mentions. -/
def FunDecl.mentions : FunDecl → List Mention
  | ⟨site, name, params, body⟩ =>
    .decl ⟨site, name, params, body⟩ :: (namesOf (name :: params) ++ body.mentions)

/-- What statements mention. -/
def Stmt.allMentions : List Stmt → List Mention
  | [] => []
  | s :: ss => s.mentions ++ Stmt.allMentions ss

/-- What methods mention. -/
def FunDecl.allMentions : List (Option FunDecl) → List Mention
  | [] => []
  | none :: ds => FunDecl.allMentions ds
  | some d :: ds => d.mentions ++ FunDecl.allMentions ds

end

theorem FunDecl.mem_allMentions {ds : List FunDecl} {d : FunDecl} (h : d ∈ ds) :
    d.mentions ⊆ FunDecl.allMentions (ds.map some) := by
  induction ds with
  | nil => cases h
  | cons d' ds ih =>
    rcases List.mem_cons.mp h with rfl | h
    · exact List.subset_append_left _ _
    · exact List.subset_append_of_subset_right _ (ih h)

/-! ## Numbering -/

/-- The declaration that is mentioned. -/
def Mention.decl? : Mention → Option FunDecl
  | .name _ => none
  | .decl d => some d

/-- The declarations among the mentions. -/
def declsOf (xs : List Mention) : List FunDecl :=
  xs.filterMap Mention.decl?

theorem mem_declsOf {xs : List Mention} {d : FunDecl} : d ∈ declsOf xs ↔ .decl d ∈ xs := by
  refine ⟨fun h => ?_, fun h => List.mem_filterMap.mpr ⟨_, h, rfl⟩⟩
  obtain ⟨x, hx, hd⟩ := List.mem_filterMap.mp h
  cases x with
  | name x => cases hd
  | decl d' => exact Option.some.inj hd ▸ hx

theorem declsOf_append (xs ys : List Mention) : declsOf (xs ++ ys) = declsOf xs ++ declsOf ys :=
  List.filterMap_append

theorem declsOf_namesOf (ts : List Token) : declsOf (namesOf ts) = [] := by
  induction ts with
  | nil => rfl
  | cons t ts ih => exact ih

mutual

/-- There is no declaration in an expression. -/
theorem Expr.declsOf_mentions (e : Expr) : declsOf e.mentions = [] := by
  match e with
  | .absent | .literal _ | .superMethod .. | .receiver _ | .name _ => rfl
  | .assign x value => exact value.declsOf_mentions
  | .binary left _ right | .logical left _ right =>
    rw [Expr.mentions, declsOf_append, left.declsOf_mentions, right.declsOf_mentions]
    rfl
  | .call callee _ arguments =>
    rw [Expr.mentions, declsOf_append, callee.declsOf_mentions,
      Expr.declsOf_allMentions arguments]
    rfl
  | .get object _ => exact object.declsOf_mentions
  | .group inner => exact inner.declsOf_mentions
  | .set object _ value =>
    rw [Expr.mentions, declsOf_append, object.declsOf_mentions, value.declsOf_mentions]
    rfl
  | .unary _ right => exact right.declsOf_mentions

theorem Expr.declsOf_allMentions (es : List Expr) : declsOf (Expr.allMentions es) = [] := by
  match es with
  | [] => rfl
  | e :: es =>
    rw [Expr.allMentions, declsOf_append, e.declsOf_mentions, Expr.declsOf_allMentions es]
    rfl

end

/-- A name with a property, or the declaration of a function that can be called. -/
def Mention.Read (P : Text → Prop) : Mention → Prop
  | .name x => P x
  | .decl d => ∃ body, d.body = .block body

/-- The mentions after numbering: the sites of the declarations are the numbers from `n` up to
`next`, and names and bodies are as before. -/
structure Renumbers (n : Nat) (old new : List Mention) (next : Nat) : Prop where
  le : n ≤ next
  sites : (declsOf new).map FunDecl.site = List.range' n (next - n)
  read : ∀ {P}, (∀ x ∈ old, x.Read P) → ∀ x ∈ new, x.Read P

namespace Renumbers

variable {n k next : Nat} {old new old' new' : List Mention}

/-- Without declarations nothing changes. -/
theorem same (h : declsOf old = []) : Renumbers n old old n :=
  ⟨Nat.le_refl n, by rw [h, Nat.sub_self]; rfl, fun hold => hold⟩

theorem append (h : Renumbers n old new k) (h' : Renumbers k old' new' next) :
    Renumbers n (old ++ old') (new ++ new') next := by
  obtain ⟨i, rfl⟩ := Nat.exists_eq_add_of_le h.le
  obtain ⟨j, rfl⟩ := Nat.exists_eq_add_of_le h'.le
  refine ⟨Nat.le_trans h.le h'.le, ?_, fun hold => ?_⟩
  · rw [declsOf_append, List.map_append, h.sites, h'.sites, Nat.add_sub_cancel_left,
      Nat.add_sub_cancel_left, Nat.add_assoc, Nat.add_sub_cancel_left, List.range'_append_1]
  · rw [List.forall_mem_append] at hold ⊢
    exact ⟨h.read hold.1, h'.read hold.2⟩

/-- What stands before the declarations does not change. -/
theorem after (h : Renumbers n old new next) {before : List Mention}
    (hb : declsOf before = []) :
    Renumbers n (before ++ old) (before ++ new) next :=
  (same hb).append h

/-- A declaration gets the first number. -/
theorem decl {d d' : FunDecl} (h : Renumbers (n + 1) old new next) (hsite : d'.site = n)
    (hbody : ∀ body, d.body = .block body → ∃ body', d'.body = .block body') :
    Renumbers n (.decl d :: old) (.decl d' :: new) next := by
  obtain ⟨i, rfl⟩ := Nat.exists_eq_add_of_le h.le
  have hsites := h.sites
  rw [Nat.add_sub_cancel_left] at hsites
  have hlength : n + 1 + i - n = i + 1 := by omega
  refine ⟨Nat.le_trans (Nat.le_succ n) h.le, ?_, fun hold => ?_⟩
  · show d'.site :: (declsOf new).map FunDecl.site = _
    rw [hsite, hsites, hlength, List.range'_succ]
  · rw [List.forall_mem_cons] at hold ⊢
    obtain ⟨⟨body, hblock⟩, hrest⟩ := hold
    exact ⟨hbody body hblock, h.read hrest⟩

end Renumbers

mutual

theorem Stmt.renumbers_numbered (s : Stmt) (n : Nat) :
    Renumbers n s.mentions (s.numbered n).1.mentions (s.numbered n).2 := by
  match s with
  | .absent => exact .same rfl
  | .block body => exact renumbers_numberedAll body n
  | .classDecl name superclass methods =>
    exact (renumbers_numberedMethods methods n).after (declsOf_namesOf _)
  | .expr e => exact .same e.declsOf_mentions
  | .funDecl decl => exact decl.renumbers_numbered n
  | .choice condition yes no =>
    exact ((yes.renumbers_numbered n).append (no.renumbers_numbered _)).after
      condition.declsOf_mentions
  | .ret keyword value => exact .same value.declsOf_mentions
  | .varDecl name initial => exact .same initial.declsOf_mentions
  | .loop condition body => exact (body.renumbers_numbered n).after condition.declsOf_mentions

theorem FunDecl.renumbers_numbered (d : FunDecl) (n : Nat) :
    Renumbers n d.mentions (d.numbered n).1.mentions (d.numbered n).2 := by
  match d with
  | ⟨site, name, params, body⟩ =>
    refine .decl ((body.renumbers_numbered (n + 1)).after (declsOf_namesOf _)) rfl ?_
    intro ss hblock
    have hblock : body = .block ss := hblock
    subst hblock
    exact ⟨_, rfl⟩

/-- Numbering leaves names and bodies, and it numbers the declarations one after the other. -/
theorem renumbers_numberedAll (ss : List Stmt) (n : Nat) :
    Renumbers n (Stmt.allMentions ss) (Stmt.allMentions (numberedAll ss n).1)
      (numberedAll ss n).2 := by
  match ss with
  | [] => exact .same rfl
  | s :: ss => exact (s.renumbers_numbered n).append (renumbers_numberedAll ss _)

theorem renumbers_numberedMethods (ds : List (Option FunDecl)) (n : Nat) :
    Renumbers n (FunDecl.allMentions ds) (FunDecl.allMentions (numberedMethods ds n).1)
      (numberedMethods ds n).2 := by
  match ds with
  | [] => exact .same rfl
  | none :: ds => exact renumbers_numberedMethods ds n
  | some d :: ds => exact (d.renumbers_numbered n).append (renumbers_numberedMethods ds _)

end

/-- Of the declarations that are numbered, no two have the same site. -/
theorem Renumbers.eq_of_site {n next : Nat} {old new : List Mention} (h : Renumbers n old new next)
    {d d' : FunDecl} (hd : .decl d ∈ new) (hd' : .decl d' ∈ new) (hsite : d.site = d'.site) :
    d = d' := by
  have hnodup : ((declsOf new).map FunDecl.site).Nodup := h.sites ▸ List.nodup_range'
  exact List.inj_on_of_nodup_map hnodup (mem_declsOf.mpr hd) (mem_declsOf.mpr hd') hsite

/-- The sites lie between the first number and the next free one. -/
theorem Renumbers.site_bounds {n next : Nat} {old new : List Mention}
    (h : Renumbers n old new next) {d : FunDecl} (hd : .decl d ∈ new) :
    n ≤ d.site ∧ d.site < next := by
  have hmem : d.site ∈ (declsOf new).map FunDecl.site :=
    List.mem_map_of_mem (mem_declsOf.mpr hd)
  rw [h.sites, List.mem_range'_1, Nat.add_sub_cancel' h.le] at hmem
  exact hmem

/-! ## Reading -/

/-- The identifiers among the tokens have a property. -/
def Identifiers (P : Text → Prop) (ts : List Token) : Prop :=
  ∀ t ∈ ts, t.kind = .identifier → P t.lexeme

/-- All that is mentioned is a name with a property or a function that can be called. -/
def AllRead (P : Text → Prop) (xs : List Mention) : Prop :=
  ∀ x ∈ xs, x.Read P

section Reading

variable {P : Text → Prop}

theorem identifiers_cons {t : Token} {ts : List Token} :
    Identifiers P (t :: ts) ↔ (t.kind = .identifier → P t.lexeme) ∧ Identifiers P ts :=
  List.forall_mem_cons

theorem identifiers_append {ts us : List Token} :
    Identifiers P (ts ++ us) ↔ Identifiers P ts ∧ Identifiers P us :=
  List.forall_mem_append

theorem allRead_nil : AllRead P [] :=
  nofun

theorem allRead_append {xs ys : List Mention} :
    AllRead P (xs ++ ys) ↔ AllRead P xs ∧ AllRead P ys :=
  List.forall_mem_append

theorem allRead_name {x : Text} {xs : List Mention} :
    AllRead P (.name x :: xs) ↔ P x ∧ AllRead P xs :=
  List.forall_mem_cons

theorem allRead_namesOf {ts : List Token} :
    AllRead P (namesOf ts) ↔ ∀ t ∈ ts, P t.lexeme :=
  List.forall_mem_map

theorem Level.allRead_node {level : Level} {op : Token} {left right : Expr}
    (hl : AllRead P left.mentions) (hr : AllRead P right.mentions) :
    AllRead P (level.node left op right).mentions := by
  cases level <;> exact allRead_append.mpr ⟨hl, hr⟩

namespace ExprRule

/-- The tree of a rule mentions names with a property, if what stands before it does. -/
def TreeRead (P : Text → Prop) : (r : ExprRule) → r.Tree → Prop
  | chainRest _ left, e => AllRead P left.mentions → AllRead P e.mentions
  | callRest c, e => AllRead P c.mentions → AllRead P e.mentions
  | arguments, es => AllRead P (Expr.allMentions es)
  | expression, e | chain _, e | operand _, e | unary, e | call, e | primary, e =>
    AllRead P e.mentions

theorem Reads.mentions {r : ExprRule} {ts : List Token} {e : r.Tree} (h : r.Reads ts e)
    (hts : Identifiers P ts) : r.TreeRead P e := by
  induction h with
  | value _ ih => exact ih hts
  | assign _ _ _ ihx ihv =>
    simp only [identifiers_append, identifiers_cons] at hts
    exact allRead_name.mpr ⟨(allRead_name.mp (ihx hts.1)).1, ihv hts.2.2⟩
  | set _ _ _ ihx ihv =>
    simp only [identifiers_append, identifiers_cons] at hts
    exact allRead_append.mpr ⟨ihx hts.1, ihv hts.2.2⟩
  | chain _ _ ihl ihr =>
    simp only [identifiers_append] at hts
    exact ihr hts.2 (ihl hts.1)
  | stop => exact fun hl => hl
  | link _ _ _ ihr ihe =>
    simp only [identifiers_append, identifiers_cons] at hts
    exact fun hl => ihe hts.2.2 (Level.allRead_node hl (ihr hts.2.1))
  | tighter _ _ ih => exact ih hts
  | tightest _ _ ih => exact ih hts
  | signed _ _ ih =>
    simp only [identifiers_cons] at hts
    exact ih hts.2
  | unsigned _ ih => exact ih hts
  | call _ _ ihc ihe =>
    simp only [identifiers_append] at hts
    exact ihe hts.2 (ihc hts.1)
  | called => exact fun hc => hc
  | plain _ _ _ ih =>
    simp only [identifiers_cons] at hts
    exact fun hc => ih hts.2.2 (allRead_append.mpr ⟨hc, allRead_nil⟩)
  | apply _ _ _ _ iha ih =>
    simp only [identifiers_append, identifiers_cons] at hts
    exact fun hc => ih hts.2.2.2 (allRead_append.mpr ⟨hc, iha hts.2.1⟩)
  | property _ _ _ ih =>
    simp only [identifiers_cons] at hts
    exact fun hc => ih hts.2.2 hc
  | lastArgument _ ih => exact allRead_append.mpr ⟨ih hts, allRead_nil⟩
  | argument _ _ _ ih ihs =>
    simp only [identifiers_append, identifiers_cons] at hts
    exact allRead_append.mpr ⟨ih hts.1, ihs hts.2.2⟩
  | name hx => exact allRead_name.mpr ⟨hts _ List.mem_cons_self hx, allRead_nil⟩
  | group _ _ _ ih =>
    simp only [identifiers_append, identifiers_cons] at hts
    exact ih hts.2.1
  | _ => exact allRead_nil

end ExprRule

namespace StmtRule

/-- The tree of a rule mentions names with a property. -/
def TreeRead (P : Text → Prop) : (r : StmtRule) → r.Tree → Prop
  | names, xs | parameters, xs => ∀ x ∈ xs, P x.lexeme
  | parenthesized, e => AllRead P e.mentions
  | expressionUnless _, value => ∀ e ∈ value, AllRead P e.mentions
  | forInitial, initial => ∀ s ∈ initial, AllRead P s.mentions
  | superclassClause, superclass => ∀ x ∈ superclass, P x.lexeme
  | function, f => AllRead P f.mentions
  | methods, ms => AllRead P (FunDecl.allMentions (ms.map some))
  | block, ss => AllRead P (Stmt.allMentions ss)
  | expressionStatement, s | varDeclaration, s | returnStatement _, s | declaration, s
  | statement, s => AllRead P s.mentions

theorem allRead_forLoop {initial : Option Stmt} {condition increment : Option Expr} {body : Stmt}
    (hi : ∀ s ∈ initial, AllRead P s.mentions) (hc : ∀ e ∈ condition, AllRead P e.mentions)
    (hn : ∀ e ∈ increment, AllRead P e.mentions) (hb : AllRead P body.mentions) :
    AllRead P (forLoop initial condition increment body).mentions := by
  have hcondition : AllRead P (condition.getD (.literal (.bool true))).mentions := by
    cases condition with
    | none => exact allRead_nil
    | some e => exact hc e rfl
  have hincrement : AllRead P (Stmt.allMentions (increment.toList.map Stmt.expr)) := by
    cases increment with
    | none => exact allRead_nil
    | some e => exact allRead_append.mpr ⟨hn e rfl, allRead_nil⟩
  have hloop : AllRead P (Stmt.allMentions [.loop (condition.getD (.literal (.bool true)))
      (.block (body :: increment.toList.map Stmt.expr))]) :=
    allRead_append.mpr
      ⟨allRead_append.mpr ⟨hcondition, allRead_append.mpr ⟨hb, hincrement⟩⟩, allRead_nil⟩
  cases initial with
  | none => exact hloop
  | some s => exact allRead_append.mpr ⟨hi s rfl, hloop⟩

/-- Trees mention identifiers among the tokens that they were read from. -/
theorem Reads.mentions {r : StmtRule} {ts : List Token} {s : r.Tree} {dangling : Bool}
    (h : r.Reads ts s dangling) (hts : Identifiers P ts) : r.TreeRead P s := by
  induction h with
  | lastName hx =>
    intro y hy
    rw [List.mem_singleton.mp hy]
    exact hts _ List.mem_cons_self hx
  | name hx _ _ ih =>
    simp only [identifiers_cons] at hts
    exact List.forall_mem_cons.mpr ⟨hts.1 hx, ih hts.2.2⟩
  | expressionStatement h _ =>
    simp only [identifiers_append] at hts
    exact h.mentions hts.1
  | parenthesized _ h _ =>
    simp only [identifiers_append, identifiers_cons] at hts
    exact h.mentions hts.2.1
  | omitted => exact fun _ he => nomatch he
  | given h => exact fun e he => Option.some.inj he ▸ h.mentions hts
  | varPlain hx _ =>
    simp only [identifiers_cons] at hts
    exact allRead_name.mpr ⟨hts.1 hx, allRead_nil⟩
  | varInitial hx _ h _ =>
    simp only [identifiers_append, identifiers_cons] at hts
    exact allRead_name.mpr ⟨hts.1 hx, h.mentions hts.2.2.1⟩
  | @returnStatement keyword semi ts value _ _ ih =>
    simp only [identifiers_append] at hts
    cases value with
    | none => exact allRead_nil
    | some e => exact ih hts.1 e rfl
  | forNothing => exact fun _ hs => nomatch hs
  | forVar _ _ ih =>
    simp only [identifiers_cons] at hts
    exact fun s hs => Option.some.inj hs ▸ ih hts.2
  | forExpr _ ih => exact fun s hs => Option.some.inj hs ▸ ih hts
  | noParameters => exact fun _ hx => nomatch hx
  | parameters _ _ _ _ ih =>
    simp only [identifiers_append, identifiers_cons] at hts
    exact ih hts.2.1
  | noSuperclass => exact fun _ hx => nomatch hx
  | superclass _ hx _ =>
    simp only [identifiers_cons] at hts
    exact fun x hsome => Option.some.inj hsome ▸ hts.2.1 hx
  | classDecl _ hx _ _ ihs ihm =>
    simp only [identifiers_append, identifiers_cons] at hts
    refine allRead_append.mpr ⟨allRead_namesOf.mpr (List.forall_mem_cons.mpr ⟨hts.2.1 hx, ?_⟩),
      ihm hts.2.2.2⟩
    exact fun x hsome => ihs hts.2.2.1 x (Option.mem_toList.mp hsome)
  | funDecl _ _ ih =>
    simp only [identifiers_cons] at hts
    exact ih hts.2
  | varDecl _ _ ih =>
    simp only [identifiers_cons] at hts
    exact ih hts.2
  | plain _ ih => exact ih hts
  | function hx _ _ ihp ihb =>
    simp only [identifiers_append, identifiers_cons] at hts
    have hnames := allRead_namesOf.mpr (List.forall_mem_cons.mpr ⟨hts.1 hx, ihp hts.2.1⟩)
    exact List.forall_mem_cons.mpr ⟨⟨_, rfl⟩, allRead_append.mpr ⟨hnames, ihb hts.2.2⟩⟩
  | methodsEnd => exact allRead_nil
  | method _ _ ih ihs =>
    simp only [identifiers_append] at hts
    exact allRead_append.mpr ⟨ih hts.1, ihs hts.2⟩
  | blockEnd => exact allRead_nil
  | blockNext _ _ ih ihs =>
    simp only [identifiers_append] at hts
    exact allRead_append.mpr ⟨ih hts.1, ihs hts.2⟩
  | expr _ ih => exact ih hts
  | forLoop _ _ _ _ _ _ _ _ ihi ihc ihn ihb =>
    simp only [identifiers_append, identifiers_cons] at hts
    obtain ⟨-, -, hi, hc, -, hn, -, hb⟩ := hts
    exact allRead_forLoop (ihi hi) (ihc hc) (ihn hn) (ihb hb)
  | ifElse _ _ _ _ _ ihc ihy ihn =>
    simp only [identifiers_append, identifiers_cons] at hts
    obtain ⟨-, hc, hy, -, hn⟩ := hts
    exact allRead_append.mpr ⟨ihc hc, allRead_append.mpr ⟨ihy hy, ihn hn⟩⟩
  | ifOnly _ _ _ ihc ihy =>
    simp only [identifiers_append, identifiers_cons] at hts
    exact allRead_append.mpr ⟨ihc hts.2.1, allRead_append.mpr ⟨ihy hts.2.2, allRead_nil⟩⟩
  | ret _ _ ih =>
    simp only [identifiers_cons] at hts
    exact ih hts.2
  | loop _ _ _ ihc ihb =>
    simp only [identifiers_append, identifiers_cons] at hts
    exact allRead_append.mpr ⟨ihc hts.2.1, ihb hts.2.2⟩
  | block _ _ ih =>
    simp only [identifiers_cons] at hts
    exact ih hts.2

end StmtRule

end Reading

/-- The statements of a program mention identifiers among its tokens. -/
theorem allRead_parseProgram {P : Text → Prop} {ts : List Token} (hts : Identifiers P ts) :
    AllRead P (Stmt.allMentions (parseProgram ts).statements) := by
  have hall : ∀ ss ⊆ (parseProgram ts).statements, AllRead P (Stmt.allMentions ss) := by
    intro ss hss
    induction ss with
    | nil => exact allRead_nil
    | cons s ss ih =>
      obtain ⟨hs, hrest⟩ := List.cons_subset.mp hss
      obtain ⟨used, dangling, hsub, hread⟩ := (programReads _).statement hs
      have hused : Identifiers P used := fun t ht => hts t (hsub ht)
      exact allRead_append.mpr ⟨hread.mentions hused, ih hrest⟩
  exact hall _ (List.Subset.refl _)

/-- No name in a tree that was read from a source is a keyword, and the body of every function is a
block. -/
theorem mentions_of_source (source : Text) :
    AllRead (fun x => Kind.keyword? x = none)
      (Stmt.allMentions (parseProgram (tokenize source).1).statements) :=
  allRead_parseProgram fun _ ht => tokenize_identifier ht

end Dynascope
