import Dynascope.Tree.Basic
import Mathlib.Data.List.Forall2

/-!
# Trees that differ in their tokens

Two trees are alike if they have the same form and their tokens stand for each other.

* `Likeness`: which tokens stand for each other. Such tokens differ at most in their positions.
* `Likeness.exact`: a token stands for itself only.
* `Expr.Like`, `Stmt.Like`, `FunDecl.Like`: trees that are alike.
* `Stmt.like_self`: a tree is like itself if every token of it stands for itself.
* `Stmt.Like.eq`: trees that are exactly alike are the same.
* `Stmt.Like.numbered`: numbering keeps trees alike.
-/

namespace Dynascope

/-- Which tokens stand for each other: only tokens of the same kind, lexeme and value may. -/
structure Likeness where
  Same : Token → Token → Prop
  kind : ∀ {t t'}, Same t t' → t'.kind = t.kind
  lexeme : ∀ {t t'}, Same t t' → t'.lexeme = t.lexeme
  value : ∀ {t t'}, Same t t' → t'.value = t.value

namespace Likeness

/-- A token stands for itself only. -/
def exact : Likeness where
  Same t t' := t' = t
  kind h := by rw [h]
  lexeme h := by rw [h]
  value h := by rw [h]

/-- Tokens that may be missing stand for each other. -/
abbrev SameIfAny (L : Likeness) : Option Token → Option Token → Prop :=
  Option.Rel L.Same

/-- Tokens that stand for each other, one by one. -/
abbrev SameAll (L : Likeness) : List Token → List Token → Prop :=
  List.Forall₂ L.Same

end Likeness

/-- Expressions of the same form whose tokens stand for each other. -/
inductive Expr.Like (L : Likeness) : Expr → Expr → Prop where
  | absent : Like L .absent .absent
  | assign {name name' : Token} {value value' : Expr} (hn : L.Same name name')
      (hv : Like L value value') : Like L (.assign name value) (.assign name' value')
  | binary {left left' right right' : Expr} {operator operator' : Token} (hl : Like L left left')
      (ho : L.Same operator operator') (hr : Like L right right') :
    Like L (.binary left operator right) (.binary left' operator' right')
  | call {callee callee' : Expr} {paren paren' : Option Token} {arguments arguments' : List Expr}
      (hc : Like L callee callee') (hp : L.SameIfAny paren paren')
      (ha : List.Forall₂ (Like L) arguments arguments') :
    Like L (.call callee paren arguments) (.call callee' paren' arguments')
  | get {object object' : Expr} {name name' : Option Token} (ho : Like L object object')
      (hn : L.SameIfAny name name') : Like L (.get object name) (.get object' name')
  | group {inner inner' : Expr} (h : Like L inner inner') : Like L (.group inner) (.group inner')
  | literal {value : Literal} : Like L (.literal value) (.literal value)
  | logical {left left' right right' : Expr} {operator operator' : Token} (hl : Like L left left')
      (ho : L.Same operator operator') (hr : Like L right right') :
    Like L (.logical left operator right) (.logical left' operator' right')
  | set {object object' value value' : Expr} {name name' : Option Token}
      (ho : Like L object object') (hn : L.SameIfAny name name') (hv : Like L value value') :
    Like L (.set object name value) (.set object' name' value')
  | superMethod {keyword keyword' : Option Token} {method method' : Token}
      (hk : L.SameIfAny keyword keyword') (hm : L.Same method method') :
    Like L (.superMethod keyword method) (.superMethod keyword' method')
  | receiver {keyword keyword' : Option Token} (hk : L.SameIfAny keyword keyword') :
    Like L (.receiver keyword) (.receiver keyword')
  | unary {operator operator' : Token} {right right' : Expr} (ho : L.Same operator operator')
      (hr : Like L right right') : Like L (.unary operator right) (.unary operator' right')
  | name {name name' : Token} (hn : L.Same name name') : Like L (.name name) (.name name')

mutual

/-- Statements of the same form whose tokens stand for each other. -/
inductive Stmt.Like (L : Likeness) : Stmt → Stmt → Prop where
  | absent : Stmt.Like L .absent .absent
  | block {body body' : List Stmt} (h : List.Forall₂ (Stmt.Like L) body body') :
    Stmt.Like L (.block body) (.block body')
  | classDecl {name name' : Token} {superclass superclass' : Option Token}
      {methods methods' : List (Option FunDecl)} (hn : L.Same name name')
      (hs : L.SameIfAny superclass superclass')
      (hm : List.Forall₂ (Option.Rel (FunDecl.Like L)) methods methods') :
    Stmt.Like L (.classDecl name superclass methods) (.classDecl name' superclass' methods')
  | expr {e e' : Expr} (h : e.Like L e') : Stmt.Like L (.expr e) (.expr e')
  | funDecl {decl decl' : FunDecl} (h : FunDecl.Like L decl decl') :
    Stmt.Like L (.funDecl decl) (.funDecl decl')
  | choice {condition condition' : Expr} {yes yes' no no' : Stmt}
      (hc : condition.Like L condition') (hy : Stmt.Like L yes yes') (hn : Stmt.Like L no no') :
    Stmt.Like L (.choice condition yes no) (.choice condition' yes' no')
  | ret {keyword keyword' : Option Token} {value value' : Expr}
      (hk : L.SameIfAny keyword keyword') (hv : value.Like L value') :
    Stmt.Like L (.ret keyword value) (.ret keyword' value')
  | varDecl {name name' : Token} {initial initial' : Expr} (hn : L.Same name name')
      (hi : initial.Like L initial') : Stmt.Like L (.varDecl name initial) (.varDecl name' initial')
  | loop {condition condition' : Expr} {body body' : Stmt} (hc : condition.Like L condition')
      (hb : Stmt.Like L body body') : Stmt.Like L (.loop condition body) (.loop condition' body')

/-- Declarations with the same number and form whose tokens stand for each other. -/
inductive FunDecl.Like (L : Likeness) : FunDecl → FunDecl → Prop where
  | mk {site : Nat} {name name' : Token} {params params' : List Token} {body body' : Stmt}
      (hn : L.Same name name') (hp : L.SameAll params params') (hb : Stmt.Like L body body') :
    FunDecl.Like L ⟨site, name, params, body⟩ ⟨site, name', params', body'⟩

end

/-- The trees of two lists are alike, one by one. -/
abbrev LikeExprs (L : Likeness) : List Expr → List Expr → Prop :=
  List.Forall₂ (Expr.Like L)

/-- The statements of two lists are alike, one by one. -/
abbrev LikeStmts (L : Likeness) : List Stmt → List Stmt → Prop :=
  List.Forall₂ (Stmt.Like L)

/-- The declarations of two lists are alike, one by one. -/
abbrev LikeDecls (L : Likeness) : List FunDecl → List FunDecl → Prop :=
  List.Forall₂ (FunDecl.Like L)

/-- The methods of two lists are alike, one by one, and missing in the same places. -/
abbrev LikeMethods (L : Likeness) : List (Option FunDecl) → List (Option FunDecl) → Prop :=
  List.Forall₂ (Option.Rel (FunDecl.Like L))

variable {L : Likeness}

theorem LikeDecls.map_some {ds ds' : List FunDecl} (h : LikeDecls L ds ds') :
    LikeMethods L (ds.map some) (ds'.map some) :=
  List.forall₂_map_left_iff.mpr (List.forall₂_map_right_iff.mpr (h.imp fun _ _ => .some))

/-- Either a method is missing in both lists, or in none of them. -/
theorem LikeMethods.all {ms ms' : List (Option FunDecl)} (h : LikeMethods L ms ms') :
    Option.Rel (LikeDecls L) (ms.mapM id) (ms'.mapM id) := by
  induction h with
  | nil => exact .some .nil
  | @cons m m' ms ms' hm _ ih =>
    cases hm with
    | none => exact .none
    | some hd =>
      rw [List.mapM_cons, List.mapM_cons]
      generalize ms.mapM id = ds at ih ⊢
      generalize ms'.mapM id = ds' at ih ⊢
      cases ih with
      | none => exact .none
      | some hds => exact .some (.cons hd hds)

/-! ## A tree and itself -/

mutual

/-- The tokens of an expression. -/
def Expr.tokens : Expr → List Token
  | .absent => []
  | .assign name value => name :: value.tokens
  | .binary left operator right => left.tokens ++ operator :: right.tokens
  | .call callee paren arguments => callee.tokens ++ paren.toList ++ exprTokens arguments
  | .get object name => object.tokens ++ name.toList
  | .group inner => inner.tokens
  | .literal _ => []
  | .logical left operator right => left.tokens ++ operator :: right.tokens
  | .set object name value => object.tokens ++ name.toList ++ value.tokens
  | .superMethod keyword method => keyword.toList ++ [method]
  | .receiver keyword => keyword.toList
  | .unary operator right => operator :: right.tokens
  | .name name => [name]

/-- The tokens of expressions. -/
def exprTokens : List Expr → List Token
  | [] => []
  | e :: es => e.tokens ++ exprTokens es

end

mutual

/-- The tokens of a statement. -/
def Stmt.tokens : Stmt → List Token
  | .absent => []
  | .block body => stmtTokens body
  | .classDecl name superclass methods => name :: superclass.toList ++ methodTokens methods
  | .expr e => e.tokens
  | .funDecl decl => decl.tokens
  | .choice condition yes no => condition.tokens ++ yes.tokens ++ no.tokens
  | .ret keyword value => keyword.toList ++ value.tokens
  | .varDecl name initial => name :: initial.tokens
  | .loop condition body => condition.tokens ++ body.tokens

/-- The tokens of a declaration. -/
def FunDecl.tokens : FunDecl → List Token
  | ⟨_, name, params, body⟩ => name :: params ++ body.tokens

/-- The tokens of statements. -/
def stmtTokens : List Stmt → List Token
  | [] => []
  | s :: ss => s.tokens ++ stmtTokens ss

/-- The tokens of methods. -/
def methodTokens : List (Option FunDecl) → List Token
  | [] => []
  | none :: ds => methodTokens ds
  | some d :: ds => d.tokens ++ methodTokens ds

end

variable {L : Likeness}

theorem sameIfAny_self {t : Option Token} (h : ∀ t' ∈ t.toList, L.Same t' t') :
    L.SameIfAny t t := by
  cases t with
  | none => exact .none
  | some t => exact .some (h t (List.mem_singleton_self t))

mutual

/-- An expression is like itself if its tokens stand for themselves. -/
theorem Expr.like_self : ∀ e : Expr, (∀ t ∈ e.tokens, L.Same t t) → e.Like L e
  | .absent, _ => .absent
  | .assign name value, h => by
    simp only [Expr.tokens, List.forall_mem_cons] at h
    exact .assign h.1 (value.like_self h.2)
  | .binary left operator right, h => by
    simp only [Expr.tokens, List.forall_mem_append, List.forall_mem_cons] at h
    exact .binary (left.like_self h.1) h.2.1 (right.like_self h.2.2)
  | .call callee paren arguments, h => by
    simp only [Expr.tokens, List.forall_mem_append] at h
    exact .call (callee.like_self h.1.1) (sameIfAny_self h.1.2) (likeExprs_self arguments h.2)
  | .get object name, h => by
    simp only [Expr.tokens, List.forall_mem_append] at h
    exact .get (object.like_self h.1) (sameIfAny_self h.2)
  | .group inner, h => .group (inner.like_self h)
  | .literal _, _ => .literal
  | .logical left operator right, h => by
    simp only [Expr.tokens, List.forall_mem_append, List.forall_mem_cons] at h
    exact .logical (left.like_self h.1) h.2.1 (right.like_self h.2.2)
  | .set object name value, h => by
    simp only [Expr.tokens, List.forall_mem_append] at h
    exact .set (object.like_self h.1.1) (sameIfAny_self h.1.2) (value.like_self h.2)
  | .superMethod keyword method, h => by
    simp only [Expr.tokens, List.forall_mem_append, List.forall_mem_singleton] at h
    exact .superMethod (sameIfAny_self h.1) h.2
  | .receiver keyword, h => .receiver (sameIfAny_self h)
  | .unary operator right, h => by
    simp only [Expr.tokens, List.forall_mem_cons] at h
    exact .unary h.1 (right.like_self h.2)
  | .name name, h => .name (h name (List.mem_singleton_self name))

theorem likeExprs_self : ∀ es : List Expr, (∀ t ∈ exprTokens es, L.Same t t) → LikeExprs L es es
  | [], _ => .nil
  | e :: es, h => by
    simp only [exprTokens, List.forall_mem_append] at h
    exact .cons (e.like_self h.1) (likeExprs_self es h.2)

end

mutual

/-- A statement is like itself if its tokens stand for themselves. -/
theorem Stmt.like_self : ∀ s : Stmt, (∀ t ∈ s.tokens, L.Same t t) → s.Like L s
  | .absent, _ => .absent
  | .block body, h => .block (likeStmts_self body h)
  | .classDecl name superclass methods, h => by
    simp only [Stmt.tokens, List.cons_append, List.forall_mem_cons, List.forall_mem_append] at h
    exact .classDecl h.1 (sameIfAny_self h.2.1) (likeMethods_self methods h.2.2)
  | .expr e, h => .expr (e.like_self h)
  | .funDecl decl, h => .funDecl (decl.like_self h)
  | .choice condition yes no, h => by
    simp only [Stmt.tokens, List.forall_mem_append] at h
    exact .choice (condition.like_self h.1.1) (yes.like_self h.1.2) (no.like_self h.2)
  | .ret keyword value, h => by
    simp only [Stmt.tokens, List.forall_mem_append] at h
    exact .ret (sameIfAny_self h.1) (value.like_self h.2)
  | .varDecl name initial, h => by
    simp only [Stmt.tokens, List.forall_mem_cons] at h
    exact .varDecl h.1 (initial.like_self h.2)
  | .loop condition body, h => by
    simp only [Stmt.tokens, List.forall_mem_append] at h
    exact .loop (condition.like_self h.1) (body.like_self h.2)

theorem FunDecl.like_self : ∀ d : FunDecl, (∀ t ∈ d.tokens, L.Same t t) → d.Like L d
  | ⟨_, name, params, body⟩, h => by
    simp only [FunDecl.tokens, List.cons_append, List.forall_mem_cons, List.forall_mem_append] at h
    exact .mk h.1 (List.forall₂_same.mpr h.2.1) (body.like_self h.2.2)

theorem likeStmts_self : ∀ ss : List Stmt, (∀ t ∈ stmtTokens ss, L.Same t t) → LikeStmts L ss ss
  | [], _ => .nil
  | s :: ss, h => by
    simp only [stmtTokens, List.forall_mem_append] at h
    exact .cons (s.like_self h.1) (likeStmts_self ss h.2)

theorem likeMethods_self : ∀ ds : List (Option FunDecl),
    (∀ t ∈ methodTokens ds, L.Same t t) → LikeMethods L ds ds
  | [], _ => .nil
  | none :: ds, h => .cons .none (likeMethods_self ds h)
  | some d :: ds, h => by
    simp only [methodTokens, List.forall_mem_append] at h
    exact .cons (.some (d.like_self h.1)) (likeMethods_self ds h.2)

end

/-! ## Exactly alike -/

theorem sameIfAny_exact {t t' : Option Token} (h : Likeness.exact.SameIfAny t t') : t' = t := by
  cases h with
  | none => rfl
  | some h => rw [show _ = _ from h]

theorem sameAll_exact {ts ts' : List Token} (h : Likeness.exact.SameAll ts ts') : ts' = ts := by
  induction h with
  | nil => rfl
  | cons h _ ih => rw [show _ = _ from h, ih]

mutual

/-- Expressions that are exactly alike are the same. -/
theorem Expr.Like.eq : ∀ {e e' : Expr}, e.Like .exact e' → e' = e
  | .absent, _, .absent => rfl
  | .assign _ _, _, .assign hn hv => by rw [show _ = _ from hn, hv.eq]
  | .binary _ _ _, _, .binary hl ho hr => by rw [show _ = _ from ho, hl.eq, hr.eq]
  | .call _ _ _, _, .call hc hp ha => by rw [hc.eq, sameIfAny_exact hp, likeExprs_eq ha]
  | .get _ _, _, .get ho hn => by rw [sameIfAny_exact hn, ho.eq]
  | .group _, _, .group h => by rw [h.eq]
  | .literal _, _, .literal => rfl
  | .logical _ _ _, _, .logical hl ho hr => by rw [show _ = _ from ho, hl.eq, hr.eq]
  | .set _ _ _, _, .set ho hn hv => by rw [sameIfAny_exact hn, ho.eq, hv.eq]
  | .superMethod _ _, _, .superMethod hk hm => by rw [show _ = _ from hm, sameIfAny_exact hk]
  | .receiver _, _, .receiver hk => by rw [sameIfAny_exact hk]
  | .unary _ _, _, .unary ho hr => by rw [show _ = _ from ho, hr.eq]
  | .name _, _, .name hn => by rw [show _ = _ from hn]

theorem likeExprs_eq : ∀ {es es' : List Expr}, LikeExprs .exact es es' → es' = es
  | [], _, .nil => rfl
  | _ :: _, _, .cons h hs => by rw [h.eq, likeExprs_eq hs]

end

mutual

/-- Statements that are exactly alike are the same. -/
theorem Stmt.Like.eq : ∀ {s s' : Stmt}, s.Like .exact s' → s' = s
  | .absent, _, .absent => rfl
  | .block _, _, .block h => by rw [likeStmts_eq h]
  | .classDecl _ _ _, _, .classDecl hn hs hm => by
    rw [show _ = _ from hn, sameIfAny_exact hs, likeMethods_eq hm]
  | .expr _, _, .expr h => by rw [h.eq]
  | .funDecl _, _, .funDecl h => by rw [h.eq]
  | .choice _ _ _, _, .choice hc hy hn => by rw [hc.eq, hy.eq, hn.eq]
  | .ret _ _, _, .ret hk hv => by rw [sameIfAny_exact hk, hv.eq]
  | .varDecl _ _, _, .varDecl hn hi => by rw [show _ = _ from hn, hi.eq]
  | .loop _ _, _, .loop hc hb => by rw [hc.eq, hb.eq]

theorem FunDecl.Like.eq : ∀ {d d' : FunDecl}, d.Like .exact d' → d' = d
  | ⟨_, _, _, _⟩, _, .mk hn hp hb => by rw [show _ = _ from hn, sameAll_exact hp, hb.eq]

theorem likeStmts_eq : ∀ {ss ss' : List Stmt}, LikeStmts .exact ss ss' → ss' = ss
  | [], _, .nil => rfl
  | _ :: _, _, .cons h hs => by rw [h.eq, likeStmts_eq hs]

theorem likeMethods_eq : ∀ {ds ds' : List (Option FunDecl)},
    LikeMethods .exact ds ds' → ds' = ds
  | [], _, .nil => rfl
  | none :: _, _, .cons .none hs => by rw [likeMethods_eq hs]
  | some _ :: _, _, .cons (.some h) hs => by rw [h.eq, likeMethods_eq hs]

end

/-! ## Numbering -/

mutual

/-- Numbering keeps statements alike. -/
theorem Stmt.Like.numbered : ∀ {s s' : Stmt} (n : Nat), s.Like L s' →
    (s.numbered n).1.Like L (s'.numbered n).1 ∧ (s'.numbered n).2 = (s.numbered n).2
  | .absent, _, _, .absent => ⟨.absent, rfl⟩
  | .block _, _, n, .block h => ⟨.block (likeStmts_numbered n h).1, (likeStmts_numbered n h).2⟩
  | .classDecl _ _ _, _, n, .classDecl hn hs hm =>
    ⟨.classDecl hn hs (likeMethods_numbered n hm).1, (likeMethods_numbered n hm).2⟩
  | .expr _, _, _, .expr h => ⟨.expr h, rfl⟩
  | .funDecl _, _, n, .funDecl h => ⟨.funDecl (h.numbered n).1, (h.numbered n).2⟩
  | .choice _ yes _, _, n, .choice hc hy hn => by
    obtain ⟨hyes, hnext⟩ := hy.numbered n
    obtain ⟨hno, hlast⟩ := hn.numbered (yes.numbered n).2
    rw [Stmt.numbered, Stmt.numbered]
    simp only [hnext]
    exact ⟨.choice hc hyes hno, hlast⟩
  | .ret _ _, _, _, .ret hk hv => ⟨.ret hk hv, rfl⟩
  | .varDecl _ _, _, _, .varDecl hn hi => ⟨.varDecl hn hi, rfl⟩
  | .loop _ _, _, n, .loop hc hb => ⟨.loop hc (hb.numbered n).1, (hb.numbered n).2⟩

theorem FunDecl.Like.numbered : ∀ {d d' : FunDecl} (n : Nat), d.Like L d' →
    (d.numbered n).1.Like L (d'.numbered n).1 ∧ (d'.numbered n).2 = (d.numbered n).2
  | ⟨_, _, _, _⟩, _, n, .mk hn hp hb =>
    ⟨.mk hn hp (hb.numbered (n + 1)).1, (hb.numbered (n + 1)).2⟩

theorem likeStmts_numbered : ∀ {ss ss' : List Stmt} (n : Nat), LikeStmts L ss ss' →
    LikeStmts L (numberedAll ss n).1 (numberedAll ss' n).1 ∧
      (numberedAll ss' n).2 = (numberedAll ss n).2
  | [], _, _, .nil => ⟨.nil, rfl⟩
  | s :: ss, _, n, .cons h hs => by
    obtain ⟨hfirst, hnext⟩ := h.numbered n
    obtain ⟨hrest, hlast⟩ := likeStmts_numbered (s.numbered n).2 hs
    rw [numberedAll, numberedAll]
    simp only [hnext]
    exact ⟨.cons hfirst hrest, hlast⟩

theorem likeMethods_numbered : ∀ {ds ds' : List (Option FunDecl)} (n : Nat), LikeMethods L ds ds' →
    LikeMethods L (numberedMethods ds n).1 (numberedMethods ds' n).1 ∧
      (numberedMethods ds' n).2 = (numberedMethods ds n).2
  | [], _, _, .nil => ⟨.nil, rfl⟩
  | none :: _, _, n, .cons .none hs =>
    ⟨.cons .none (likeMethods_numbered n hs).1, (likeMethods_numbered n hs).2⟩
  | some d :: ds, _, n, .cons (.some h) hs => by
    obtain ⟨hfirst, hnext⟩ := h.numbered n
    obtain ⟨hrest, hlast⟩ := likeMethods_numbered (d.numbered n).2 hs
    rw [numberedMethods, numberedMethods]
    simp only [hnext]
    exact ⟨.cons (.some hfirst) hrest, hlast⟩

end

end Dynascope
