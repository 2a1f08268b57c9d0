import Dynascope.Proofs.Tree.Likeness
import Dynascope.Proofs.Tree.Program

/-!
# Reading tokens that stand for others

The parser looks at kinds and values only. So tokens that stand for others, one by one, read as a
tree that is like the one the others read as.

* `Carried`: what this means for some tokens and the tree they read as. The rules
  (`Carried.append`, `Carried.cons` and so on) take tokens off the front.
* `ExprRule.Reads.carries`, `StmtRule.Reads.carries`: it holds of all rules.
* `Declarations.carries`: it holds of programs.
-/

namespace Dynascope

variable {L : Likeness}

/-- Whatever stands for the tokens reads as something like the tree. -/
def Carried {α : Type} (L : Likeness) (reads : List Token → α → Prop) (like : α → α → Prop)
    (ts : List Token) (a : α) : Prop :=
  ∀ ts', L.SameAll ts ts' → ∃ a', reads ts' a' ∧ like a a'

namespace Carried

variable {α β : Type} {reads : List Token → α → Prop} {like : α → α → Prop}
  {first : List Token → β → Prop} {likeFirst : β → β → Prop}
  {t : Token} {ts us : List Token} {a : α} {b : β}

theorem nil {a' : α} (h : reads [] a') (hlike : like a a') : Carried L reads like [] a := by
  intro _ hts
  cases hts
  exact ⟨a', h, hlike⟩

/-- One token first. -/
theorem cons (h : ∀ t', L.Same t t' → Carried L (fun us' => reads (t' :: us')) like us a) :
    Carried L reads like (t :: us) a := by
  intro _ hts
  cases hts with
  | cons ht hus => exact h _ ht _ hus

/-- Tokens of which the statement is known already come first. -/
theorem append (h : Carried L first likeFirst ts b)
    (hrest : ∀ ts' b', first ts' b' → likeFirst b b' →
      Carried L (fun us' => reads (ts' ++ us')) like us a) :
    Carried L reads like (ts ++ us) a := by
  induction ts generalizing first reads with
  | nil =>
    intro us' hus
    obtain ⟨b', hb, hlike⟩ := h [] .nil
    exact hrest [] b' hb hlike us' hus
  | cons t ts ih =>
    refine .cons fun t' ht => ih (fun ts' hts => h (t' :: ts') (.cons ht hts)) ?_
    exact fun ts' b' hb hlike => hrest (t' :: ts') b' hb hlike

/-- Nothing follows tokens of which the statement is known already. -/
theorem last (h : Carried L first likeFirst ts b)
    (hrest : ∀ ts' b', first ts' b' → likeFirst b b' → ∃ a', reads ts' a' ∧ like a a') :
    Carried L reads like ts a := by
  intro ts' hts
  obtain ⟨b', hb, hlike⟩ := h ts' hts
  exact hrest ts' b' hb hlike

/-- The tree is read by another rule. -/
theorem imp {reads' : List Token → α → Prop} (h : Carried L reads like ts a)
    (himp : ∀ {ts' a'}, reads ts' a' → reads' ts' a') : Carried L reads' like ts a :=
  h.last fun _ a' ha hlike => ⟨a', himp ha, hlike⟩

end Carried

/-! ## Expressions -/

theorem Expr.Like.node {left left' right right' : Expr} {op op' : Token} (level : Level)
    (hl : left.Like L left') (ho : L.Same op op') (hr : right.Like L right') :
    (level.node left op right).Like L (level.node left' op' right') := by
  cases level with
  | or => exact .logical hl ho hr
  | and => exact .logical hl ho hr
  | _ => exact .binary hl ho hr

namespace ExprRule

/-- The trees of a rule are alike. -/
abbrev TreeLike (L : Likeness) : (r : ExprRule) → r.Tree → r.Tree → Prop
  | .arguments => LikeExprs L
  | .expression => Expr.Like L
  | .chain _ => Expr.Like L
  | .chainRest .. => Expr.Like L
  | .operand _ => Expr.Like L
  | .unary => Expr.Like L
  | .call => Expr.Like L
  | .callRest _ => Expr.Like L
  | .primary => Expr.Like L

/-- Whatever stands for the tokens reads as something like the tree. A rule that goes on from a tree
goes on from any tree that is like it. -/
abbrev Carries (L : Likeness) : (r : ExprRule) → List Token → r.Tree → Prop
  | .chainRest level left => fun ts e => ∀ left', left.Like L left' →
      Carried L (Reads (.chainRest level left')) (Expr.Like L) ts e
  | .callRest callee => fun ts e => ∀ callee', callee.Like L callee' →
      Carried L (Reads (.callRest callee')) (Expr.Like L) ts e
  | r => Carried L r.Reads (r.TreeLike L)

/-- **Expressions.** Tokens that stand for those of an expression read as an expression like it. -/
theorem Reads.carries {r : ExprRule} {ts : List Token} {e : r.Tree} (h : r.Reads ts e) :
    r.Carries L ts e := by
  induction h with
  | value _ ih => exact ih.imp .value
  | assign _ heq _ ihx ihv =>
    refine ihx.append fun ts' x' hx hname => .cons fun eq' hsame => ihv.last fun us' v' hv hv' => ?_
    cases hname with
    | name hn => exact ⟨_, .assign hx ((L.kind hsame).trans heq) hv, .assign hn hv'⟩
  | set _ heq _ ihx ihv =>
    refine ihx.append fun ts' x' hx hget => .cons fun eq' hsame => ihv.last fun us' v' hv hv' => ?_
    cases hget with
    | get ho hn => exact ⟨_, .set hx ((L.kind hsame).trans heq) hv, .set ho hn hv'⟩
  | chain _ _ ihl ihr =>
    exact ihl.append fun ts' left' hl hleft => (ihr left' hleft).imp fun he => .chain hl he
  | stop => exact fun left' hleft => .nil .stop hleft
  | @link level left right e op ts us hop _ _ ihr ihe =>
    intro left' hleft
    refine .cons fun op' hsame => ihr.append fun ts' right' hr hright => ?_
    have hnode := Expr.Like.node level hleft hsame hright
    exact (ihe _ hnode).imp fun he => .link (by rwa [L.kind hsame]) hr he
  | tighter hl _ ih => exact ih.imp fun he => .tighter hl he
  | tightest hl _ ih => exact ih.imp fun he => .tightest hl he
  | signed hop _ ih =>
    refine .cons fun op' hsame => ih.last fun ts' e' he hlike => ?_
    exact ⟨_, .signed (by rwa [L.kind hsame]) he, .unary hsame hlike⟩
  | unsigned _ ih => exact ih.imp .unsigned
  | call _ _ ihc ihe =>
    exact ihc.append fun ts' c' hc hcallee => (ihe c' hcallee).imp fun he => .call hc he
  | called => exact fun callee' hcallee => .nil .called hcallee
  | plain hl hr _ ihe =>
    intro callee' hcallee
    refine .cons fun left' hleft => .cons fun right' hright => ?_
    refine (ihe _ (.call hcallee (.some hright) .nil)).imp fun he => ?_
    exact .plain ((L.kind hleft).trans hl) ((L.kind hright).trans hr) he
  | apply hl _ hr _ iha ihe =>
    intro callee' hcallee
    refine .cons fun left' hleft => iha.append fun ts' args' ha hargs =>
      .cons fun right' hright => ?_
    refine (ihe _ (.call hcallee (.some hright) hargs)).imp fun he => ?_
    exact .apply ((L.kind hleft).trans hl) ha ((L.kind hright).trans hr) he
  | property hd hx _ ihe =>
    intro callee' hcallee
    refine .cons fun dot' hdot => .cons fun x' hname => ?_
    refine (ihe _ (.get hcallee (.some hname))).imp fun he => ?_
    exact .property ((L.kind hdot).trans hd) ((L.kind hname).trans hx) he
  | lastArgument _ ih =>
    exact ih.last fun ts' e' he hlike => ⟨[e'], .lastArgument he, .cons hlike .nil⟩
  | argument _ hc _ ih ihs =>
    refine ih.append fun ts' e' he hlike => .cons fun comma' hcomma =>
      ihs.last fun us' es' hes hlikes => ?_
    exact ⟨_, .argument he ((L.kind hcomma).trans hc) hes, .cons hlike hlikes⟩
  | falseWord hk =>
    exact .cons fun t' hsame => .nil (.falseWord ((L.kind hsame).trans hk)) .literal
  | trueWord hk => exact .cons fun t' hsame => .nil (.trueWord ((L.kind hsame).trans hk)) .literal
  | nilWord hk => exact .cons fun t' hsame => .nil (.nilWord ((L.kind hsame).trans hk)) .literal
  | constant hk hv =>
    refine .cons fun t' hsame => .nil (.constant ?_ ((L.value hsame).trans hv)) .literal
    rwa [L.kind hsame]
  | superMethod hk hd hx =>
    refine .cons fun keyword' hkeyword => .cons fun dot' hdot => .cons fun x' hname => ?_
    exact .nil (.superMethod ((L.kind hkeyword).trans hk) ((L.kind hdot).trans hd)
      ((L.kind hname).trans hx)) (.superMethod (.some hkeyword) hname)
  | receiver hk =>
    refine .cons fun keyword' hsame => ?_
    exact .nil (.receiver ((L.kind hsame).trans hk)) (.receiver (.some hsame))
  | name hx => exact .cons fun x' hsame => .nil (.name ((L.kind hsame).trans hx)) (.name hsame)
  | group hl _ hr ih =>
    refine .cons fun left' hleft => ih.append fun ts' e' he hlike => .cons fun right' hright => ?_
    exact .nil (.group ((L.kind hleft).trans hl) he ((L.kind hright).trans hr)) (.group hlike)

end ExprRule

/-! ## Statements -/

namespace StmtRule

/-- The trees of a rule are alike. -/
abbrev TreeLike (L : Likeness) : (r : StmtRule) → r.Tree → r.Tree → Prop
  | .names => L.SameAll
  | .expressionStatement => Stmt.Like L
  | .parenthesized => Expr.Like L
  | .expressionUnless _ => Option.Rel (Expr.Like L)
  | .varDeclaration => Stmt.Like L
  | .returnStatement _ => Stmt.Like L
  | .forInitial => Option.Rel (Stmt.Like L)
  | .parameters => L.SameAll
  | .superclassClause => L.SameIfAny
  | .declaration => Stmt.Like L
  | .function => FunDecl.Like L
  | .methods => LikeDecls L
  | .block => LikeStmts L
  | .statement => Stmt.Like L

/-- Whatever stands for the tokens reads as something like the tree. A `return` statement holds its
keyword, which was read before. -/
abbrev Carries (L : Likeness) :
    (r : StmtRule) → List Token → r.Tree → (dangling : Bool) → Prop
  | .returnStatement keyword => fun ts s dangling => ∀ keyword', L.Same keyword keyword' →
      Carried L (Reads (.returnStatement keyword') · · dangling) (Stmt.Like L) ts s
  | r => fun ts s dangling => Carried L (r.Reads · · dangling) (r.TreeLike L) ts s

/-- `for` loops of parts that are alike. -/
theorem like_forLoop {initial initial' : Option Stmt} {condition condition' : Option Expr}
    {increment increment' : Option Expr} {body body' : Stmt}
    (hi : Option.Rel (Stmt.Like L) initial initial')
    (hc : Option.Rel (Expr.Like L) condition condition')
    (hn : Option.Rel (Expr.Like L) increment increment') (hb : body.Like L body') :
    (Dynascope.forLoop initial condition increment body).Like L
      (Dynascope.forLoop initial' condition' increment' body') := by
  have hcondition : (condition.getD (.literal (.bool true))).Like L
      (condition'.getD (.literal (.bool true))) := by
    cases hc with
    | none => exact .literal
    | some hc => exact hc
  have hstep : LikeStmts L (increment.toList.map .expr) (increment'.toList.map .expr) := by
    cases hn with
    | none => exact .nil
    | some hn => exact .cons (.expr hn) .nil
  have hloop := Stmt.Like.loop hcondition (.block (.cons hb hstep))
  unfold Dynascope.forLoop
  cases hi with
  | none => exact .block (.cons hloop .nil)
  | some hi => exact .block (.cons hi (.cons hloop .nil))

/-- **Statements.** Tokens that stand for those of a statement read as a statement like it. -/
theorem Reads.carries {r : StmtRule} {ts : List Token} {s : r.Tree} {dangling : Bool}
    (h : r.Reads ts s dangling) : r.Carries L ts s dangling := by
  induction h with
  | lastName hx =>
    exact .cons fun x' hsame => .nil (.lastName ((L.kind hsame).trans hx)) (.cons hsame .nil)
  | name hx hc _ ih =>
    refine .cons fun x' hname => .cons fun comma' hcomma => ih.last fun ts' xs' hxs hlike => ?_
    exact ⟨_, .name ((L.kind hname).trans hx) ((L.kind hcomma).trans hc) hxs, .cons hname hlike⟩
  | expressionStatement h hs =>
    refine h.carries.append fun ts' e' he hlike => .cons fun semi' hsemi => ?_
    exact .nil (.expressionStatement he ((L.kind hsemi).trans hs)) (.expr hlike)
  | parenthesized hl h hr =>
    refine .cons fun left' hleft => h.carries.append fun ts' e' he hlike =>
      .cons fun right' hright => ?_
    exact .nil (.parenthesized ((L.kind hleft).trans hl) he ((L.kind hright).trans hr)) hlike
  | omitted => exact .nil .omitted .none
  | given h => exact h.carries.last fun ts' e' he hlike => ⟨some e', .given he, .some hlike⟩
  | varPlain hx hs =>
    refine .cons fun x' hname => .cons fun semi' hsemi => ?_
    exact .nil (.varPlain ((L.kind hname).trans hx) ((L.kind hsemi).trans hs))
      (.varDecl hname .absent)
  | varInitial hx heq h hs =>
    refine .cons fun x' hname => .cons fun eq' hequal => h.carries.append fun ts' e' he hlike =>
      .cons fun semi' hsemi => ?_
    exact .nil (.varInitial ((L.kind hname).trans hx) ((L.kind hequal).trans heq) he
      ((L.kind hsemi).trans hs)) (.varDecl hname hlike)
  | returnStatement _ hs ih =>
    intro keyword' hkeyword
    refine ih.append fun ts' value' hvalue hlike => .cons fun semi' hsemi => ?_
    refine .nil (.returnStatement hvalue ((L.kind hsemi).trans hs)) (.ret (.some hkeyword) ?_)
    cases hlike with
    | none => exact .absent
    | some hlike => exact hlike
  | forNothing hs =>
    exact .cons fun semi' hsemi => .nil (.forNothing ((L.kind hsemi).trans hs)) .none
  | forVar hk _ ih =>
    refine .cons fun keyword' hkeyword => ih.last fun ts' s' hs hlike => ?_
    exact ⟨some s', .forVar ((L.kind hkeyword).trans hk) hs, .some hlike⟩
  | forExpr _ ih => exact ih.last fun ts' s' hs hlike => ⟨some s', .forExpr hs, .some hlike⟩
  | noParameters hl hr hb =>
    refine .cons fun left' hleft => .cons fun right' hright => .cons fun brace' hbrace => ?_
    exact .nil (.noParameters ((L.kind hleft).trans hl) ((L.kind hright).trans hr)
      ((L.kind hbrace).trans hb)) .nil
  | parameters hl _ hr hb ih =>
    refine .cons fun left' hleft => ih.append fun ts' xs' hxs hlike => .cons fun right' hright =>
      .cons fun brace' hbrace => ?_
    exact .nil (.parameters ((L.kind hleft).trans hl) hxs ((L.kind hright).trans hr)
      ((L.kind hbrace).trans hb)) hlike
  | noSuperclass hb =>
    exact .cons fun brace' hbrace => .nil (.noSuperclass ((L.kind hbrace).trans hb)) .none
  | superclass hl hx hb =>
    refine .cons fun less' hless => .cons fun x' hname => .cons fun brace' hbrace => ?_
    exact .nil (.superclass ((L.kind hless).trans hl) ((L.kind hname).trans hx)
      ((L.kind hbrace).trans hb)) (.some hname)
  | classDecl hk hx _ _ ihs ihm =>
    refine .cons fun keyword' hkeyword => .cons fun x' hname =>
      ihs.append fun ts' superclass' hs hsuper => ihm.last fun us' ms' hm hlike => ?_
    exact ⟨_, .classDecl ((L.kind hkeyword).trans hk) ((L.kind hname).trans hx) hs hm,
      .classDecl hname hsuper (LikeDecls.map_some hlike)⟩
  | funDecl hk _ ih =>
    refine .cons fun keyword' hkeyword => ih.last fun ts' f' hf hlike => ?_
    exact ⟨_, .funDecl ((L.kind hkeyword).trans hk) hf, .funDecl hlike⟩
  | varDecl hk _ ih =>
    refine .cons fun keyword' hkeyword => ih.imp fun hs => ?_
    exact .varDecl ((L.kind hkeyword).trans hk) hs
  | plain _ ih => exact ih.imp .plain
  | function hx _ _ ihp ihb =>
    refine .cons fun x' hname => ihp.append fun ts' xs' hp hparams =>
      ihb.last fun us' body' hb hlike => ?_
    exact ⟨_, .function ((L.kind hname).trans hx) hp hb, .mk hname hparams (.block hlike)⟩
  | methodsEnd hb =>
    exact .cons fun brace' hbrace => .nil (.methodsEnd ((L.kind hbrace).trans hb)) .nil
  | method _ _ ih ihs =>
    refine ih.append fun ts' m' hm hlike => ihs.last fun us' ms' hms hlikes => ?_
    exact ⟨_, .method hm hms, .cons hlike hlikes⟩
  | blockEnd hb => exact .cons fun brace' hbrace => .nil (.blockEnd ((L.kind hbrace).trans hb)) .nil
  | blockNext _ _ ih ihs =>
    refine ih.append fun ts' s' hs hlike => ihs.last fun us' ss' hss hlikes => ?_
    exact ⟨_, .blockNext hs hss, .cons hlike hlikes⟩
  | expr _ ih => exact ih.imp .expr
  | forLoop hk hl _ _ hs _ hr _ ihi ihc ihn ihb =>
    refine .cons fun keyword' hkeyword => .cons fun left' hleft =>
      ihi.append fun ts' initial' hi hinitial => ihc.append fun us' condition' hc hcondition =>
      .cons fun semi' hsemi => ihn.append fun vs' increment' hn hincrement =>
      .cons fun right' hright => ihb.last fun ws' body' hb hbody => ?_
    exact ⟨_, .forLoop ((L.kind hkeyword).trans hk) ((L.kind hleft).trans hl) hi hc
      ((L.kind hsemi).trans hs) hn ((L.kind hright).trans hr) hb,
      like_forLoop hinitial hcondition hincrement hbody⟩
  | ifElse hk _ _ he _ ihc ihy ihn =>
    refine .cons fun keyword' hkeyword => ihc.append fun ts' c' hc hcondition =>
      ihy.append fun us' yes' hy hyes => .cons fun other' hother =>
      ihn.last fun vs' no' hn hno => ?_
    exact ⟨_, .ifElse ((L.kind hkeyword).trans hk) hc hy ((L.kind hother).trans he) hn,
      .choice hcondition hyes hno⟩
  | ifOnly hk _ _ ihc ihy =>
    refine .cons fun keyword' hkeyword => ihc.append fun ts' c' hc hcondition =>
      ihy.last fun us' yes' hy hyes => ?_
    exact ⟨_, .ifOnly ((L.kind hkeyword).trans hk) hc hy, .choice hcondition hyes .absent⟩
  | ret hk _ ih =>
    refine .cons fun keyword' hkeyword => (ih keyword' hkeyword).imp fun hs => ?_
    exact .ret ((L.kind hkeyword).trans hk) hs
  | loop hk _ _ ihc ihb =>
    refine .cons fun keyword' hkeyword => ihc.append fun ts' c' hc hcondition =>
      ihb.last fun us' body' hb hbody => ?_
    exact ⟨_, .loop ((L.kind hkeyword).trans hk) hc hb, .loop hcondition hbody⟩
  | block hb _ ih =>
    refine .cons fun brace' hbrace => ih.last fun ts' ss' hss hlike => ?_
    exact ⟨_, .block ((L.kind hbrace).trans hb) hss, .block hlike⟩

end StmtRule

/-! ## Programs -/

/-- **Programs.** Tokens that stand for those of declarations are those of declarations that are
like them. -/
theorem Declarations.carries {ts : List Token} {ss : List Stmt} (h : Declarations ts ss) :
    Carried L Declarations (LikeStmts L) ts ss := by
  induction h with
  | nil => exact .nil .nil .nil
  | cons h _ ih =>
    refine h.carries.append fun used' s' hs hlike => ih.last fun rest' ss' hss hlikes => ?_
    exact ⟨_, .cons hs hss, .cons hlike hlikes⟩

end Dynascope
