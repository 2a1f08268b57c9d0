import Dynascope.Proofs.Token.Scanned
import Dynascope.Proofs.Token.Seam
import Dynascope.Proofs.Tree.LikeReads

/-!
# Two programs in one source

Two sources that are read without errors make up one source, with a newline between them. It is read
as the statements of the first source and then those of the second, further down.

* `ExprRule.Reads.slashesDivide`, `StmtRule.Reads.slashesDivide`: in tokens that the parser reads,
  every slash is followed by an operand, so no source that is read opens a comment without closing
  it.
* `Accepted source program`: the source is read as the program, without errors.
* `Accepted.append_newline`: two such sources, one after the other.
-/

namespace Dynascope

/-! ## Slashes of a program -/

/-- No operand starts with a star. -/
theorem ExprRule.star_notMem_starters : Kind.star ∉ starters := by decide

theorem ExprRule.Reads.slashesDivide {r : ExprRule} {ts : List Token} {e : r.Tree}
    (h : r.Reads ts e) : SlashesDivide ts := by
  induction h with
  | value _ ih => exact ih
  | assign _ heq _ ihx ihv => exact ihx.append (.cons heq ihv)
  | set _ heq _ ihx ihv => exact ihx.append (.cons heq ihv)
  | chain _ _ ihl ihr => exact ihl.append ihr
  | stop => exact .nil
  | link _ hr _ ihr ihe =>
    -- The only place for a slash: the operand after it has a first token.
    obtain ⟨t, rest, rfl, ht⟩ := hr.first rfl
    have hstar : t.kind ≠ .star := fun hstar => star_notMem_starters (hstar ▸ ht)
    exact ⟨fun _ => ⟨t, rfl, hstar⟩, ihr.append ihe⟩
  | tighter _ _ ih => exact ih
  | tightest _ _ ih => exact ih
  | signed hop _ ih =>
    simp only [List.mem_cons, List.not_mem_nil, or_false] at hop
    rcases hop with hop | hop
    · exact .cons hop ih
    · exact .cons hop ih
  | unsigned _ ih => exact ih
  | call _ _ ihc ihe => exact ihc.append ihe
  | called => exact .nil
  | plain hl hr _ ihe => exact .cons hl (.cons hr ihe)
  | apply hl _ hr _ iha ihe => exact .cons hl (iha.append (.cons hr ihe))
  | property hd hx _ ihe => exact .cons hd (.cons hx ihe)
  | lastArgument _ ih => exact ih
  | argument _ hc _ ih ihs => exact ih.append (.cons hc ihs)
  | falseWord hk => exact .cons hk .nil
  | trueWord hk => exact .cons hk .nil
  | nilWord hk => exact .cons hk .nil
  | constant hk _ =>
    rcases hk with hk | hk
    · exact .cons hk .nil
    · exact .cons hk .nil
  | superMethod hk hd hx => exact .cons hk (.cons hd (.cons hx .nil))
  | receiver hk => exact .cons hk .nil
  | name hx => exact .cons hx .nil
  | group hl _ hr ih => exact .cons hl (ih.append (.cons hr .nil))

theorem StmtRule.Reads.slashesDivide {r : StmtRule} {ts : List Token} {s : r.Tree}
    {dangling : Bool} (h : r.Reads ts s dangling) : SlashesDivide ts := by
  induction h with
  | lastName hx => exact .cons hx .nil
  | name hx hc _ ih => exact .cons hx (.cons hc ih)
  | expressionStatement h hs => exact h.slashesDivide.append (.cons hs .nil)
  | parenthesized hl h hr => exact .cons hl (h.slashesDivide.append (.cons hr .nil))
  | omitted => exact .nil
  | given h => exact h.slashesDivide
  | varPlain hx hs => exact .cons hx (.cons hs .nil)
  | varInitial hx heq h hs =>
    exact .cons hx (.cons heq (h.slashesDivide.append (.cons hs .nil)))
  | returnStatement _ hs ih => exact ih.append (.cons hs .nil)
  | forNothing hs => exact .cons hs .nil
  | forVar hk _ ih => exact .cons hk ih
  | forExpr _ ih => exact ih
  | noParameters hl hr hb => exact .cons hl (.cons hr (.cons hb .nil))
  | parameters hl _ hr hb ih => exact .cons hl (ih.append (.cons hr (.cons hb .nil)))
  | noSuperclass hb => exact .cons hb .nil
  | superclass hl hx hb => exact .cons hl (.cons hx (.cons hb .nil))
  | classDecl hk hx _ _ ihs ihm => exact .cons hk (.cons hx (ihs.append ihm))
  | funDecl hk _ ih => exact .cons hk ih
  | varDecl hk _ ih => exact .cons hk ih
  | plain _ ih => exact ih
  | function hx _ _ ihp ihb => exact .cons hx (ihp.append ihb)
  | methodsEnd hb => exact .cons hb .nil
  | method _ _ ih ihs => exact ih.append ihs
  | blockEnd hb => exact .cons hb .nil
  | blockNext _ _ ih ihs => exact ih.append ihs
  | expr _ ih => exact ih
  | forLoop hk hl _ _ hs _ hr _ ihi ihc ihn ihb =>
    exact .cons hk (.cons hl (ihi.append (ihc.append (.cons hs (ihn.append (.cons hr ihb))))))
  | ifElse hk _ _ he _ ihc ihy ihn => exact .cons hk (ihc.append (ihy.append (.cons he ihn)))
  | ifOnly hk _ _ ihc ihy => exact .cons hk (ihc.append ihy)
  | ret hk _ ih => exact .cons hk ih
  | loop hk _ _ ihc ihb => exact .cons hk (ihc.append ihb)
  | block hb _ ih => exact .cons hb ih

namespace Declarations

variable {ts us : List Token} {ss ss' : List Stmt}

theorem slashesDivide (h : Declarations ts ss) : SlashesDivide ts := by
  induction h with
  | nil => exact .nil
  | cons h _ ih => exact h.slashesDivide.append ih

theorem append (h : Declarations ts ss) (k : Declarations us ss') :
    Declarations (ts ++ us) (ss ++ ss') := by
  induction h with
  | nil => exact k
  | @cons used rest s ss dangling h _ ih =>
    rw [List.append_assoc]
    exact .cons h ih

end Declarations

/-! ## Sources that are read without errors -/

/-- The source is scanned and parsed without errors, and the program is what was read. -/
structure Accepted (source : Text) (program : List Stmt) : Prop where
  scanned : (tokenize source).2 = none
  parsed : parseProgram (tokenize source).1 = ⟨program, []⟩

namespace Accepted

variable {source source' : Text} {program program' : List Stmt}

theorem of_isEmpty (hscanned : (tokenize source).2 = none)
    (hparsed : (parseProgram (tokenize source).1).errors.isEmpty = true) :
    Accepted source (parseProgram (tokenize source).1).statements :=
  ⟨hscanned, by rw [← List.isEmpty_iff.mp hparsed]⟩

theorem unique (h : Accepted source program) (h' : Accepted source program') :
    program = program' := by
  have heq := h.parsed.symm.trans h'.parsed
  injection heq

theorem errors_eq_nil (h : Accepted source program) : Event.errors (scan source) = [] :=
  List.head?_eq_none_iff.mp h.scanned

/-- The tokens before the end are those of the statements. -/
theorem declarations (h : Accepted source program) :
    Declarations (Event.tokens (scan source)) program := by
  have hread := programReads (tokenize source).1
  rw [h.parsed] at hread
  obtain ⟨used, rest, heq, hused, hend, hdecl⟩ := hread.declarations rfl
  have hall : used = Event.tokens (scan source) :=
    eq_of_noEnd (fun t ht => scan_kind ht) hused rfl hend heq
  rwa [← hall]

/-- **Two sources in one.** The statements of the first source are read as they are, and those of
the second with tokens that stand further down. -/
theorem append_newline (h : Accepted source program) (h' : Accepted source' program')
    {L : Likeness} (hdown : ∀ t ∈ Event.tokens (scan source'),
      L.Same t (t.down (source.count Text.newline + 1))) :
    ∃ program'', Accepted (source ++ Text.newline :: source') (program ++ program'') ∧
      LikeStmts L program' program'' := by
  have hsame : L.SameAll (Event.tokens (scan source'))
      ((Event.tokens (scan source')).map (Token.down (source.count Text.newline + 1))) :=
    List.forall₂_map_right_iff.mpr (List.forall₂_same.mpr hdown)
  obtain ⟨program'', hdecl, hlike⟩ := h'.declarations.carries _ hsame
  refine ⟨program'', ?_, hlike⟩
  have htokens : tokenize (source ++ Text.newline :: source') =
      (Event.tokens (scan source) ++
        (Event.tokens (scan source')).map (Token.down (source.count Text.newline + 1)) ++
        [(endToken source').down (source.count Text.newline + 1)], none) := by
    rw [tokenize_append_newline h.errors_eq_nil h.declarations.slashesDivide, h'.scanned, tokenize]
    simp only [List.map_append, List.map_cons, List.map_nil, List.append_assoc, Option.map_none]
  refine ⟨by rw [htokens], ?_⟩
  rw [htokens]
  exact (h.declarations.append hdecl).parse rfl

end Accepted

end Dynascope
