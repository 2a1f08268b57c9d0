import Dynascope.Proofs.Number.ReadUnsigned
import Dynascope.Proofs.Token.Munch
import Dynascope.Proofs.Tree.Proper
import Dynascope.Proofs.Tree.ReadBack

/-!
# Trees are told by their texts

* `Token.Written`: what a scanner makes: operators and keywords with their lexemes, names that are
  no keywords, and constants that can be told from their texts.
* `ExprRule.Reads.legible`, `StmtRule.Reads.legible`: trees that are read from such tokens are
  legible.
* `text_unambiguous`: two statements of sources with the same text are the same tree, apart from
  positions.
-/

namespace Dynascope

/-! ## Tokens of a source -/

/-- A token such as a scanner makes. -/
structure Token.Written (t : Token) : Prop where
  sign : t.kind ∈ Kind.operators ++ Kind.keywords → t.Spelled
  name : t.kind = .identifier → t.Named
  constant : t.kind = .number ∨ t.kind = .string → ∀ v ∈ t.value, (Word.constant v).Legible

/-- The token of an operator or a keyword. -/
theorem written_sign {k : Kind} (hk : k ∈ Kind.operators ++ Kind.keywords) (p : Position) :
    (Token.mk k k.name none p).Written where
  sign _ := ⟨rfl⟩
  name h := by
    rw [show k = .identifier from h] at hk
    exact absurd hk (by decide)
  constant _ := nofun

/-- The token of a constant. -/
theorem written_constant {k : Kind} {v : Literal} (hk : k = .number ∨ k = .string)
    (hv : (Word.constant v).Legible) (w : Text) (p : Position) :
    (Token.mk k w (some v) p).Written where
  sign h := by
    have hmem : k ∈ Kind.operators ++ Kind.keywords := h
    rcases hk with rfl | rfl <;> exact absurd hmem (by decide)
  name h := by
    have hname : k = .identifier := h
    rcases hk with rfl | rfl <;> cases hname
  constant _ u hu := Option.some.inj hu ▸ hv

open Segment in
/-- A word that is no keyword is not taken for a constant. -/
theorem legible_word {w : Text} (hw : w ∈ Pattern.word.language)
    (hne : ∀ k ∈ Kind.keywords, k.name ≠ w) : (Word.plain w).Legible := by
  cases w with
  | nil => exact absurd hw (Pattern.nil_notMem _)
  | cons a w =>
    obtain ⟨ha, hrest⟩ := Pattern.mem_word.mp hw
    have hstart : isWordByte a = true := by simp [isWordByte, ha]
    refine ⟨List.cons_ne_nil _ _, ?_, ?_, fun hmem => ?_⟩
    · rw [List.all_eq_true]
      intro b hb
      refine Word.isSolid_of (p := isWordByte) (by decide) ?_
      rcases List.mem_cons.mp hb with rfl | hb
      · exact hstart
      · exact hrest b hb
    · show Text.isDigit a = false
      simp only [isWordStart, Text.isDigit, Bool.or_eq_true, Bool.and_eq_true, decide_eq_true_eq,
        UInt8.le_iff_toNat_le, ← UInt8.toNat_inj, UInt8.reduceToNat, Bool.and_eq_false_iff,
        decide_eq_false_iff_not] at ha ⊢
      omega
    · have hnames : ∀ t ∈ Word.reserved, t ∈ Kind.keywords.map Kind.name := by decide
      obtain ⟨k, hk, hkw⟩ := List.mem_map.mp (hnames _ hmem)
      exact hne k hk hkw

theorem Yields.written {p : Pattern} {w : Text} {pos : Position} {events : List Event} {t : Token}
    (h : Yields p w pos events) (hw : w ∈ p.language) (ht : .token t ∈ events) : t.Written := by
  cases h with
  | lineComment | blockComment | blank => cases ht
  | outOfRange => simp at ht
  | @string _ content =>
    obtain rfl := Event.token.inj (List.mem_singleton.mp ht)
    have hstring : (Word.constant (.string content)).Legible := trivial
    exact written_constant (.inr rfl) hstring w pos
  | keyword hk hname =>
    obtain rfl := Event.token.inj (List.mem_singleton.mp ht)
    subst hname
    exact written_sign (List.mem_append_right _ hk) pos
  | identifier hne =>
    obtain rfl := Event.token.inj (List.mem_singleton.mp ht)
    refine ⟨fun h => absurd h (by show Kind.identifier ∉ _; decide),
      fun _ => ⟨rfl, legible_word hw hne, ?_⟩, fun _ => nofun⟩
    exact List.find?_eq_none.mpr fun k hk => by simpa using hne k hk
  | @number _ _ x hread =>
    obtain rfl := Event.token.inj (List.mem_singleton.mp ht)
    have hnumber : (Word.constant (.number x)).Legible := Number.unsigned_of_read hw hread
    exact written_constant (.inl rfl) hnumber w pos
  | @operator kind =>
    obtain rfl := Event.token.inj (List.mem_singleton.mp ht)
    obtain rfl := Pattern.mem_operator.mp hw
    exact written_sign (List.mem_append_left _ kind.property) pos

theorem Scans.written {source : Text} {i : Nat} {pieces : List Text} {events : List Event}
    (h : Scans source i pieces events) {t : Token} (ht : .token t ∈ events) : t.Written := by
  induction h with
  | ended => cases ht
  | lexeme hm hnow _ ih =>
    rcases List.mem_append.mp ht with ht | ht
    · exact hnow.written hm.matched ht
    · exact ih ht
  | blunder _ _ ih =>
    rcases List.mem_cons.mp ht with ht | ht
    · cases ht
    · exact ih ht

theorem tokenize_written {source : Text} {t : Token} (h : t ∈ (tokenize source).1) :
    t.Written := by
  rcases List.mem_append.mp h with h | h
  · obtain ⟨event, hmem, hevent⟩ := List.mem_filterMap.mp h
    cases event with
    | token t' =>
      obtain rfl := Option.some.inj hevent
      exact (Segment.scans_cut source 0 (Nat.zero_le _)).written hmem
    | error e => cases hevent
  · obtain rfl := List.mem_singleton.mp h
    exact ⟨fun h => absurd h (by show Kind.endOfInput ∉ _; decide), nofun, fun _ => nofun⟩

/-! ## Trees of a source -/

/-- What the grammar asks of the target of an assignment: a name, or a property of an object. -/
def Expr.Target : Expr → Prop
  | .name x => x.Named
  | .get o x => (∃ t ∈ x, t.Named) ∧ (Part.expr o).Legible
  | _ => True

theorem signs_subset : [Kind.bang, .minus] ⊆ operationKinds := by
  decide

theorem operationKinds_subset : operationKinds ⊆ Kind.operators ++ Kind.keywords := by
  decide

namespace ExprRule

/-- The tree of a rule is legible, if what stands before it is. -/
def LegibleTree : (r : ExprRule) → r.Tree → Prop
  | chainRest _ left, e =>
    (Part.expr left).Legible ∧ left.Target → (Part.expr e).Legible ∧ e.Target
  | callRest c, e => (Part.expr c).Legible ∧ c.Target → (Part.expr e).Legible ∧ e.Target
  | arguments, es => ∀ e ∈ es, (Part.expr e).Legible
  | expression, e | chain _, e | operand _, e | unary, e | call, e | primary, e =>
    (Part.expr e).Legible ∧ e.Target

theorem Reads.legible {r : ExprRule} {ts : List Token} {e : r.Tree} (h : r.Reads ts e)
    (hts : ∀ t ∈ ts, t.Written) : r.LegibleTree e := by
  induction h with
  | value _ ih => exact ih hts
  | assign _ _ _ ihx ihv =>
    simp only [List.forall_mem_append, List.forall_mem_cons] at hts
    exact ⟨legible_assign (ihx hts.1).2 (ihv hts.2.2).1, trivial⟩
  | set _ _ _ ihx ihv =>
    simp only [List.forall_mem_append, List.forall_mem_cons] at hts
    obtain ⟨⟨_, ⟨⟩, hx⟩, ho⟩ := (ihx hts.1).2
    exact ⟨legible_set hx ho (ihv hts.2.2).1, trivial⟩
  | chain _ _ ihl ihr =>
    simp only [List.forall_mem_append] at hts
    exact ihr hts.2 (ihl hts.1)
  | stop => exact fun hl => hl
  | @link level _ _ _ _ _ _ hop _ _ ihr ihe =>
    simp only [List.forall_mem_append, List.forall_mem_cons] at hts
    intro hl
    have hsign := hts.1.sign (operationKinds_subset (level.operators_subset hop))
    refine ihe hts.2.2 ⟨Level.legible_node hop hsign hl.1 (ihr hts.2.1).1, ?_⟩
    cases level <;> trivial
  | tighter _ _ ih => exact ih hts
  | tightest _ _ ih => exact ih hts
  | signed hop _ ih =>
    simp only [List.forall_mem_cons] at hts
    have hkind := signs_subset hop
    exact ⟨legible_unary hkind (hts.1.sign (operationKinds_subset hkind)) (ih hts.2).1, trivial⟩
  | unsigned _ ih => exact ih hts
  | call _ _ ihc ihe =>
    simp only [List.forall_mem_append] at hts
    exact ihe hts.2 (ihc hts.1)
  | called => exact fun hc => hc
  | plain _ hr _ ih =>
    simp only [List.forall_mem_cons] at hts
    intro hc
    have hright := hts.2.1.sign (by rw [hr]; decide)
    exact ih hts.2.2 ⟨legible_call hr hright hc.1 (List.forall_mem_nil _), trivial⟩
  | apply _ _ hr _ iha ih =>
    simp only [List.forall_mem_append, List.forall_mem_cons] at hts
    intro hc
    have hright := hts.2.2.1.sign (by rw [hr]; decide)
    exact ih hts.2.2.2 ⟨legible_call hr hright hc.1 (iha hts.2.1), trivial⟩
  | property _ hx _ ih =>
    simp only [List.forall_mem_cons] at hts
    intro hc
    have hname := hts.2.1.name hx
    exact ih hts.2.2 ⟨legible_get hname hc.1, ⟨_, rfl, hname⟩, hc.1⟩
  | lastArgument _ ih => exact List.forall_mem_singleton.mpr (ih hts).1
  | argument _ _ _ ih ihs =>
    simp only [List.forall_mem_append, List.forall_mem_cons] at hts
    exact List.forall_mem_cons.mpr ⟨(ih hts.1).1, ihs hts.2.2⟩
  | falseWord | trueWord | nilWord => exact ⟨legible_literal trivial, trivial⟩
  | constant hk hv =>
    exact ⟨legible_literal ((hts _ List.mem_cons_self).constant hk _ hv), trivial⟩
  | superMethod hk _ hx =>
    simp only [List.forall_mem_cons] at hts
    exact ⟨legible_superMethod hk (hts.1.sign (by rw [hk]; decide)) (hts.2.2.1.name hx), trivial⟩
  | receiver hk =>
    exact ⟨legible_receiver hk ((hts _ List.mem_cons_self).sign (by rw [hk]; decide)), trivial⟩
  | name hx =>
    have hname := (hts _ List.mem_cons_self).name hx
    exact ⟨legible_name hname, hname⟩
  | group _ _ _ ih =>
    simp only [List.forall_mem_append, List.forall_mem_cons] at hts
    exact ⟨legible_group (ih hts.2.1).1, trivial⟩

end ExprRule

namespace StmtRule

/-- The tree of a rule is legible. -/
def LegibleTree : (r : StmtRule) → r.Tree → Prop
  | names, xs | parameters, xs => ∀ x ∈ xs, x.Named
  | parenthesized, e => (Part.expr e).Legible
  | expressionUnless _, value => ∀ e ∈ value, (Part.expr e).Legible
  | forInitial, initial => ∀ s ∈ initial, (Part.stmt s).Legible
  | superclassClause, superclass => ∀ x ∈ superclass, x.Named
  | function, f => (Part.stmt (.funDecl f)).Legible
  | methods, ms => ∀ m ∈ ms, (Part.stmt (.funDecl m)).Legible
  | block, ss => ∀ s ∈ ss, (Part.stmt s).Legible
  | returnStatement keyword, s =>
    keyword.kind = .kwReturn → keyword.Spelled → (Part.stmt s).Legible
  | expressionStatement, s | varDeclaration, s | declaration, s | statement, s =>
    (Part.stmt s).Legible

theorem legible_forLoop {initial : Option Stmt} {condition increment : Option Expr} {body : Stmt}
    (hi : ∀ s ∈ initial, (Part.stmt s).Legible) (hc : ∀ e ∈ condition, (Part.expr e).Legible)
    (hn : ∀ e ∈ increment, (Part.expr e).Legible) (hb : (Part.stmt body).Legible) :
    (Part.stmt (forLoop initial condition increment body)).Legible := by
  have hcondition : (Part.expr (condition.getD (.literal (.bool true)))).Legible := by
    cases condition with
    | none => exact legible_literal trivial
    | some e => exact hc e rfl
  have hstep : ∀ s ∈ increment.toList.map Stmt.expr, (Part.stmt s).Legible :=
    List.forall_mem_map.mpr fun e he => legible_expr (hn e (Option.mem_toList.mp he))
  have hloop := legible_loop hcondition (legible_block (List.forall_mem_cons.mpr ⟨hb, hstep⟩))
  refine legible_block (List.forall_mem_append.mpr ⟨fun s hs => ?_, ?_⟩)
  · exact hi s (Option.mem_toList.mp hs)
  · exact List.forall_mem_singleton.mpr hloop

theorem Reads.legible {r : StmtRule} {ts : List Token} {s : r.Tree} {dangling : Bool}
    (h : r.Reads ts s dangling) (hts : ∀ t ∈ ts, t.Written) : r.LegibleTree s := by
  induction h with
  | lastName hx => exact List.forall_mem_singleton.mpr ((hts _ List.mem_cons_self).name hx)
  | name hx _ _ ih =>
    simp only [List.forall_mem_cons] at hts
    exact List.forall_mem_cons.mpr ⟨hts.1.name hx, ih hts.2.2⟩
  | expressionStatement h _ =>
    simp only [List.forall_mem_append] at hts
    exact legible_expr (h.legible hts.1).1
  | parenthesized _ h _ =>
    simp only [List.forall_mem_append, List.forall_mem_cons] at hts
    exact (h.legible hts.2.1).1
  | omitted =>
    intro _ he
    cases he
  | given h => exact fun e he => Option.some.inj he ▸ (h.legible hts).1
  | varPlain hx _ =>
    simp only [List.forall_mem_cons] at hts
    exact legible_varDecl (hts.1.name hx) (.inl rfl)
  | varInitial hx _ h _ =>
    simp only [List.forall_mem_append, List.forall_mem_cons] at hts
    exact legible_varDecl (hts.1.name hx) (.inr (h.legible hts.2.2.1).1)
  | returnStatement _ _ ih =>
    simp only [List.forall_mem_append] at hts
    exact fun hk hs => legible_ret hk hs (ih hts.1)
  | forNothing =>
    intro _ hs
    cases hs
  | forVar _ _ ih =>
    simp only [List.forall_mem_cons] at hts
    exact fun s hs => Option.some.inj hs ▸ ih hts.2
  | forExpr _ ih => exact fun s hs => Option.some.inj hs ▸ ih hts
  | noParameters => exact List.forall_mem_nil _
  | parameters _ _ _ _ ih =>
    simp only [List.forall_mem_append, List.forall_mem_cons] at hts
    exact ih hts.2.1
  | noSuperclass =>
    intro _ hx
    cases hx
  | superclass _ hx _ =>
    simp only [List.forall_mem_cons] at hts
    exact fun y hy => Option.some.inj hy ▸ hts.2.1.name hx
  | classDecl _ hx _ _ ihs ihm =>
    simp only [List.forall_mem_append, List.forall_mem_cons] at hts
    exact legible_classDecl (hts.2.1.name hx) (ihs hts.2.2.1) (ihm hts.2.2.2)
  | funDecl _ _ ih =>
    simp only [List.forall_mem_cons] at hts
    exact ih hts.2
  | varDecl _ _ ih =>
    simp only [List.forall_mem_cons] at hts
    exact ih hts.2
  | plain _ ih => exact ih hts
  | function hx _ _ ihp ihb =>
    simp only [List.forall_mem_append, List.forall_mem_cons] at hts
    exact legible_function (hts.1.name hx) (ihp hts.2.1) (legible_block (ihb hts.2.2))
  | methodsEnd => exact List.forall_mem_nil _
  | method _ _ ih ihs =>
    simp only [List.forall_mem_append] at hts
    exact List.forall_mem_cons.mpr ⟨ih hts.1, ihs hts.2⟩
  | blockEnd => exact List.forall_mem_nil _
  | blockNext _ _ ih ihs =>
    simp only [List.forall_mem_append] at hts
    exact List.forall_mem_cons.mpr ⟨ih hts.1, ihs hts.2⟩
  | expr _ ih => exact ih hts
  | forLoop _ _ _ _ _ _ _ _ ihi ihc ihn ihb =>
    simp only [List.forall_mem_append, List.forall_mem_cons] at hts
    obtain ⟨-, -, hi, hc, -, hn, -, hb⟩ := hts
    exact legible_forLoop (ihi hi) (ihc hc) (ihn hn) (ihb hb)
  | ifElse _ _ _ _ _ ihc ihy ihn =>
    simp only [List.forall_mem_append, List.forall_mem_cons] at hts
    obtain ⟨-, hc, hy, -, hn⟩ := hts
    exact legible_choice (ihc hc) (ihy hy) (.inr (ihn hn))
  | ifOnly _ _ _ ihc ihy =>
    simp only [List.forall_mem_append, List.forall_mem_cons] at hts
    exact legible_choice (ihc hts.2.1) (ihy hts.2.2) (.inl rfl)
  | ret hk _ ih =>
    simp only [List.forall_mem_cons] at hts
    exact ih hts.2 hk (hts.1.sign (by rw [hk]; decide))
  | loop _ _ _ ihc ihb =>
    simp only [List.forall_mem_append, List.forall_mem_cons] at hts
    exact legible_loop (ihc hts.2.1) (ihb hts.2.2)
  | block _ _ ih =>
    simp only [List.forall_mem_cons] at hts
    exact legible_block (ih hts.2)

end StmtRule

/-- Every statement read from a source is legible. -/
theorem legible_of_source {source : Text} {s : Stmt}
    (hs : s ∈ (parseProgram (tokenize source).1).statements) : (Part.stmt s).Legible := by
  obtain ⟨used, dangling, hsub, hread⟩ := (programReads _).statement hs
  exact hread.legible fun t ht => tokenize_written (hsub ht)

/-! ## Texts of trees -/

/-- Statements with all their parts have a text. -/
theorem Stmt.Proper.exists_text {s : Stmt} (h : s.Proper) : ∃ t, s.text = some t := by
  obtain ⟨os, hos⟩ := Option.isSome_iff_exists.mp (s.isSome_outlines h)
  exact ⟨_, by rw [Stmt.text, Stmt.outline, hos]; rfl⟩

/-- Legible trees are told by their texts. -/
theorem unplaced_eq_of_text {s s' : Stmt} {t : Text} (h : (Part.stmt s).Legible)
    (h' : (Part.stmt s').Legible) (ht : s.text = some t) (ht' : s'.text = some t) :
    s.unplaced = s'.unplaced := by
  have hpresent : ∀ {s : Stmt}, (Part.stmt s).Legible → s ≠ .absent := by
    rintro s hs rfl
    exact absurd hs.length_pos (by decide)
  have hwords : s.words = s'.words := by
    refine spell_inj false h.words h'.words ?_
    rw [← Stmt.text_eq_spell (hpresent h) ht, ← Stmt.text_eq_spell (hpresent h') ht']
  have hread := h.read _ [] (Nat.le_refl _)
  have hread' := h'.read _ [] (Nat.le_refl _)
  rw [show (Part.stmt s).words = (Part.stmt s').words from hwords, hread'] at hread
  exact (Part.stmt.inj (congrArg Prod.fst (Option.some.inj hread))).symm

/-- **Texts of trees are unambiguous.** Every statement of a source has a text; and two statements
of sources that are written down as the same text are the same tree, apart from the positions of
their tokens. -/
theorem text_unambiguous {source source' : Text} {s s' : Stmt}
    (hs : s ∈ (parseProgram (tokenize source).1).statements)
    (hs' : s' ∈ (parseProgram (tokenize source').1).statements) :
    (∃ t, s.text = some t) ∧ (s.text = s'.text → s.unplaced = s'.unplaced) := by
  obtain ⟨t, ht⟩ := (proper_of_source hs).exists_text
  refine ⟨⟨t, ht⟩, fun hsame => ?_⟩
  exact unplaced_eq_of_text (legible_of_source hs) (legible_of_source hs') ht (hsame ▸ ht)

/-- A statement with other blanks and another numeral for the same number. -/
theorem text_unambiguous_layout :
    ∃ s ∈ (parseProgram (tokenize "a.b = -1.50 - f(\"x )\");").1).statements,
    ∃ s' ∈ (parseProgram (tokenize "a . b\n=-1.5-f (\"x )\") ;").1).statements,
      s.text = some "(expr (set b a (- (- 1.5) (call f \"x )\"))))" ∧
      s.text = s'.text ∧ s.unplaced = s'.unplaced := by
  have htexts : (parseProgram (tokenize "a.b = -1.50 - f(\"x )\");").1).statements.map
      Stmt.text = [some (Text.ofString "(expr (set b a (- (- 1.5) (call f \"x )\"))))")] := by
    decide +kernel
  have htexts' : (parseProgram (tokenize "a . b\n=-1.5-f (\"x )\") ;").1).statements.map
      Stmt.text = [some (Text.ofString "(expr (set b a (- (- 1.5) (call f \"x )\"))))")] := by
    decide +kernel
  obtain ⟨s, hprogram, htext⟩ := List.map_eq_singleton_iff.mp htexts
  obtain ⟨s', hprogram', htext'⟩ := List.map_eq_singleton_iff.mp htexts'
  have hs := hprogram ▸ List.mem_singleton_self s
  have hs' := hprogram' ▸ List.mem_singleton_self s'
  have hsame : s.text = s'.text := htext.trans htext'.symm
  exact ⟨s, hs, s', hs', htext, hsame, (text_unambiguous hs hs').2 hsame⟩

end Dynascope
