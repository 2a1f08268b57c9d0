import Dynascope.Proofs.Tree.Descent

/-!
# Progress of the descent

Every function calls functions for smaller readings only: fewer tokens are left, or as many and the
function has a smaller rank. This rests on what the functions leave when they succeed, and for
recovery on the token that it drops.

* `Onward`: some tokens were taken, none of them the end.
* `Rule.size`: the size of the reading of some tokens by a function. The tokens that are left count
  most, and for as many tokens the rank of the function.
* `Rule.read`: what a function does with some tokens; `Rule.read_leaves`: what it leaves of them.
* `Descent.Within`: actions that call functions for readings below a bound only. The rules
  (`Descent.Within.bind`, `Descent.Within.accept` and so on) follow the actions.
* `Rule.body_within`: so are the actions of every function, below the size of its own reading.
-/

namespace Dynascope

open Dynascope.Parser

variable {ts us vs : List Token}

/-! ## Going on -/

/-- Tokens were taken one after the other, none of them the end of the input. -/
def Onward (ts us : List Token) : Prop :=
  ∃ used, ts = used ++ us ∧ NoEnd used

namespace Onward

theorem refl (ts : List Token) : Onward ts ts :=
  ⟨[], rfl, .nil⟩

theorem trans (h : Onward ts us) (h' : Onward us vs) : Onward ts vs := by
  obtain ⟨used, rfl, hused⟩ := h
  obtain ⟨used', rfl, hused'⟩ := h'
  exact ⟨used ++ used', (List.append_assoc ..).symm, hused.append hused'⟩

theorem cons {t : Token} (ht : t.kind ≠ .endOfInput) (h : Onward ts us) : Onward (t :: ts) us := by
  obtain ⟨used, rfl, hused⟩ := h
  exact ⟨t :: used, rfl, List.forall_mem_cons.mpr ⟨ht, hused⟩⟩

theorem length_le (h : Onward ts us) : us.length ≤ ts.length := by
  obtain ⟨used, rfl, -⟩ := h
  rw [List.length_append]
  exact Nat.le_add_left _ _

/-- No more tokens are taken than there are before the end. -/
theorem exists_drop (h : Onward ts us) : ∃ k ≤ inputLength ts, us = ts.drop k := by
  obtain ⟨used, hts, hused⟩ := h
  obtain ⟨hdrop, hle, -⟩ := drop_of_append (Nat.zero_le (inputLength ts)) hused hts
  rw [Nat.zero_add] at hdrop hle
  exact ⟨used.length, hle, hdrop⟩

/-- The end stays where it is. -/
theorem drop_inputLength (h : Onward ts us) :
    ts.drop (inputLength ts) = us.drop (inputLength us) := by
  obtain ⟨used, rfl, hused⟩ := h
  have htake : (used ++ us).takeWhile (fun t => t.kind ≠ .endOfInput) =
      used ++ us.takeWhile fun t => t.kind ≠ .endOfInput :=
    List.takeWhile_append_of_pos fun t ht => by simpa using hused t ht
  rw [inputLength, htake, List.length_append, List.drop_append]
  simp [inputLength]

/-- As many tokens are taken as stand before the end, or fewer. -/
theorem drop {k : Nat} (hk : k ≤ inputLength ts) : Onward ts (ts.drop k) := by
  have hsplit : (ts.takeWhile fun t => t.kind ≠ .endOfInput) ++
      ts.dropWhile (fun t => t.kind ≠ .endOfInput) = ts := List.takeWhile_append_dropWhile
  have htake : ts.take k = (ts.takeWhile fun t => t.kind ≠ .endOfInput).take k := by
    conv_lhs => rw [← hsplit]
    exact List.take_append_of_le_length hk
  refine ⟨ts.take k, (List.take_append_drop k ts).symm, fun t ht => ?_⟩
  rw [htake] at ht
  simpa using List.mem_takeWhile_imp (List.mem_of_mem_take ht)

theorem skipTo (previous : Token) (ts : List Token) : Onward ts (skipTo previous ts) := by
  induction ts generalizing previous with
  | nil => exact .refl []
  | cons t ts ih =>
    rw [Dynascope.skipTo]
    split
    next => exact .refl _
    next hskip =>
      simp only [Bool.or_eq_true, decide_eq_true_eq, not_or] at hskip
      exact .cons hskip.1.1 (ih t)

theorem synchronize (ts : List Token) : Onward ts (synchronize ts) := by
  cases ts with
  | nil => exact .refl []
  | cons t ts =>
    rw [Dynascope.synchronize]
    split
    next => exact .refl _
    next ht => exact .cons ht (.skipTo t ts)

end Onward

/-! ## The size of a reading -/

/-- The rank of a function: a function that may be called before a token was taken has a smaller
one. -/
def Rule.rank : Rule → Nat
  | expr rule => rule.rank
  | stmt (.expressionUnless _) => 17
  | stmt .expressionStatement => 17
  | stmt (.returnStatement _) => 18
  | stmt .forInitial => 18
  | stmt .statement => 18
  | stmt .declaration => 19
  | stmt .block => 20
  | stmt .methods => 2
  | stmt _ => 1
  | program => 20
  | synchronize => 1
  | skip _ => 1

/-- The size of the reading of some tokens by a function. -/
def Rule.size (rule : Rule) (ts : List Token) : Nat :=
  32 * ts.length + rule.rank

namespace Rule

variable {rule rule' : Rule}

theorem rank_bounds (rule : Rule) : 0 < rule.rank ∧ rule.rank < 32 := by
  cases rule with
  | expr rule =>
    cases rule with
    | chain level => cases level <;> decide
    | operand level => cases level <;> decide
    | _ => simp [rank, ExprRule.rank]
  | stmt rule => cases rule <;> simp [rank]
  | _ => simp [rank]

/-- With a token less, every reading is smaller. -/
theorem size_lt (h : us.length < ts.length) : rule.size us < rule'.size ts := by
  have := rule.rank_bounds
  unfold size
  omega

/-- A function of a smaller rank may be called at once. -/
theorem size_lt_of_rank (h : rule.rank < rule'.rank) : rule.size ts < rule'.size ts :=
  Nat.add_lt_add_left h _

/-! ## Readings -/

/-- What a function does with some tokens. -/
def read (rule : Rule) : Parser rule.Tree :=
  fun ts => rule.reader (rule.size ts) ts

/-- Whether a function takes a token whenever it succeeds. The exceptions read what may be missing:
more operators, calls or properties, an expression that is left out, more declarations, or what
recovery drops. -/
def takes : Rule → Bool
  | expr (.chainRest ..) => false
  | expr (.callRest _) => false
  | stmt (.expressionUnless _) => false
  | program => false
  | synchronize => false
  | skip _ => false
  | _ => true

/-- What a function that succeeds leaves of some tokens. -/
structure Leaves (rule : Rule) (ts us : List Token) : Prop where
  onward : Onward ts us
  lt : rule.takes = true → us.length < ts.length

theorem Leaves.le (h : rule.Leaves ts us) : us.length ≤ ts.length :=
  h.onward.length_le

end Rule

/-- Tokens that read as a statement or a part of it are not empty, unless the part may be left
out. -/
theorem StmtRule.Reads.takes {rule : StmtRule} {s : rule.Tree} {dangling : Bool}
    (h : rule.Reads ts s dangling) (hr : (Rule.stmt rule).takes = true) : 0 < ts.length := by
  induction h with
  | omitted => cases hr
  | given => cases hr
  | forExpr h ih => exact ih rfl
  | plain h ih => exact ih rfl
  | expr h ih => exact ih rfl
  | method h hs ih _ => exact List.length_append ▸ Nat.add_pos_left (ih rfl) _
  | blockNext h hs ih _ => exact List.length_append ▸ Nat.add_pos_left (ih rfl) _
  | _ => simp

namespace Rule

variable {rule : Rule}

theorem read_leaves_of_parses {p : Parser rule.Tree}
    {P : List Token → rule.Tree → List Token → Prop} (h : Parses p [] ts P)
    (hread : rule.read ts = p ts)
    (hP : ∀ used a rest, P used a rest → rule.takes = true → 0 < used.length) :
    Ends rule.read ts (fun _ us => rule.Leaves ts us) (fun _ us => Onward ts us) := by
  unfold Ends
  rw [hread]
  refine Ends.imp h ?_ ?_
  · rintro a rest ⟨used, rfl, hused, hp⟩
    refine ⟨⟨used, rfl, hused⟩, fun ht => ?_⟩
    have hpos := hP _ a rest hp ht
    rw [List.nil_append] at hpos
    rw [List.length_append]
    omega
  · rintro e rest ⟨passed, hts, hpassed, -⟩
    exact ⟨passed, hts, hpassed⟩

theorem rank_stmt_le (rule : StmtRule) : rule.rank ≤ (Rule.stmt rule).rank := by
  cases rule <;> simp [rank, StmtRule.rank]

/-- Every function goes on among the tokens, and those that should take one when they succeed. -/
theorem read_leaves (rule : Rule) (ts : List Token) :
    Ends rule.read ts (fun _ us => rule.Leaves ts us) (fun _ us => Onward ts us) := by
  cases rule with
  | expr rule =>
    refine read_leaves_of_parses (ExprRule.parses _ rule ts (Nat.le_refl _)) rfl ?_
    intro used e _ he ht
    refine he.length_pos ?_
    cases rule <;> first | rfl | cases ht
  | stmt rule =>
    have hfuel : 32 * ts.length + rule.rank ≤ (Rule.stmt rule).size ts :=
      Nat.add_le_add_left (rank_stmt_le rule) _
    refine read_leaves_of_parses (StmtRule.parses _ rule ts hfuel) rfl ?_
    rintro used s _ ⟨dangling, hs, -⟩ ht
    exact hs.takes ht
  | program => exact ⟨.drop (Nat.le_refl _), nofun⟩
  | synchronize => exact ⟨.synchronize ts, nofun⟩
  | skip previous => exact ⟨.skipTo previous ts, nofun⟩

theorem leaves_of_ok {a : rule.Tree} (h : rule.read ts = .ok a us) : rule.Leaves ts us := by
  have hleaves := rule.read_leaves ts
  rwa [Ends, h] at hleaves

theorem onward_of_error {e : ParseError} (h : rule.read ts = .error e us) : Onward ts us := by
  have hleaves := rule.read_leaves ts
  rwa [Ends, h] at hleaves

end Rule

/-! ## Actions within a bound -/

namespace Descent

variable {α β : Type} {bound : Nat} {P : α → List Token → Prop} {Q : β → List Token → Prop}
  {kinds : List Kind} {kind : Kind} {rule : Rule}

/-- Run from some tokens, the actions call functions only for readings of a size below the bound,
take no token at the end, and `Q` holds of the result and the tokens that are left. -/
def Within (bound : Nat) (Q : α → List Token → Prop) : Descent α → List Token → Prop
  | ends a, ts => Q a ts
  | fails _, _ => True
  | looks next, ts => (next ts).Within bound Q ts
  | takes next, ts => atEnd ts = false ∧ next.Within bound Q ts.tail
  | calls rule next, ts => rule.size ts < bound ∧
    (next (answer (rule.read ts))).Within bound Q (finalState (rule.read ts))

namespace Within

theorem pure {a : β} (h : Q a ts) : (Pure.pure a : Descent β).Within bound Q ts :=
  h

theorem bind {p : Descent α} {f : α → Descent β} (h : p.Within bound P ts)
    (hf : ∀ a us, P a us → (f a).Within bound Q us) : (p >>= f).Within bound Q ts := by
  change (p.andThen f).Within bound Q ts
  induction p generalizing ts with
  | ends a => exact hf a ts h
  | fails e => trivial
  | looks next ih => exact ih ts h
  | takes next ih => exact ⟨h.1, ih h.2⟩
  | calls rule next ih => exact ⟨h.1, ih _ h.2⟩

theorem next {f : Bool → Descent β} (hf : ∀ b, (f b).Within bound Q ts) :
    (next kind >>= f).Within bound Q ts :=
  hf _

theorem done {f : Bool → Descent β} (hf : ∀ b, (f b).Within bound Q ts) :
    (done >>= f).Within bound Q ts :=
  hf _

theorem accept {f : Option Token → Descent β} (hend : .endOfInput ∉ kinds)
    (hnone : (f none).Within bound Q ts)
    (hsome : ∀ t us, us.length < ts.length → (f (some t)).Within bound Q us) :
    (accept kinds >>= f).Within bound Q ts := by
  cases ts with
  | nil => exact hnone
  | cons t us =>
    change ((if t.kind ∈ kinds then takes (ends (some t)) else ends none).andThen f).Within bound Q
      (t :: us)
    split
    next ht =>
      have hleft : atEnd (t :: us) = false :=
        Bool.eq_false_iff.mpr fun he => hend (atEnd_cons.mp he ▸ ht)
      exact ⟨hleft, hsome t us (Nat.lt_succ_self _)⟩
    next => exact hnone

theorem failHere (fault : ParseFault) : (failHere fault : Descent β).Within bound Q ts := by
  cases ts <;> trivial

theorem expect {f : Token → Descent β} (hend : kind ≠ .endOfInput)
    (hf : ∀ t us, us.length < ts.length → (f t).Within bound Q us) :
    (expect kind >>= f).Within bound Q ts := by
  refine bind (P := fun _ us => us.length < ts.length) ?_ fun t us => hf t us
  exact accept (by simpa using hend.symm) (failHere _) fun t us hus => .pure hus

/-- A function that is called last. -/
theorem last {R : rule.Tree → List Token → Prop} (hsize : rule.size ts < bound)
    (hR : ∀ a us, rule.Leaves ts us → R a us) : (Descent.descend rule).Within bound R ts := by
  refine ⟨hsize, ?_⟩
  cases hread : rule.read ts with
  | ok a us => exact hR a us (Rule.leaves_of_ok hread)
  | error e us => trivial

/-- A function that is called last, whatever it leaves. -/
theorem tail (hsize : rule.size ts < bound) :
    (Descent.descend rule).Within bound (fun _ _ => True) ts :=
  last hsize fun _ _ _ => trivial

/-- A function that is called. -/
theorem descend {f : rule.Tree → Descent β} (hsize : rule.size ts < bound)
    (hf : ∀ a us, rule.Leaves ts us → (f a).Within bound Q us) :
    (descend rule >>= f).Within bound Q ts :=
  bind (last hsize fun _ _ h => h) hf

end Within

end Descent

/-! ## Every function -/

open Descent Rule

/-- The functions for expressions call functions for smaller readings only. -/
theorem ExprRule.body_within (rule : ExprRule) (ts : List Token) :
    rule.body.Within ((Rule.expr rule).size ts) (fun _ _ => True) ts := by
  cases rule with
  | expression =>
    refine .descend (size_lt_of_rank (by decide)) fun target us hus => ?_
    refine .accept (by decide) (.pure trivial) fun equals vs hvs => ?_
    refine .descend (size_lt (Nat.lt_of_lt_of_le hvs hus.le)) fun value _ _ => ?_
    split <;> trivial
  | chain level =>
    have hrank : (expr (operand level)).rank < (expr (chain level)).rank := by
      simp only [Rule.rank, ExprRule.rank]
      omega
    refine .descend (size_lt_of_rank hrank) fun left us hus => ?_
    exact .tail (size_lt (hus.lt rfl))
  | chainRest level left =>
    refine .accept (by cases level <;> decide) (.pure trivial) fun operator us hus => ?_
    refine .descend (size_lt hus) fun right vs hvs => ?_
    exact .tail (size_lt (Nat.lt_of_le_of_lt hvs.le hus))
  | operand level =>
    cases level with
    | factor => exact .tail (size_lt_of_rank (by decide))
    | _ => exact .tail (size_lt_of_rank (by decide))
  | unary =>
    refine .accept (by decide) ?_ fun operator us hus => ?_
    · exact .tail (size_lt_of_rank (by decide))
    · exact .descend (size_lt hus) fun _ _ _ => .pure trivial
  | call =>
    refine .descend (size_lt_of_rank (by decide)) fun callee us hus => ?_
    exact .tail (size_lt (hus.lt rfl))
  | callRest callee =>
    refine .accept (by decide) (.pure trivial) fun t us hus => ?_
    dsimp only
    split
    · refine .bind (P := fun _ vs => vs.length < ts.length) (.next fun b => ?_) ?_
      · cases b with
        | true => exact .pure hus
        | false => exact .last (size_lt hus) fun _ _ h => Nat.lt_of_le_of_lt h.le hus
      · intro given vs hvs
        refine .expect (by decide) fun paren ws hws => ?_
        exact .tail (size_lt (Nat.lt_trans hws hvs))
    · refine .expect (by decide) fun name vs hvs => ?_
      exact .tail (size_lt (Nat.lt_trans hvs hus))
  | arguments =>
    refine .descend (size_lt_of_rank (by decide)) fun argument us hus => ?_
    refine .accept (by decide) (.pure trivial) fun comma vs hvs => ?_
    exact .descend (size_lt (Nat.lt_of_lt_of_le hvs hus.le)) fun _ _ _ => .pure trivial
  | primary =>
    refine .accept (by decide) (.failHere _) fun t us hus => ?_
    dsimp only
    split
    next => trivial
    next => trivial
    next => trivial
    next => exact .expect (by decide) fun _ _ _ => .expect (by decide) fun _ _ _ => .pure trivial
    next => trivial
    next => trivial
    next =>
      exact .descend (size_lt hus) fun _ _ _ => .expect (by decide) fun _ _ _ => .pure trivial
    next => split <;> trivial

/-- The functions for statements call functions for smaller readings only. -/
theorem StmtRule.body_within (rule : StmtRule) (ts : List Token) :
    rule.body.Within ((Rule.stmt rule).size ts) (fun _ _ => True) ts := by
  cases rule with
  | names =>
    refine .expect (by decide) fun name us hus => ?_
    refine .accept (by decide) (.pure trivial) fun comma vs hvs => ?_
    exact .descend (size_lt (Nat.lt_trans hvs hus)) fun _ _ _ => .pure trivial
  | expressionStatement =>
    exact .descend (size_lt_of_rank (by decide)) fun _ _ _ =>
      .expect (by decide) fun _ _ _ => .pure trivial
  | parenthesized =>
    refine .expect (by decide) fun left us hus => ?_
    exact .descend (size_lt hus) fun _ _ _ => .expect (by decide) fun _ _ _ => .pure trivial
  | expressionUnless kind =>
    refine .next fun b => ?_
    cases b with
    | true => exact .pure trivial
    | false =>
      exact .descend (size_lt_of_rank (by simp [Rule.rank, ExprRule.rank])) fun _ _ _ =>
        .pure trivial
  | varDeclaration =>
    refine .expect (by decide) fun name us hus => ?_
    refine .accept (by decide) ?_ fun equals vs hvs => ?_
    · exact .expect (by decide) fun _ _ _ => .pure trivial
    · exact .descend (size_lt (Nat.lt_trans hvs hus)) fun _ _ _ =>
        .expect (by decide) fun _ _ _ => .pure trivial
  | returnStatement keyword =>
    exact .descend (size_lt_of_rank (by simp [Rule.rank])) fun _ _ _ =>
      .expect (by decide) fun _ _ _ => .pure trivial
  | forInitial =>
    refine .accept (by decide) ?_ fun t us hus => ?_
    · exact .descend (size_lt_of_rank (by decide)) fun _ _ _ => .pure trivial
    · dsimp only
      split
      · trivial
      · exact .descend (size_lt hus) fun _ _ _ => .pure trivial
  | parameters =>
    refine .expect (by decide) fun left us hus => ?_
    refine .bind (P := fun _ _ => True) (.next fun b => ?_) fun _ _ _ =>
      .expect (by decide) fun _ _ _ => .expect (by decide) fun _ _ _ => .pure trivial
    cases b with
    | true => exact .pure trivial
    | false => exact .tail (size_lt hus)
  | superclassClause =>
    refine .bind (P := fun _ _ => True) (.accept (by decide) (.pure trivial) ?_) fun _ _ _ =>
      .expect (by decide) fun _ _ _ => .pure trivial
    exact fun _ _ _ => .expect (by decide) fun _ _ _ => .pure trivial
  | declaration =>
    refine .accept (by decide) (.tail (size_lt_of_rank (by decide))) fun t us hus => ?_
    dsimp only
    split
    next =>
      refine .expect (by decide) fun name vs hvs => ?_
      have hlt := Nat.lt_trans hvs hus
      refine .descend (size_lt hlt) fun superclass ws hws => ?_
      exact .descend (size_lt (Nat.lt_of_le_of_lt hws.le hlt)) fun _ _ _ => .pure trivial
    next => exact .descend (size_lt hus) fun _ _ _ => .pure trivial
    next => exact .tail (size_lt hus)
  | function =>
    refine .expect (by decide) fun name us hus => ?_
    refine .descend (size_lt hus) fun params vs hvs => ?_
    exact .descend (size_lt (Nat.lt_of_le_of_lt hvs.le hus)) fun _ _ _ => .pure trivial
  | methods =>
    refine .next fun _ => .done fun _ => ?_
    split
    · exact .expect (by decide) fun _ _ _ => .pure trivial
    · refine .descend (size_lt_of_rank (by decide)) fun method us hus => ?_
      exact .descend (size_lt (hus.lt rfl)) fun _ _ _ => .pure trivial
  | block =>
    refine .next fun _ => .done fun _ => ?_
    split
    · exact .expect (by decide) fun _ _ _ => .pure trivial
    · refine .descend (size_lt_of_rank (by decide)) fun first us hus => ?_
      exact .descend (size_lt (hus.lt rfl)) fun _ _ _ => .pure trivial
  | statement =>
    refine .accept (by decide) (.tail (size_lt_of_rank (by decide))) fun t us hus => ?_
    dsimp only
    split
    next =>
      refine .expect (by decide) fun left us₁ h₁ => ?_
      have hlt₁ := Nat.lt_trans h₁ hus
      refine .descend (size_lt hlt₁) fun initial us₂ h₂ => ?_
      have hlt₂ := Nat.lt_of_le_of_lt h₂.le hlt₁
      refine .descend (size_lt hlt₂) fun condition us₃ h₃ => ?_
      have hlt₃ := Nat.lt_of_le_of_lt h₃.le hlt₂
      refine .expect (by decide) fun semi us₄ h₄ => ?_
      have hlt₄ := Nat.lt_trans h₄ hlt₃
      refine .descend (size_lt hlt₄) fun increment us₅ h₅ => ?_
      have hlt₅ := Nat.lt_of_le_of_lt h₅.le hlt₄
      refine .expect (by decide) fun right us₆ h₆ => ?_
      exact .descend (size_lt (Nat.lt_trans h₆ hlt₅)) fun _ _ _ => .pure trivial
    next =>
      refine .descend (size_lt hus) fun condition us₁ h₁ => ?_
      have hlt₁ := Nat.lt_of_le_of_lt h₁.le hus
      refine .descend (size_lt hlt₁) fun yes us₂ h₂ => ?_
      have hlt₂ := Nat.lt_of_le_of_lt h₂.le hlt₁
      refine .accept (by decide) (.pure trivial) fun other us₃ h₃ => ?_
      exact .descend (size_lt (Nat.lt_trans h₃ hlt₂)) fun _ _ _ => .pure trivial
    next => exact .tail (size_lt hus)
    next =>
      refine .descend (size_lt hus) fun condition vs hvs => ?_
      exact .descend (size_lt (Nat.lt_of_le_of_lt hvs.le hus)) fun _ _ _ => .pure trivial
    next => exact .descend (size_lt hus) fun _ _ _ => .pure trivial

/-- A failure with its recovery takes at least one token. -/
theorem Onward.length_synchronize_lt (h : Onward ts us) (hleft : atEnd ts = false) :
    (Dynascope.synchronize us).length < ts.length := by
  obtain ⟨used, rfl, -⟩ := h
  exact length_recover_lt hleft

/-- The loop over the declarations of a program. -/
theorem program_within (ts : List Token) :
    program.body.Within (program.size ts) (fun _ _ => True) ts := by
  change (if atEnd ts then _ else _ : Descent Parsed).Within _ _ ts
  split
  next => trivial
  next hend =>
    refine ⟨size_lt_of_rank (by decide), ?_⟩
    cases hread : (Rule.stmt .declaration).read ts with
    | ok s us =>
      exact .descend (size_lt ((leaves_of_ok hread).lt rfl)) fun _ _ _ => .pure trivial
    | error e us =>
      have honward := onward_of_error hread
      have hlt := honward.length_synchronize_lt (Bool.eq_false_iff.mpr hend)
      have hle := honward.length_le
      have hsize : Rule.synchronize.size us < program.size ts := by
        simp only [Rule.size, Rule.rank]
        omega
      have hlater : (Descent.descend program >>= fun later : Parsed =>
          (pure ⟨later.statements, e :: later.errors⟩ : Descent Parsed)).Within (program.size ts)
            (fun _ _ => True) (Dynascope.synchronize us) :=
        .descend (size_lt hlt) fun _ _ _ => .pure trivial
      exact ⟨hsize, hlater⟩

/-- What recovery does with a token that is not the end: it drops it and goes on. -/
theorem within_drop {bound : Nat} {t : Token} (ht : t.kind ≠ .endOfInput)
    (hbound : 32 * (us.length + 1) < bound) :
    (takes (descend (skip t))).Within bound (fun _ _ => True) (t :: us) := by
  refine ⟨Bool.eq_false_iff.mpr fun he => ht (atEnd_cons.mp he), .tail ?_⟩
  simp only [Rule.size, Rule.rank, List.tail_cons]
  omega

/-- All functions call functions for smaller readings only. -/
theorem Rule.body_within (rule : Rule) (ts : List Token) :
    rule.body.Within (rule.size ts) (fun _ _ => True) ts := by
  cases rule with
  | expr rule => exact rule.body_within ts
  | stmt rule => exact rule.body_within ts
  | program => exact program_within ts
  | synchronize =>
    cases ts with
    | nil => trivial
    | cons t us =>
      change (if t.kind = .endOfInput then _ else _ : Descent Unit).Within _ _ (t :: us)
      split
      next => trivial
      next ht => exact within_drop ht (Nat.lt_succ_self _)
  | skip previous =>
    cases ts with
    | nil => trivial
    | cons t us =>
      change (if t.kind = .endOfInput || previous.kind = .semicolon || t.kind ∈ starters then _
        else _ : Descent Unit).Within _ _ (t :: us)
      split
      next => trivial
      next ht =>
        simp only [Bool.or_eq_true, decide_eq_true_eq, not_or] at ht
        exact within_drop ht.1.1 (Nat.lt_succ_self _)

end Dynascope
