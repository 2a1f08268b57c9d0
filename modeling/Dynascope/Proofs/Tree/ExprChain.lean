import Dynascope.Proofs.Tree.ExprRule

/-!
# Chains and precedence

* `ExprRule.Reads.continues`: the rest of a chain, or of the calls after a callee, may be read in
  two parts.
* `ExprRule.ReadsAt k ts e`: the rules for expressions by precedence, from `0` for assignments over
  the binary operators and the signs to `9` for primary expressions.
* `ExprRule.ReadsAt.loosen`: what reads at a precedence reads at all looser ones.
-/

namespace Dynascope

namespace ExprRule

/-- What was read by a rule for the rest of an expression can be continued. -/
def Continues : (r : ExprRule) → List Token → r.Tree → Prop
  | chainRest level left, ts, e => ∀ us e', (chainRest level e).Reads us e' →
    (chainRest level left).Reads (ts ++ us) e'
  | callRest c, ts, e => ∀ us e', (callRest e).Reads us e' → (callRest c).Reads (ts ++ us) e'
  | _, _, _ => True

theorem Reads.continues {r : ExprRule} {ts : List Token} {e : r.Tree} (h : r.Reads ts e) :
    r.Continues ts e := by
  induction h with
  | stop => exact fun us e' he => he
  | link hop hr _ _ ih =>
    intro us e' he
    simpa using .link hop hr (ih us e' he)
  | called => exact fun us e' he => he
  | plain hl hr _ ih => exact fun us e' he => .plain hl hr (ih us e' he)
  | apply hl ha hr _ _ ih =>
    intro us e' he
    simpa using .apply hl ha hr (ih us e' he)
  | property hd hx _ ih => exact fun us e' he => .property hd hx (ih us e' he)
  | _ => trivial

/-- One more operation at the end of a chain. -/
theorem Reads.snoc {level : Level} {ts us : List Token} {left right : Expr} {op : Token}
    (h : (ExprRule.chain level).Reads ts left) (hop : op.kind ∈ level.operators)
    (hr : (operand level).Reads us right) :
    (ExprRule.chain level).Reads (ts ++ op :: us) (level.node left op right) := by
  cases h with
  | @chain _ ts ts' first _ hfirst hrest =>
    have hlink : (chainRest level left).Reads (op :: (us ++ [])) (level.node left op right) :=
      .link hop hr .stop
    rw [List.append_nil] at hlink
    rw [List.append_assoc]
    exact .chain hfirst (hrest.continues _ _ hlink)

/-- A call with more calls and properties after it. -/
theorem Reads.call_append {ts us : List Token} {c e : Expr} (h : ExprRule.call.Reads ts c)
    (he : (callRest c).Reads us e) : ExprRule.call.Reads (ts ++ us) e := by
  cases h with
  | call hp hrest =>
    rw [List.append_assoc]
    exact .call hp (hrest.continues _ _ he)

end ExprRule

/-- The precedence of an operation of a level. -/
def Level.precedence : Level → Nat
  | or => 1
  | and => 2
  | equality => 3
  | comparison => 4
  | term => 5
  | factor => 6

namespace ExprRule

/-- The tokens read as an expression of a precedence. -/
def ReadsAt : Nat → List Token → Expr → Prop
  | 0 => expression.Reads
  | 1 => (chain .or).Reads
  | 2 => (chain .and).Reads
  | 3 => (chain .equality).Reads
  | 4 => (chain .comparison).Reads
  | 5 => (chain .term).Reads
  | 6 => (chain .factor).Reads
  | 7 => unary.Reads
  | 8 => call.Reads
  | 9 => primary.Reads
  | _ => fun _ _ => False

variable {level : Level} {ts : List Token} {e : Expr}

theorem readsAt_level : ReadsAt level.precedence ts e ↔ (chain level).Reads ts e := by
  cases level <;> exact Iff.rfl

/-- An operand of a level is read at the next tighter precedence. -/
theorem readsAt_operand (level : Level) {ts : List Token} {e : Expr} :
    ReadsAt (level.precedence + 1) ts e ↔ (operand level).Reads ts e := by
  constructor
  · intro h
    cases level with
    | factor => exact .tightest rfl h
    | _ => exact .tighter rfl h
  · intro h
    cases h with
    | tighter hl h => cases level <;> cases hl <;> exact h
    | tightest hl h =>
      cases level <;> cases hl
      exact h

theorem chain_of_operand (h : (operand level).Reads ts e) : (chain level).Reads ts e := by
  have hchain := Reads.chain h .stop
  rwa [List.append_nil] at hchain

theorem ReadsAt.loosen_one {k : Nat} (h : ReadsAt (k + 1) ts e) : ReadsAt k ts e := by
  match k, h with
  | 0, h => exact .value h
  | 1, h => exact chain_of_operand ((readsAt_operand .or).mp h)
  | 2, h => exact chain_of_operand ((readsAt_operand .and).mp h)
  | 3, h => exact chain_of_operand ((readsAt_operand .equality).mp h)
  | 4, h => exact chain_of_operand ((readsAt_operand .comparison).mp h)
  | 5, h => exact chain_of_operand ((readsAt_operand .term).mp h)
  | 6, h => exact chain_of_operand ((readsAt_operand .factor).mp h)
  | 7, h => exact .unsigned h
  | 8, h =>
    have hcall := Reads.call h .called
    rwa [List.append_nil] at hcall
  | _ + 9, h => exact h.elim

/-- What reads at a precedence reads at all looser ones. -/
theorem ReadsAt.loosen {j k : Nat} (h : ReadsAt k ts e) (hjk : j ≤ k) : ReadsAt j ts e := by
  induction hjk with
  | refl => exact h
  | step _ ih => exact ih h.loosen_one

end ExprRule

end Dynascope
