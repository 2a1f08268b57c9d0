import Dynascope.Proofs.Outcome
import Dynascope.Tree.Grammar

/-!
# What a reader of tokens does

A reader takes tokens from the front and never the token for the end of the input. If it fails, it
does so for a cause that can be seen in the tokens.

* `Cause e passed rest`: the causes of failure after the tokens `passed`, before `rest`.
* `Parses p before ts P`: after the tokens `before`, the reader `p` takes some of the tokens `ts`
  and gives a result; `P` holds of all tokens taken, the result and the tokens left. Or `p` fails
  for a cause.
* `Parses.bind`, `Parses.accept`, `Parses.expect` and so on: the rules that follow a reader's code.
* `bind_ok`, `accept_some`, `accept_none`, `expect_ok`: readers that succeed, run on tokens.
-/

namespace Dynascope

/-- No token for the end of the input is among the tokens. -/
def NoEnd (ts : List Token) : Prop :=
  ∀ t ∈ ts, t.kind ≠ .endOfInput

theorem NoEnd.nil : NoEnd [] := fun _ h => nomatch h

theorem NoEnd.append {ts us : List Token} (h : NoEnd ts) (k : NoEnd us) : NoEnd (ts ++ us) :=
  fun t ht => (List.mem_append.mp ht).elim (h t) (k t)

/-- Why a reader fails that has passed some tokens and stands before others. -/
inductive Cause : ParseError → (passed rest : List Token) → Prop where
  /-- The next token does not start an expression. -/
  | unexpected {t : Token} {passed rest : List Token} :
    Cause ⟨.unexpectedToken, some t⟩ passed (t :: rest)
  /-- The next token is not of the kind that has to stand there. -/
  | expected {t : Token} {kind : Kind} {passed rest : List Token} (h : t.kind ≠ kind) :
    Cause ⟨.expected kind, some t⟩ passed (t :: rest)
  /-- No token is left. -/
  | ended {passed : List Token} : Cause ⟨.noToken, none⟩ passed []
  /-- A number or string token that was passed has no value. -/
  | noValue {t : Token} {passed rest : List Token} (h : t ∈ passed)
      (hk : t.kind = .number ∨ t.kind = .string) (hv : t.value = none) :
    Cause ⟨.literalWithoutValue, some t⟩ passed rest
  /-- The equals sign of an assignment without a proper target was passed. -/
  | target {t : Token} {passed rest : List Token} (h : t ∈ passed) (hk : t.kind = .equal) :
    Cause ⟨.invalidTarget, some t⟩ passed rest

theorem Cause.after {e : ParseError} {passed rest : List Token} (h : Cause e passed rest)
    (before : List Token) : Cause e (before ++ passed) rest := by
  cases h with
  | unexpected => exact .unexpected
  | expected h => exact .expected h
  | ended => exact .ended
  | noValue h hk hv => exact .noValue (List.mem_append_right _ h) hk hv
  | target h hk => exact .target (List.mem_append_right _ h) hk

/-- After `before`, the reader takes some of the tokens `ts`, and `P` holds of all that was taken,
the result and what is left; or it fails for a cause. -/
def Parses {α : Type} (p : Parser α) (before ts : List Token)
    (P : List Token → α → List Token → Prop) : Prop :=
  Ends p ts
    (fun a rest => ∃ used, ts = used ++ rest ∧ NoEnd used ∧ P (before ++ used) a rest)
    (fun e rest => ∃ passed, ts = passed ++ rest ∧ NoEnd passed ∧ Cause e (before ++ passed) rest)

namespace Parses

variable {α β : Type} {p : Parser α} {before ts : List Token}
  {P : List Token → α → List Token → Prop} {Q : List Token → β → List Token → Prop}

theorem pure {a : α} (h : P before a ts) : Parses (Pure.pure a) before ts P :=
  ⟨[], rfl, NoEnd.nil, by rwa [List.append_nil]⟩

theorem throw {e : ParseError} (h : Cause e before ts) : Parses (MonadExcept.throw e) before ts P :=
  ⟨[], rfl, NoEnd.nil, by rwa [List.append_nil]⟩

/-- A reader that is used after some tokens were taken. -/
theorem last {R : List Token → α → List Token → Prop} (h : Parses p [] ts P)
    (hPR : ∀ used a rest, P used a rest → R (before ++ used) a rest) : Parses p before ts R := by
  refine Ends.imp h ?_ ?_
  · rintro a rest ⟨used, hts, hne, hp⟩
    exact ⟨used, hts, hne, hPR used a rest hp⟩
  · rintro e rest ⟨passed, hts, hne, hc⟩
    exact ⟨passed, hts, hne, hc.after before⟩

/-- A reader followed by another one. -/
theorem bind {f : α → Parser β} (h : Parses p [] ts P)
    (hf : ∀ a used rest, ts = used ++ rest → P used a rest →
      Parses (f a) (before ++ used) rest Q) :
    Parses (p >>= f) before ts Q := by
  have hfirst : Ends p ts (fun a rest => ∃ used, ts = used ++ rest ∧ NoEnd used ∧ P used a rest)
      (fun e rest => ∃ passed, ts = passed ++ rest ∧ NoEnd passed ∧
        Cause e (before ++ passed) rest) := by
    refine Ends.imp h (fun _ _ hp => hp) ?_
    rintro e rest ⟨passed, hts, hne, hc⟩
    exact ⟨passed, hts, hne, hc.after before⟩
  refine Ends.bind hfirst ?_
  rintro a rest ⟨used, hts, hne, hp⟩
  refine Ends.imp (hf a used rest hts hp) ?_ ?_
  · rintro b rest' ⟨used', hrest, hne', hq⟩
    refine ⟨used ++ used', ?_, hne.append hne', ?_⟩
    · rw [hts, hrest, List.append_assoc]
    · rwa [← List.append_assoc]
  · rintro e rest' ⟨passed, hrest, hne', hc⟩
    refine ⟨used ++ passed, ?_, hne.append hne', ?_⟩
    · rw [hts, hrest, List.append_assoc]
    · rwa [← List.append_assoc]

end Parses

/-! ## Readers of one token -/

namespace Parser

variable {α β : Type} {kinds : List Kind} {kind : Kind} {t : Token} {ts rest : List Token}

theorem bind_ok {p : Parser α} {f : α → Parser β} {a : α} (h : p ts = .ok a rest) :
    (p >>= f) ts = f a rest := by
  simp only [bind, EStateM.bind, h]

theorem accept_cons : accept kinds (t :: rest) =
    if t.kind ∈ kinds then .ok (some t) rest else .ok none (t :: rest) := by
  show (if t.kind ∈ kinds then (do set rest; return some t : Parser (Option Token))
    else return none) (t :: rest) = _
  split <;> rfl

theorem accept_some (h : t.kind ∈ kinds) : accept kinds (t :: rest) = .ok (some t) rest := by
  rw [accept_cons, if_pos h]

/-- The next token, if there is one, is of none of the kinds. -/
def Stops (kinds : List Kind) (ts : List Token) : Prop :=
  ∀ t, ts.head? = some t → t.kind ∉ kinds

namespace Stops

theorem cons (h : t.kind ∉ kinds) : Stops kinds (t :: ts) := by
  intro u hu
  obtain rfl := Option.some.inj hu
  exact h

theorem mono {kinds' : List Kind} (h : Stops kinds ts) (hk : kinds' ⊆ kinds) : Stops kinds' ts :=
  fun t ht hmem => h t ht (hk hmem)

end Stops

theorem atEnd_cons : atEnd (t :: ts) = true ↔ t.kind = .endOfInput := by
  simp [atEnd]

theorem stops_of_atEnd (h : atEnd ts = true) (hend : .endOfInput ∉ kinds) : Stops kinds ts := by
  cases ts with
  | nil => exact fun _ h => nomatch h
  | cons t ts =>
    have ht : t.kind = .endOfInput := atEnd_cons.mp h
    exact .cons (by rwa [ht])

theorem accept_none (h : Stops kinds ts) : accept kinds ts = .ok none ts := by
  cases ts with
  | nil => rfl
  | cons t rest =>
    have ht : t.kind ∉ kinds := h t rfl
    rw [accept_cons, if_neg ht]

theorem expect_ok (h : t.kind = kind) : expect kind (t :: rest) = .ok t rest := by
  have ha : accept [kind] (t :: rest) = .ok (some t) rest := accept_some (by simp [h])
  unfold expect
  rw [bind_ok ha]
  rfl

theorem next_eq (kind : Kind) (ts : List Token) :
    next kind ts = .ok (ts.head?.any fun t => t.kind = kind) ts := rfl

/-- The token at the front is of a kind that is not asked for. -/
theorem next_false (h : t.kind ≠ kind) : next kind (t :: ts) = .ok false (t :: ts) := by
  rw [next_eq]
  simp [h]

theorem next_true (h : t.kind = kind) : next kind (t :: ts) = .ok true (t :: ts) := by
  rw [next_eq]
  simp [h]

theorem done_eq (ts : List Token) : done ts = .ok (atEnd ts) ts := rfl

end Parser

namespace Parses

open Dynascope.Parser

variable {α β : Type} {kinds : List Kind} {kind : Kind} {before ts : List Token}
  {Q : List Token → β → List Token → Prop}

/-- A token is taken if its kind is among some kinds. -/
theorem accept {f : Option Token → Parser β} (hend : .endOfInput ∉ kinds)
    (hnone : Stops kinds ts → Parses (f none) before ts Q)
    (hsome : ∀ t rest, ts = t :: rest → t.kind ∈ kinds →
      Parses (f (some t)) (before ++ [t]) rest Q) :
    Parses (Parser.accept kinds >>= f) before ts Q := by
  have h : Parses (Parser.accept kinds) [] ts fun used taken rest =>
      (used = [] ∧ taken = none ∧ Stops kinds rest) ∨
        ∃ t, used = [t] ∧ taken = some t ∧ t.kind ∈ kinds := by
    cases ts with
    | nil => exact ⟨[], rfl, NoEnd.nil, .inl ⟨rfl, rfl, fun _ h => nomatch h⟩⟩
    | cons t rest =>
      unfold Parses Ends
      by_cases hk : t.kind ∈ kinds
      · rw [accept_some hk]
        refine ⟨[t], rfl, ?_, .inr ⟨t, rfl, rfl, hk⟩⟩
        intro u hu
        rw [List.mem_singleton.mp hu]
        exact fun he => hend (he ▸ hk)
      · have hs : Stops kinds (t :: rest) := .cons hk
        rw [accept_none hs]
        exact ⟨[], rfl, NoEnd.nil, .inl ⟨rfl, rfl, hs⟩⟩
  refine bind h ?_
  rintro taken used rest rfl (⟨rfl, rfl, hs⟩ | ⟨t, rfl, rfl, hk⟩)
  · rw [List.append_nil]
    exact hnone hs
  · exact hsome t rest rfl hk

/-- A token of a kind has to come next. -/
theorem expect {f : Token → Parser β} (hend : kind ≠ .endOfInput)
    (hf : ∀ t rest, ts = t :: rest → t.kind = kind → Parses (f t) (before ++ [t]) rest Q) :
    Parses (Parser.expect kind >>= f) before ts Q := by
  have h : Parses (Parser.expect kind) [] ts fun used t _ => used = [t] ∧ t.kind = kind := by
    cases ts with
    | nil => exact ⟨[], rfl, NoEnd.nil, .ended⟩
    | cons t rest =>
      unfold Parses Ends
      by_cases hk : t.kind = kind
      · rw [expect_ok hk]
        refine ⟨[t], rfl, ?_, rfl, hk⟩
        intro u hu
        rw [List.mem_singleton.mp hu, hk]
        exact hend
      · have hs : Stops [kind] (t :: rest) := .cons (by simpa using hk)
        unfold Parser.expect
        rw [bind_ok (accept_none hs)]
        exact ⟨[], rfl, NoEnd.nil, .expected hk⟩
  refine bind h ?_
  rintro t used rest rfl ⟨rfl, hk⟩
  exact hf t rest rfl hk

/-- The next token is looked at. -/
theorem next {f : Bool → Parser β} (hf : ∀ b, Parses (f b) before ts Q) :
    Parses (Parser.next kind >>= f) before ts Q := by
  unfold Parses Ends
  rw [bind_ok (next_eq kind ts)]
  exact hf _

theorem done {f : Bool → Parser β} (hf : ∀ b, Parses (f b) before ts Q) :
    Parses (Parser.done >>= f) before ts Q := by
  unfold Parses Ends
  rw [bind_ok (done_eq ts)]
  exact hf _

/-- No token was fit. -/
theorem failHere {P : List Token → α → List Token → Prop} :
    Parses (Parser.failHere .unexpectedToken) before ts P := by
  cases ts with
  | nil => exact ⟨[], rfl, NoEnd.nil, .ended⟩
  | cons t rest => exact ⟨[], rfl, NoEnd.nil, .unexpected⟩

end Parses

end Dynascope
