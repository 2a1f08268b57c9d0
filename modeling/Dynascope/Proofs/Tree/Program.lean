import Dynascope.Proofs.Tree.StmtFollow

/-!
# Programs

* `ProgramReads ts p`: the tokens `ts` give the statements and errors `p`. Each statement was read
  from tokens of its own, each error has its cause, and reading goes on after recovery.
* `programReads`: what `parseProgram` gives for any tokens.
* `Declarations ts ss`: the tokens `ts` are those of the declarations `ss`, one after the other.
* `Declarations.parse`: such tokens are read as these declarations, without an error.
* `ProgramReads.declarations`: what is read without an error was such tokens.
-/

namespace Dynascope

open Dynascope.Parser

/-! ## Recovery -/

theorem skipTo_suffix (previous : Token) (ts : List Token) : skipTo previous ts <:+ ts := by
  induction ts generalizing previous with
  | nil => exact List.suffix_refl _
  | cons t ts ih =>
    unfold skipTo
    split
    · exact List.suffix_refl _
    · exact (ih t).trans (List.suffix_cons t ts)

theorem synchronize_suffix (ts : List Token) : synchronize ts <:+ ts := by
  cases ts with
  | nil => exact List.suffix_refl _
  | cons t ts =>
    rw [synchronize]
    split
    · exact List.suffix_refl _
    · exact (skipTo_suffix t ts).trans (List.suffix_cons t ts)

/-- Recovery drops a token, unless no token is left before the end. -/
theorem length_synchronize_lt {ts : List Token} (h : atEnd ts = false) :
    (synchronize ts).length < ts.length := by
  cases ts with
  | nil => cases h
  | cons t ts =>
    have ht : t.kind ≠ .endOfInput := by simpa [atEnd] using h
    rw [synchronize, if_neg ht]
    exact Nat.lt_succ_of_le (skipTo_suffix t ts).length_le

/-- A failure with its recovery takes at least one token. -/
theorem length_recover_lt {passed rest : List Token} (h : atEnd (passed ++ rest) = false) :
    (synchronize rest).length < (passed ++ rest).length := by
  cases passed with
  | nil => exact length_synchronize_lt h
  | cons t passed =>
    have hle := (synchronize_suffix rest).length_le
    simp only [List.cons_append, List.length_cons, List.length_append]
    omega

/-- Nothing is read at the end. -/
theorem parseFrom_ended (n : Nat) {ts : List Token} (h : atEnd ts = true) :
    parseFrom n ts = ⟨[], []⟩ := by
  cases n with
  | zero => rfl
  | succ n => rw [parseFrom, if_pos h]

/-! ## What is read -/

/-- The statements and errors that tokens give. -/
inductive ProgramReads : List Token → Parsed → Prop where
  | ended {ts : List Token} (h : atEnd ts = true) : ProgramReads ts ⟨[], []⟩
  | read {used rest : List Token} {s : Stmt} {dangling : Bool} {p : Parsed} (hused : NoEnd used)
      (h : StmtRule.declaration.Reads used s dangling) (hp : ProgramReads rest p) :
    ProgramReads (used ++ rest) ⟨s :: p.statements, p.errors⟩
  | failed {passed rest : List Token} {e : ParseError} {p : Parsed} (hpassed : NoEnd passed)
      (he : Cause e passed rest) (hp : ProgramReads (synchronize rest) p) :
    ProgramReads (passed ++ rest) ⟨p.statements, e :: p.errors⟩

theorem parseFrom_reads {n : Nat} {ts : List Token} (hn : ts.length < n) :
    ProgramReads ts (parseFrom n ts) := by
  induction n generalizing ts with
  | zero => omega
  | succ n ih =>
    unfold parseFrom
    split
    next hend => exact .ended hend
    next hend =>
      have hfuel : 32 * ts.length + StmtRule.declaration.rank ≤ fuelFor n := by
        simp only [StmtRule.rank, fuelFor]
        omega
      have hspec : Parses (declaration (fuelFor n)) [] ts (StmtRule.Spec .declaration) :=
        StmtRule.parses (fuelFor n) .declaration ts hfuel
      unfold Parses Ends at hspec
      split
      next s rest hrun =>
        rw [hrun] at hspec
        obtain ⟨used, rfl, hused, dangling, hs, -⟩ := hspec
        have hpos := hs.length_pos rfl
        simp only [List.nil_append, List.length_append] at hpos hn
        exact .read hused hs (ih (by omega))
      next e rest hrun =>
        rw [hrun] at hspec
        obtain ⟨passed, rfl, hpassed, hc⟩ := hspec
        have hlt := length_recover_lt (Bool.eq_false_iff.mpr hend)
        exact .failed hpassed hc (ih (by omega))

/-- **Reading a program.** The statements of a program are read from its tokens, and its errors have
their causes there. -/
theorem programReads (ts : List Token) : ProgramReads ts (parseProgram ts) :=
  parseFrom_reads (Nat.lt_succ_self _)

/-- Each statement is read from some of the tokens. -/
theorem ProgramReads.statement {ts : List Token} {p : Parsed} (h : ProgramReads ts p) {s : Stmt}
    (hs : s ∈ p.statements) :
    ∃ used dangling, used ⊆ ts ∧ StmtRule.declaration.Reads used s dangling := by
  induction h with
  | ended => cases hs
  | @read used rest s' dangling p _ hd _ ih =>
    rcases List.mem_cons.mp hs with rfl | hs
    · exact ⟨used, dangling, List.subset_append_left _ _, hd⟩
    · obtain ⟨used', dangling', hsub, hread⟩ := ih hs
      exact ⟨used', dangling', List.Subset.trans hsub (List.subset_append_right _ _), hread⟩
  | @failed passed rest e p _ _ _ ih =>
    obtain ⟨used, dangling, hsub, hread⟩ := ih hs
    have hrest : synchronize rest ⊆ passed ++ rest :=
      List.Subset.trans (synchronize_suffix rest).subset (List.subset_append_right _ _)
    exact ⟨used, dangling, List.Subset.trans hsub hrest, hread⟩

/-! ## Declarations without an error -/

/-- The tokens of declarations, one after the other. -/
inductive Declarations : List Token → List Stmt → Prop where
  | nil : Declarations [] []
  | cons {used rest : List Token} {s : Stmt} {ss : List Stmt} {dangling : Bool}
      (h : StmtRule.declaration.Reads used s dangling) (hs : Declarations rest ss) :
    Declarations (used ++ rest) (s :: ss)

namespace Declarations

variable {ts rest : List Token} {ss : List Stmt}

theorem single {s : Stmt} {dangling : Bool} (h : StmtRule.declaration.Reads ts s dangling) :
    Declarations ts [s] := by
  have hcons := cons h nil
  rwa [List.append_nil] at hcons

/-- No declaration starts with `else`. -/
theorem stops_else (h : Declarations ts ss) (hrest : Stops [.kwElse] rest) :
    Stops [.kwElse] (ts ++ rest) := by
  cases h with
  | nil => exact hrest
  | cons h _ =>
    obtain ⟨t, used, rfl, ht⟩ := h.first rfl
    exact .cons fun he => by rw [List.mem_singleton.mp he] at ht; revert ht; decide

/-- The tokens of declarations are read as these declarations. What follows is read with the fuel
that is left: each declaration takes one unit, and at least one token. -/
theorem parseFrom_append (h : Declarations ts ss) (hrest : Stops [.kwElse] rest) {n : Nat}
    (hn : ts.length < n) :
    ∃ k, n ≤ k + ts.length ∧ parseFrom n (ts ++ rest) =
      ⟨ss ++ (parseFrom k rest).statements, (parseFrom k rest).errors⟩ := by
  induction h generalizing n with
  | nil => exact ⟨n, Nat.le_refl n, rfl⟩
  | @cons used us s ss dangling h hs ih =>
    obtain ⟨n, rfl⟩ : ∃ m, n = m + 1 := ⟨n - 1, by omega⟩
    rw [List.length_append] at hn
    have hpos := h.length_pos rfl
    have hdecl : declaration (fuelFor n) (used ++ (us ++ rest)) = .ok s (us ++ rest) :=
      h.run (fun _ => hs.stops_else hrest) (by unfold fuelFor; omega)
    have hnot : ¬ atEnd (used ++ (us ++ rest)) = true := by
      obtain ⟨t, used, rfl, ht⟩ := h.first rfl
      have he : t.kind ≠ .endOfInput := fun he => by rw [he] at ht; revert ht; decide
      simpa [atEnd] using he
    obtain ⟨k, hk, hlater⟩ := ih (by omega : us.length < n)
    refine ⟨k, by rw [List.length_append]; omega, ?_⟩
    rw [List.append_assoc, parseFrom, if_neg hnot, hdecl]
    simp only [hlater, List.cons_append]

/-- **Declarations are read.** Before the end of the input, the tokens of declarations are read as
these declarations, without an error. -/
theorem parse (h : Declarations ts ss) (hend : atEnd rest = true) :
    parseProgram (ts ++ rest) = ⟨ss, []⟩ := by
  have hlength : ts.length < (ts ++ rest).length + 1 := by rw [List.length_append]; omega
  obtain ⟨k, -, hread⟩ := h.parseFrom_append (stops_of_atEnd hend (by decide)) hlength
  rw [parseProgram, hread, parseFrom_ended k hend, List.append_nil]

end Declarations

/-- What is read without an error are declarations up to the end. -/
theorem ProgramReads.declarations {ts : List Token} {p : Parsed} (h : ProgramReads ts p)
    (hp : p.errors = []) :
    ∃ used rest, ts = used ++ rest ∧ NoEnd used ∧ atEnd rest = true ∧
      Declarations used p.statements := by
  induction h with
  | @ended ts hend => exact ⟨[], ts, rfl, .nil, hend, .nil⟩
  | @read used _ s dangling p hused h _ ih =>
    obtain ⟨used', rest, rfl, hused', hend, hs⟩ := ih hp
    exact ⟨used ++ used', rest, (List.append_assoc ..).symm, hused.append hused', hend, .cons h hs⟩
  | failed => cases hp

/-- What is read before the end of the input are all tokens before it. -/
theorem eq_of_noEnd {ts used rest : List Token} {e : Token} (hts : NoEnd ts) (hused : NoEnd used)
    (he : e.kind = .endOfInput) (hend : Parser.atEnd rest = true) (h : ts ++ [e] = used ++ rest) :
    used = ts := by
  rcases List.append_eq_append_iff.mp h with ⟨more, rfl, hmore⟩ | ⟨more, rfl, hmore⟩
  · cases more with
    | nil => exact List.append_nil _
    | cons t more =>
      obtain ⟨rfl, -⟩ := List.cons.inj hmore
      exact absurd he (hused e (by simp))
  · cases more with
    | nil => exact (List.append_nil _).symm
    | cons t more =>
      subst hmore
      have ht : t.kind = .endOfInput := atEnd_cons.mp hend
      exact absurd ht (hts t (by simp))

end Dynascope
