import Dynascope.Proofs.Tree.StmtInStep

/-!
# Where programs begin and end

The first token for the end of the input ends a program, and so does the end of the list. Programs
that are read without an error can be put one after the other.

* `parseFrom_eq`: any fuel that is enough gives the same program.
* `parseProgram_append`: a program without errors before any other tokens.
* `ParseError.cutOff e`: an error at the token `e`, if `e` were missing.
* `parseProgram_endOfInput`: tokens with and without a token for the end of the input, and with
  more tokens after it.
-/

namespace Dynascope

open Dynascope.Parser

/-! ## Tokens up to the end -/

/-- All tokens before the end. -/
theorem exists_noEnd_append (ts : List Token) :
    ∃ us last, ts = us ++ last ∧ NoEnd us ∧ atEnd last = true := by
  induction ts with
  | nil => exact ⟨[], [], rfl, .nil, rfl⟩
  | cons t ts ih =>
    by_cases ht : t.kind = .endOfInput
    · exact ⟨[], t :: ts, rfl, .nil, atEnd_cons.mpr ht⟩
    · obtain ⟨us, last, rfl, hus, hlast⟩ := ih
      exact ⟨t :: us, last, rfl, List.forall_mem_cons.mpr ⟨ht, hus⟩, hlast⟩

theorem Abreast.append {C : Comparison} {us us' : List Token} (h : C.tokens.SameAll us us')
    (hus : NoEnd us) : Abreast C us.length (us ++ C.last) (us' ++ C.last') := by
  induction h with
  | nil => exact .ended
  | cons hs _ ih =>
    obtain ⟨ht, hus⟩ := List.forall_mem_cons.mp hus
    exact .cons hs ht (ih hus)

/-- The same tokens before two ends. -/
def Comparison.ends {last last' : List Token} (h : atEnd last = true) (h' : atEnd last' = true) :
    Comparison :=
  ⟨.exact, last, last', h, h'⟩

theorem Abreast.ends (us : List Token) {last last' : List Token} (h : atEnd last = true)
    (h' : atEnd last' = true) (hus : NoEnd us) :
    Abreast (.ends h h') us.length (us ++ last) (us ++ last') := by
  have hsame : Likeness.exact.SameAll us us := List.forall₂_same.mpr fun _ _ => rfl
  exact .append (C := .ends h h') hsame hus

/-- A failure shows no more of the ends than their first tokens. -/
theorem Failures.eq_of_head? {last last' : List Token} {h : atEnd last = true}
    {h' : atEnd last' = true} {es es' : List ParseError} (hes : Failures (.ends h h') es es')
    (hhead : last'.head? = last.head?) : es' = es := by
  have hbefore : ∀ fault : ParseFault, fault.before last' = fault.before last := by
    intro fault
    cases last <;> cases last' <;> simp_all [ParseFault.before]
  induction hes with
  | nil => rfl
  | passed hs _ _ _ ih => rw [show _ = _ from hs, ih]
  | ended => exact congrArg ([·]) (hbefore _)

theorem Parsed.Abreast.eq_of_head? {last last' : List Token} {h : atEnd last = true}
    {h' : atEnd last' = true} {p p' : Parsed} (hp : p.Abreast (.ends h h') p')
    (hhead : last'.head? = last.head?) : p' = p := by
  obtain ⟨ss, es⟩ := p
  obtain ⟨ss', es'⟩ := p'
  have hstatements : ss' = ss := likeStmts_eq hp.statements
  have herrors : es' = es := hp.errors.eq_of_head? hhead
  rw [hstatements, herrors]

/-- Fuel is no limit. -/
theorem parseFrom_eq {n : Nat} {ts : List Token} (hn : ts.length < n) :
    parseFrom n ts = parseProgram ts := by
  obtain ⟨us, last, rfl, hus, hlast⟩ := exists_noEnd_append ts
  have habreast := Abreast.ends us hlast hlast hus
  have hlength := habreast.le_length
  exact (parseFrom_abreast (by omega) habreast).eq_of_head? rfl

/-! ## One program after the other -/

/-- **Programs one after the other.** The tokens of a program that is read without an error may be
followed by any tokens, with errors or without, that do not start with `else`: both are read as if
they stood alone. -/
theorem parseProgram_append {p q : List Token} (hp : NoEnd p)
    (hread : (parseProgram p).errors = [])
    (hq : ∀ t, q.head? = some t → t.kind ≠ .kwElse) :
    parseProgram (p ++ q) = ⟨(parseProgram p).statements ++ (parseProgram q).statements,
      (parseProgram q).errors⟩ := by
  obtain ⟨used, rest, heq, -, hend, hdecl⟩ := (programReads p).declarations hread
  have hrest : rest = [] := by
    cases rest with
    | nil => rfl
    | cons t rest =>
      have ht : t.kind = .endOfInput := atEnd_cons.mp hend
      exact absurd ht (hp t (by rw [heq]; simp))
  obtain rfl : p = used := by rw [heq, hrest, List.append_nil]
  have hstops : Stops [.kwElse] q := fun t ht hmem => hq t ht (List.mem_singleton.mp hmem)
  have hlength : p.length < (p ++ q).length + 1 := by rw [List.length_append]; omega
  obtain ⟨k, hk, happend⟩ := hdecl.parseFrom_append hstops hlength
  rw [List.length_append] at hk
  rw [parseProgram, happend, parseFrom_eq (by omega : q.length < k)]

/-- Tokens of some kinds, all at one place. -/
def tokensOf (kinds : List Kind) : List Token :=
  kinds.map fun kind => ⟨kind, kind.name, none, .start⟩

/-- An `if` that could take an `else`, before a failed assignment and a declaration. -/
theorem parseProgram_append_openIf :
    let p := tokensOf [.kwIf, .leftParen, .identifier, .rightParen, .identifier, .semicolon]
    let q := tokensOf [.identifier, .equal, .semicolon, .kwVar, .identifier, .semicolon, .kwElse]
    NoEnd p ∧ (parseProgram p).errors = [] ∧ (∀ t, q.head? = some t → t.kind ≠ .kwElse) ∧
      (parseProgram q).errors.length = 2 ∧
      parseProgram (p ++ q) = ⟨(parseProgram p).statements ++ (parseProgram q).statements,
        (parseProgram q).errors⟩ := by
  intro p q
  have hp : NoEnd p := by unfold NoEnd; decide
  have hread : (parseProgram p).errors = [] := rfl
  have hq : ∀ t, q.head? = some t → t.kind ≠ .kwElse := by simp [q, tokensOf]
  exact ⟨hp, hread, hq, rfl, parseProgram_append hp hread hq⟩

/-! ## The end of the input -/

/-- An error at the token `e`, if `e` were missing. Other errors are as they are. -/
def ParseError.cutOff (e : Token) (err : ParseError) : ParseError :=
  if err.token = some e then ⟨.noToken, none⟩ else err

/-- The errors of tokens that are followed by `e`, and of the same tokens alone. -/
theorem Failures.cutOff {e : Token} (he : e.kind = .endOfInput) {h : atEnd [e] = true}
    {h' : atEnd [] = true} {es es' : List ParseError} (hes : Failures (.ends h h') es es') :
    es' = es.map (ParseError.cutOff e) ∧
      (∀ err ∈ es, err.fault ≠ .noToken ∧ (err.token = some e → err.fault.Ahead)) ∧
      es'.countP (fun err => err.fault = .noToken) ≤ 1 := by
  induction hes with
  | nil => exact ⟨rfl, by simp, Nat.zero_le 1⟩
  | @passed fault t t' es es' hs ht hf _ ih =>
    obtain rfl : t' = t := hs
    obtain ⟨hmap, hall, hcount⟩ := ih
    have hne : t' ≠ e := fun heq => ht (heq ▸ he)
    refine ⟨?_, List.forall_mem_cons.mpr ⟨⟨hf, fun heq => absurd (Option.some.inj heq) hne⟩, hall⟩,
      ?_⟩
    · rw [List.map_cons, ParseError.cutOff, if_neg (by simpa using hne), hmap]
    · rwa [List.countP_cons_of_neg (by simpa using hf)]
  | @ended fault hf =>
    refine ⟨?_, ?_, List.countP_le_length⟩
    · simp [Comparison.ends, ParseFault.before, ParseError.cutOff]
    · intro err hmem
      obtain rfl := List.mem_singleton.mp hmem
      exact ⟨hf.ne_noToken, fun _ => hf⟩

/-- **The end of the input.** A token for the end of the input changes nothing in what is read, and
nothing after it is looked at. Without it, an error there is one for a missing token. Only tokens
without an end give such an error, and they give one at most. -/
theorem parseProgram_endOfInput {ts : List Token} (hts : NoEnd ts) {e : Token}
    (he : e.kind = .endOfInput) (rest : List Token) :
    parseProgram (ts ++ e :: rest) = parseProgram (ts ++ [e]) ∧
      (parseProgram ts).statements = (parseProgram (ts ++ [e])).statements ∧
      (parseProgram ts).errors = (parseProgram (ts ++ [e])).errors.map (ParseError.cutOff e) ∧
      (∀ err ∈ (parseProgram (ts ++ [e])).errors, err.token = some e →
        err.fault = .unexpectedToken ∨ ∃ kind, err.fault = .expected kind) ∧
      (∀ err ∈ (parseProgram (ts ++ e :: rest)).errors, err.fault ≠ .noToken) ∧
      (parseProgram ts).errors.countP (fun err => err.fault = .noToken) ≤ 1 := by
  have hend : ∀ more, atEnd (e :: more) = true := fun _ => atEnd_cons.mpr he
  have hmore : parseProgram (ts ++ e :: rest) = parseProgram (ts ++ [e]) := by
    have habreast := parseProgram_abreast (.ends ts (hend []) (hend rest) hts)
    exact habreast.eq_of_head? rfl
  have hnothing : atEnd [] = true := rfl
  have hcut := parseProgram_abreast (.ends ts (hend []) hnothing hts)
  rw [List.append_nil] at hcut
  obtain ⟨herrors, hall, hcount⟩ := hcut.errors.cutOff he
  refine ⟨hmore, likeStmts_eq hcut.statements, herrors, fun err hmem => (hall err hmem).2, ?_,
    hcount⟩
  rw [hmore]
  exact fun err hmem => (hall err hmem).1

/-- A failed assignment, and a call that the end of the input cuts off. -/
theorem parseProgram_endOfInput_openCall :
    let ts := tokensOf [.kwNil, .equal, .kwNil, .semicolon, .identifier, .leftParen, .identifier]
    let e := Token.endOfInput .start
    let rest := tokensOf [.rightParen, .endOfInput]
    NoEnd ts ∧ e.kind = .endOfInput ∧
      ((parseProgram (ts ++ e :: rest)).errors.map ParseError.fault =
        [.invalidTarget, .expected .rightParen] ∧
      (parseProgram ts).errors.map ParseError.fault = [.invalidTarget, .noToken]) ∧
      parseProgram (ts ++ e :: rest) = parseProgram (ts ++ [e]) ∧
      (parseProgram ts).errors = (parseProgram (ts ++ [e])).errors.map (ParseError.cutOff e) := by
  intro ts e rest
  have hts : NoEnd ts := by unfold NoEnd; decide
  have he : e.kind = .endOfInput := rfl
  obtain ⟨hmore, -, herrors, -⟩ := parseProgram_endOfInput hts he rest
  exact ⟨hts, he, ⟨rfl, rfl⟩, hmore, herrors⟩

end Dynascope
