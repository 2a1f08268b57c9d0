import Dynascope.Proofs.Eval.Twin

/-!
# The limit of calls

A run under a limit never has more active calls than the limit allows, and a limit that refused no
call might as well be a wider one, or none.

* `Report.callDepth?`: the limit that a report names, if a call was refused.
* `Machine.Like.eq_limitDepth`: machines whose tokens are the same differ in the limit only.
* `Machine.interpretWith_wider`: a run to which no call was refused is the same under every wider
  limit.
* `Machine.callLimit_kept`: the limit is kept, and else goes unnoticed.
-/

namespace Dynascope

/-- The limit that a report names, if a call was refused. -/
def Report.callDepth? (r : Report) : Option Int :=
  match r.error with
  | some (.stop stop) => stop.callDepth?
  | _ => none

namespace Machine

theorem limitDepth_natCast (m : Machine) (n : Nat) :
    m.limitDepth n = { m with maxDepth := n } :=
  if_pos (Int.natCast_nonneg n)

theorem like_limitDepth (m : Machine) (n k : Nat) (h : k = 0 ∨ 0 < n ∧ n ≤ k) :
    (m.limitDepth n).Like ⟨.exact, n, k, h, m.nextSite, m.nextSite⟩ (m.limitDepth k) := by
  rw [limitDepth_natCast, limitDepth_natCast]
  exact ⟨rfl, rfl, Store.like_self fun _ _ _ _ _ => rfl, rfl, rfl, rfl, rfl, rfl, rfl, rfl⟩

/-- Machines whose tokens are the same differ in the limit only. -/
theorem Like.eq_limitDepth {m m' : Machine} {n k site : Nat} {h : k = 0 ∨ 0 < n ∧ n ≤ k}
    (hm : m.Like ⟨.exact, n, k, h, site, site⟩ m') : m' = m.limitDepth k := by
  have hsite : m.nextSite = site := hm.site
  subst hsite
  rw [limitDepth_natCast]
  exact hm.eq

/-- A run to which no call was refused is the same under every wider limit, and under none. -/
theorem interpretWith_wider {fuel : Nat} {m m' : Machine} {program : List Stmt}
    {diagnostics : List ParseError} {report : Report} {n k : Nat} (h : k = 0 ∨ 0 < n ∧ n ≤ k)
    (hrun : (m.limitDepth n).interpretWith fuel program diagnostics = (report, m'))
    (hnone : report.callDepth? = none) :
    (m.limitDepth k).interpretWith fuel program diagnostics = (report, m'.limitDepth k) := by
  have hload : ∀ limit : Nat, (m.limitDepth limit).load program =
      ((m.load program).1, (m.load program).2.limitDepth limit) := by
    intro limit
    rw [limitDepth_natCast, limitDepth_natCast]
    rfl
  have htwins := Eval.interpret_twin fuel (likeStmts_self (m.load program).1 fun _ _ => rfl) none
    _ _ ((m.load program).2.like_limitDepth n k h)
  unfold interpretWith at hrun ⊢
  rw [hload] at hrun ⊢
  dsimp only at hrun htwins ⊢
  generalize Eval.interpret fuel (m.load program).1 none ((m.load program).2.limitDepth n) = r
    at hrun htwins
  generalize Eval.interpret fuel (m.load program).1 none ((m.load program).2.limitDepth k) = r'
    at htwins ⊢
  cases htwins with
  | ok hm =>
    cases hrun
    rw [hm.eq_limitDepth]
  | error hs hm =>
    cases hrun
    rw [hm.eq_limitDepth, hs.eq]
  | refused hs =>
    cases hrun
    exact absurd hnone hs

/-- **The limit of calls is kept, and else goes unnoticed.** Between two runs no call is active. At
every moment of a run under the limit `n`, at most `n` calls are active, the machine counts them,
and a call is refused only if there are `n` of them; the error names `n`. What the run reports is
its last moment. If no call was refused to it, the run ends in the same way under every wider limit
and without a limit, on a machine that differs in the limit only. -/
theorem callLimit_kept {m : Machine} (hm : m.depth = 0) {n : Nat} (hn : 0 < n)
    (program : List Stmt) :
    (∀ c, Moment.Reaches (.opening (m.limitDepth n) program) c →
      c.activeCalls ≤ n ∧ c.machine.depth = c.activeCalls ∧ c.RefusesAt n) ∧
    ∀ fuel diagnostics report m',
      (m.limitDepth n).interpretWith fuel program diagnostics = (report, m') →
      Moment.Reaches (.opening (m.limitDepth n) program) ⟨.ending report.ending, [], m'⟩ ∧
      (report.callDepth? = none → ∀ k : Nat, n ≤ k ∨ k = 0 →
        (m.limitDepth k).interpretWith fuel program diagnostics = (report, m'.limitDepth k)) := by
  constructor
  · intro c hreach
    rw [limitDepth_natCast] at hreach
    have hopening := Moment.counted_opening (m := { m with maxDepth := n }) program hm
    have hcounted := hopening.reaches hn hreach
    exact ⟨hcounted.bounded, hcounted.depth, (hcounted.step hn).2⟩
  · intro fuel diagnostics report m' hrun
    refine ⟨Moment.reaches_report hrun, ?_⟩
    intro hnone k hk
    have hwider : k = 0 ∨ 0 < n ∧ n ≤ k := by omega
    exact interpretWith_wider hwider hrun hnone

/-- Two calls at a time are enough for a function that calls itself once: it returns the same value
under every wider limit, and a limit of one is exceeded. -/
theorem callLimit_kept_twice :
    let program := (parseProgram (tokenize
      "fun f(x) \x7b if (x) return f(false); return x; \x7d f(true);").1).statements
    (∀ k : Nat, 2 ≤ k ∨ k = 0 →
      ((new.limitDepth k).interpretWith 20 program []).1.value = some (.bool false)) ∧
    ((new.limitDepth 1).interpretWith 20 program []).1.callDepth? = some 1 := by
  intro program
  have hvalue : ((new.limitDepth (2 : Nat)).interpretWith 20 program []).1.value =
      some (.bool false) := by
    decide +kernel
  have hnone : ((new.limitDepth (2 : Nat)).interpretWith 20 program []).1.callDepth? = none := by
    decide +kernel
  refine ⟨?_, by decide +kernel⟩
  clear_value program
  generalize hrun : (new.limitDepth (2 : Nat)).interpretWith 20 program [] = run at hvalue hnone
  obtain ⟨report, m'⟩ := run
  intro k hk
  have hsame := ((callLimit_kept (m := new) rfl Nat.two_pos program).2 20 [] report m' hrun).2
  rw [hsame hnone k hk]
  exact hvalue

end Machine

end Dynascope
