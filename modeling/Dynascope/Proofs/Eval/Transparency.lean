import Dynascope.Proofs.Eval.EmptyFrame
import Dynascope.Proofs.Eval.Fuel
import Dynascope.Proofs.Eval.Stepwise

/-!
# Blocks and frames that make no difference

A block gives its statements a frame. If they declare nothing in it, the frame stays empty, and an
empty frame makes no difference wherever it stands above the global one.

* `Machine.padded`: the machine with one more empty frame below the `k` topmost ones.
* `PaddedEnd.eq_mapEnd`: ends that differ in such a frame, as an equation.
* `EndsWith.block_iff`: a block of plain statements ends as the statements do.
* `block_transparent`: the whole statement about blocks and about empty frames.
-/

namespace Dynascope

open Eval

variable {α : Type} {name : Text} {k : Nat}

/-- The machine with one more frame, an empty one below the `k` topmost ones. -/
def Machine.padded (m : Machine) (name : Text) (k : Nat) : Machine :=
  { m with frames := m.frames.padded name k }

theorem PaddedEnd.eq_mapEnd {r r' : EStateM.Result Stop Machine α} (h : PaddedEnd name k r r') :
    r' = mapEnd id id (·.padded name k) r := by
  have hm : ∀ {m m' : Machine}, m.Padded name k m' → m' = m.padded name k := by
    rintro m _ ⟨hframes⟩
    rw [hframes.eq_padded]
    rfl
  cases h with
  | ok h => rw [hm h]; rfl
  | error h => rw [hm h]; rfl

section Plain

variable {ss : List Stmt} (h : ∀ s ∈ ss, s.plain = true)

include h

/-- A block of plain statements ends as the statements do. It takes one more unit of fuel. -/
theorem EndsWith.block_iff (m : Machine) (r : EStateM.Result Stop Machine Flow) :
    EndsWith (fun n => exec n (.block ss)) m r ↔ EndsWith (fun n => execAll n ss) m r := by
  constructor
  · rintro ⟨n, rfl, hr⟩
    cases n with
    | zero => exact absurd (.mk m) hr
    | succ n => exact ⟨n, (congrFun (exec_block h n) m).symm, hr⟩
  · rintro ⟨n, rfl, hr⟩
    exact ⟨n + 1, congrFun (exec_block h n) m, hr⟩

theorem Forever.block_iff (m : Machine) :
    Forever (fun n => exec n (.block ss)) m ↔ Forever (fun n => execAll n ss) m := by
  rw [forever_iff, forever_iff]
  exact forall_congr' fun r => not_congr (EndsWith.block_iff h m r)

end Plain

/-- **Transparent blocks and frames.** Statements of which none declares anything, unless inside a
block of its own, do in a block what they do without it: from every machine they reach the same
machine with the same outcome or stop, or neither ends. And with one more empty frame anywhere above
the global one, every expression has the same outcome, and the frame is still there and empty. -/
theorem block_transparent :
    (∀ ss : List Stmt, (∀ s ∈ ss, s.plain = true) →
      (∀ n, exec (n + 1) (.block ss) = execAll n ss) ∧
      (∀ m r, EndsWith (fun n => exec n (.block ss)) m r ↔ EndsWith (fun n => execAll n ss) m r) ∧
      ∀ m, Forever (fun n => exec n (.block ss)) m ↔ Forever (fun n => execAll n ss) m) ∧
    ∀ (n : Nat) (e : Expr) (name : Text) (m : Machine) (k : Fin m.frames.depth),
      eval n e (m.padded name k) = mapEnd id id (·.padded name k) (eval n e m) := by
  constructor
  · intro ss h
    exact ⟨exec_block h, EndsWith.block_iff h, Forever.block_iff h⟩
  · intro n e name m k
    have hpadded : m.Padded name k (m.padded name k) := .mk (.padded k.isLt)
    exact ((blind name n).expr k e m _ hpadded).eq_mapEnd

/-- A choice one branch of which is a block with a variable. Nothing of it is left in the frame in
which the choice is executed. -/
theorem block_transparent_choice :
    let x : Token := ⟨.identifier, "x", none, .start⟩
    let ss := [Stmt.choice (.literal (.bool true))
      (.block [.varDecl x (.literal .nil), .expr (.name x)]) .absent]
    (∀ s ∈ ss, s.plain = true) ∧
      (exec 9 (.block ss)).run' .new = some .normal ∧ (execAll 8 ss).run' .new = some .normal ∧
      eval 1 (.name x) (Machine.new.padded "block" 0) =
        mapEnd id id (·.padded "block" 0) (eval 1 (.name x) .new) := by
  intro x ss
  have hplain : ∀ s ∈ ss, s.plain = true := by
    intro s hs
    obtain rfl := List.mem_singleton.mp hs
    rfl
  have hnormal : (execAll 8 ss).run' .new = some .normal := by decide +kernel
  refine ⟨hplain, ?_, hnormal, block_transparent.2 1 (.name x) "block" .new ⟨0, Nat.succ_pos _⟩⟩
  rw [(block_transparent.1 ss hplain).1 8]
  exact hnormal

end Dynascope
