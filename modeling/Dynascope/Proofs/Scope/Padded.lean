import Dynascope.Scope.Frames

/-!
# One more empty frame

An empty frame anywhere above the global one defines no name, so look-up and assignment pass it by.
Only a definition sees it, if it is the current frame.

* `Frames.padded`: the frames with one more, an empty frame below the `k` topmost ones.
* `Frames.Padded name k fs fs'`: the frames `fs'` are `fs` with such a frame. The relation follows
  the frames one by one (`PaddedInner.of_le`, `PaddedInner.eq_insertIdx`).
* `Frames.Padded.get?`, `Frames.Padded.assign?`: variables are the same.
* `Frames.Padded.define?`: so are definitions, if the empty frame is not the current one.
* `Frames.Padded.push`, `Frames.Padded.pop`: the frames above the empty one come and go.
-/

namespace Dynascope

variable {V : Type} {name : Text} {k : Nat}

/-- The second list has one more frame, an empty one below `k` frames. -/
inductive PaddedInner (name : Text) : (k : Nat) → List (Frame V) → List (Frame V) → Prop where
  | here (inner : List (Frame V)) : PaddedInner name 0 inner (.empty name :: inner)
  | under {k : Nat} {inner inner' : List (Frame V)} (f : Frame V)
      (h : PaddedInner name k inner inner') : PaddedInner name (k + 1) (f :: inner) (f :: inner')

/-- The frames with one more, an empty one below the `k` topmost ones. -/
def Frames.padded (fs : Frames V) (name : Text) (k : Nat) : Frames V :=
  { fs with inner := fs.inner.insertIdx k (.empty name) }

/-- The second frames have one more, an empty one that is not global and has `k` frames above it. -/
structure Frames.Padded (name : Text) (k : Nat) (fs fs' : Frames V) : Prop where
  inner : PaddedInner name k fs.inner fs'.inner
  globals : fs'.globals = fs.globals

theorem Bindings.contains_empty (x : Text) :
    (Bindings.empty : Bindings V).contains x = false := rfl

namespace PaddedInner

variable {inner inner' : List (Frame V)}

theorem of_le (h : k ≤ inner.length) :
    PaddedInner name k inner (inner.insertIdx k (.empty name)) := by
  induction inner generalizing k with
  | nil =>
    obtain rfl : k = 0 := Nat.le_zero.mp h
    exact .here []
  | cons f inner ih =>
    cases k with
    | zero => exact .here (f :: inner)
    | succ k => exact .under f (ih (Nat.le_of_succ_le_succ h))

theorem eq_insertIdx (h : PaddedInner name k inner inner') :
    inner' = inner.insertIdx k (.empty name) := by
  induction h with
  | here inner => rfl
  | under f _ ih => rw [List.insertIdx_succ_cons, ih]

/-- The empty frame gives no value. -/
theorem findSome? (h : PaddedInner name k inner inner') (rest : List (Frame V)) (x : Text) :
    ((inner' ++ rest).findSome? fun f => f.vars.get? x) =
      (inner ++ rest).findSome? fun f => f.vars.get? x := by
  induction h with
  | here inner => rfl
  | under f _ ih => simp only [List.cons_append, List.findSome?_cons, ih]

/-- The empty frame takes no value. -/
theorem assignInner? (h : PaddedInner name k inner inner') (x : Text) (value : V) :
    Option.Rel (PaddedInner name k) (Frames.assignInner? x value inner)
      (Frames.assignInner? x value inner') := by
  induction h with
  | here inner =>
    rw [Frames.assignInner?, if_neg (by simp [Frame.empty, Bindings.contains_empty])]
    cases Frames.assignInner? x value inner with
    | none => exact .none
    | some inner₁ => exact .some (.here inner₁)
  | @under k inner inner' f h ih =>
    unfold Frames.assignInner?
    split
    · exact .some (.under _ h)
    · generalize Frames.assignInner? x value inner = r at ih
      generalize Frames.assignInner? x value inner' = r' at ih
      cases ih with
      | none => exact .none
      | some h => exact .some (.under f h)

end PaddedInner

namespace Frames.Padded

variable {fs fs' : Frames V}

/-- A frame that is put on top is a frame more. -/
theorem here (fs : Frames V) : fs.Padded name 0 (fs.push name) :=
  ⟨.here fs.inner, rfl⟩

theorem padded (h : k < fs.depth) : fs.Padded name k (fs.padded name k) :=
  ⟨.of_le (Nat.le_of_lt_succ h), rfl⟩

theorem eq_padded (h : fs.Padded name k fs') : fs' = fs.padded name k := by
  obtain ⟨inner, globals⟩ := fs'
  obtain ⟨hinner, hglobals⟩ := h
  dsimp only at hinner hglobals
  rw [hinner.eq_insertIdx, hglobals]
  rfl

/-- If the empty frame is the current one, it was put on top. -/
theorem eq_push (h : fs.Padded name 0 fs') : fs' = fs.push name := by
  obtain ⟨inner, globals⟩ := fs
  obtain ⟨inner', globals'⟩ := fs'
  obtain ⟨hinner, hglobals⟩ := h
  dsimp only at hinner hglobals
  cases hinner
  rw [hglobals]
  rfl

theorem push (h : fs.Padded name k fs') (x : Text) :
    (fs.push x).Padded name (k + 1) (fs'.push x) :=
  ⟨.under _ h.inner, h.globals⟩

theorem pop (h : fs.Padded name (k + 1) fs') : fs.pop.Padded name k fs'.pop := by
  obtain ⟨inner, globals⟩ := fs
  obtain ⟨inner', globals'⟩ := fs'
  obtain ⟨hinner, hglobals⟩ := h
  cases hinner with
  | under f h => exact ⟨h, hglobals⟩

/-- Look-up passes the empty frame by. -/
theorem get? (h : fs.Padded name k fs') (x : Text) : fs'.get? x = fs.get? x := by
  rw [Frames.get?, Frames.get?, toList, toList, h.globals]
  exact h.inner.findSome? _ x

/-- Assignment passes the empty frame by. -/
theorem assign? (h : fs.Padded name k fs') (x : Text) (value : V) :
    Option.Rel (Padded name k) (fs.assign? x value) (fs'.assign? x value) := by
  have hinner := h.inner.assignInner? x value
  unfold Frames.assign?
  rw [h.globals]
  generalize assignInner? x value fs.inner = r at hinner
  generalize assignInner? x value fs'.inner = r' at hinner
  cases hinner with
  | some hinner => exact .some ⟨hinner, rfl⟩
  | none =>
    dsimp only
    split
    · exact .some ⟨h.inner, rfl⟩
    · exact .none

/-- A definition goes to the current frame, which is not the empty one. -/
theorem define? (h : fs.Padded name (k + 1) fs') (x : Text) (value : V) :
    Option.Rel (Padded name (k + 1)) (fs.define? x value) (fs'.define? x value) := by
  obtain ⟨inner, globals⟩ := fs
  obtain ⟨inner', globals'⟩ := fs'
  obtain ⟨hinner, hglobals⟩ := h
  unfold Frames.define?
  split
  · exact .none
  · cases hinner with
    | under f h => exact .some ⟨.under _ h, hglobals⟩

end Frames.Padded

end Dynascope
