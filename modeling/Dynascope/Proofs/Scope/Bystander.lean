import Dynascope.Proofs.Scope.Shape

/-!
# A global variable on the side

A binding of the global frame goes unnoticed by whatever is done to other names.

* `Bindings.set_comm`: two names may be bound in either order.
* `Frames.withGlobal`: the frames with one more binding in the global one.
* `Frames.get?_withGlobal`, `Frames.define?_withGlobal`, `Frames.assign?_withGlobal`: operations on
  other names do the same with and without it.
-/

namespace Dynascope

variable {V : Type}

namespace Bindings

/-- Insertions under different names may be made in either order. -/
theorem insert_comm {x y : Text} (h : x ≠ y) (v w : V) (entries : List (Text × V)) :
    insert x v (insert y w entries) = insert y w (insert x v entries) := by
  have hxy : x < y → ¬ y < x := List.lt_asymm
  have hyx : ¬ x < y → y < x := fun hn => Text.lt_of_not_lt hn h.symm
  induction entries with
  | nil => grind [insert]
  | cons e rest ih =>
    obtain ⟨key, old⟩ := e
    have hkx : ¬ x < key → key ≠ x → key < x := Text.lt_of_not_lt
    have hky : ¬ y < key → key ≠ y → key < y := Text.lt_of_not_lt
    have htx : x < key → key < y → x < y := List.lt_trans
    have hty : y < key → key < x → y < x := List.lt_trans
    grind [insert]

theorem set_comm (b : Bindings V) {x y : Text} (h : x ≠ y) (v w : V) :
    (b.set y w).set x v = (b.set x v).set y w := by
  have hentries := insert_comm h v w b.entries
  unfold set
  congr

end Bindings

theorem Frame.set_comm (f : Frame V) {x y : Text} (h : x ≠ y) (v w : V) :
    (f.set y w).set x v = (f.set x v).set y w := by
  unfold Frame.set
  rw [Bindings.set_comm _ h]

namespace Frames

/-- The frames with a name bound in the global one. -/
def withGlobal (fs : Frames V) (x : Text) (v : V) : Frames V :=
  { fs with globals := fs.globals.set x v }

variable {x y : Text} (v w : V)

theorem get?_withGlobal (fs : Frames V) (h : y ≠ x) : (fs.withGlobal x v).get? y = fs.get? y := by
  have hglobal : ((fs.globals.set x v).vars.get? y) = fs.globals.vars.get? y := by
    show (fs.globals.vars.set x v).get? y = _
    rw [Bindings.get?_set, if_neg h]
  simp only [get?, toList, withGlobal, List.findSome?_append, List.findSome?_cons, hglobal]

theorem define?_withGlobal (fs : Frames V) (h : y ≠ x) :
    (fs.withGlobal x v).define? y w = (fs.define? y w).map (·.withGlobal x v) := by
  obtain ⟨inner, globals⟩ := fs
  unfold define? withGlobal
  split
  · rfl
  · cases inner with
    | nil => simp only [Option.map_some, globals.set_comm h]
    | cons f rest => rfl

theorem assign?_withGlobal (fs : Frames V) (h : y ≠ x) :
    (fs.withGlobal x v).assign? y w = (fs.assign? y w).map (·.withGlobal x v) := by
  obtain ⟨inner, globals⟩ := fs
  have hcontains : (globals.set x v).vars.contains y = globals.vars.contains y := by
    show ((globals.vars.set x v).get? y).isSome = _
    rw [Bindings.get?_set, if_neg h]
    rfl
  unfold assign? withGlobal
  simp only
  split
  · rfl
  · rw [hcontains]
    split
    · simp only [Option.map_some, globals.set_comm h]
    · rfl

end Frames

end Dynascope
