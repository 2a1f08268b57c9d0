import Dynascope.Text.Basic

/-!
# Bindings

* `Bindings`: names with values, sorted by name, each name once. The order is part of the type.
* `Bindings.get?`, `Bindings.set`: look-up and definition; the last definition of a name counts.
-/

namespace Dynascope

/-- Of two different texts one comes before the other. -/
theorem Text.lt_of_not_lt {a b : Text} (h : ¬ a < b) (hne : b ≠ a) : b < a := by
  by_cases hb : b < a
  · exact hb
  · exact absurd (List.le_antisymm h hb) hne

/-- Names with values, in the order of the names. -/
structure Bindings (V : Type) where
  entries : List (Text × V)
  /-- Each name stands once, and smaller names come first. -/
  sorted : entries.Pairwise fun a b => a.1 < b.1
  deriving Repr, DecidableEq

namespace Bindings

variable {V : Type}

/-- No bindings. -/
def empty : Bindings V :=
  ⟨[], .nil⟩

/-- Puts a binding at its place among sorted ones; a binding of the same name is replaced. -/
def insert (name : Text) (value : V) : List (Text × V) → List (Text × V)
  | [] => [(name, value)]
  | (key, old) :: rest =>
    if key = name then (name, value) :: rest
    else if name < key then (name, value) :: (key, old) :: rest
    else (key, old) :: insert name value rest

/-- An entry after an insertion is the new one or was there before. -/
theorem eq_or_mem_of_mem_insert {name : Text} {value : V} {entries : List (Text × V)}
    {e : Text × V} (h : e ∈ insert name value entries) : e = (name, value) ∨ e ∈ entries := by
  fun_induction insert name value entries with
  | case1 => exact .inl (List.mem_singleton.mp h)
  | case2 old rest => exact (List.mem_cons.mp h).imp_right (List.mem_cons_of_mem _)
  | case3 key old rest _ _ => exact List.mem_cons.mp h
  | case4 key old rest _ _ ih =>
    rcases List.mem_cons.mp h with rfl | hr
    · exact .inr (List.mem_cons_self ..)
    · exact (ih hr).imp_right (List.mem_cons_of_mem _)

/-- Insertion keeps the order. -/
theorem sorted_insert {name : Text} {value : V} {entries : List (Text × V)}
    (h : entries.Pairwise fun a b => a.1 < b.1) :
    (insert name value entries).Pairwise fun a b => a.1 < b.1 := by
  fun_induction insert name value entries with
  | case1 => exact List.pairwise_singleton ..
  | case2 old rest => exact List.pairwise_cons.mpr (List.pairwise_cons.mp h)
  | case3 key old rest _ hlt =>
    refine List.pairwise_cons.mpr ⟨fun e he => ?_, h⟩
    rcases List.mem_cons.mp he with rfl | hr
    · exact hlt
    · exact List.lt_trans hlt ((List.pairwise_cons.mp h).1 e hr)
  | case4 key old rest hne hlt ih =>
    obtain ⟨hfirst, hrest⟩ := List.pairwise_cons.mp h
    refine List.pairwise_cons.mpr ⟨fun e he => ?_, ih hrest⟩
    rcases eq_or_mem_of_mem_insert he with rfl | hr
    · exact Text.lt_of_not_lt hlt hne
    · exact hfirst e hr

/-- Binds a name to a value. -/
def set (b : Bindings V) (name : Text) (value : V) : Bindings V :=
  ⟨insert name value b.entries, sorted_insert b.sorted⟩

/-- The value of a name. -/
def get? (b : Bindings V) (name : Text) : Option V :=
  b.entries.lookup name

/-- Whether a name is bound. -/
def contains (b : Bindings V) (name : Text) : Bool :=
  (b.get? name).isSome

/-- The names, sorted. -/
def names (b : Bindings V) : List Text :=
  b.entries.map Prod.fst

/-- The number of names. -/
def size (b : Bindings V) : Nat :=
  b.entries.length

end Bindings

end Dynascope
