import Dynascope.Scope.Frames

/-!
# The names that frames define

* `Bindings.get?_set`: what a definition does to look-ups.
* `Frames.shape`: for each frame, from the current one down, its name and the names it defines.
* `Frames.shape_assign?`: a new value for a variable leaves the shape as it is.
* `Frames.shape_define?`: a definition changes the current frame only, and only by adding a name.
* `Frames.shape_push`, `Frames.shape_pop`: a push adds an empty frame, a pop takes it off.
-/

namespace Dynascope

variable {V : Type}

namespace Bindings

/-- An insertion adds one name. -/
theorem mem_names_set {b : Bindings V} {name n : Text} {value : V} :
    n ∈ (b.set name value).names ↔ n = name ∨ n ∈ b.names := by
  have h : ∀ entries : List (Text × V),
      n ∈ (insert name value entries).map Prod.fst ↔ n = name ∨ n ∈ entries.map Prod.fst := by
    intro entries
    fun_induction insert name value entries with
    | case1 => simp
    | case2 old rest => simp
    | case3 key old rest _ _ => simp
    | case4 key old rest _ _ ih =>
      simp only [List.map_cons, List.mem_cons, ih]
      grind
  exact h b.entries

/-- The last definition of a name counts. -/
theorem get?_set (b : Bindings V) (name n : Text) (value : V) :
    (b.set name value).get? n = if n = name then some value else b.get? n := by
  have h : ∀ entries : List (Text × V), (insert name value entries).lookup n =
      if n = name then some value else entries.lookup n := by
    intro entries
    fun_induction insert name value entries <;> grind
  exact h b.entries

/-- A look-up that succeeds finds one of the entries. -/
theorem mem_of_lookup {name : Text} {entries : List (Text × V)} {v : V}
    (h : entries.lookup name = some v) : (name, v) ∈ entries := by
  obtain ⟨before, after, rfl, -⟩ := List.lookup_eq_some_iff.mp h
  exact List.mem_append_right _ (List.mem_cons_self ..)

/-- Insertion under a name that is there replaces the value and leaves the names. -/
theorem map_fst_insert {name : Text} {value : V} {entries : List (Text × V)}
    (hs : entries.Pairwise fun a b => a.1 < b.1) (hc : (entries.lookup name).isSome) :
    (insert name value entries).map Prod.fst = entries.map Prod.fst := by
  fun_induction insert name value entries with
  | case1 => simp at hc
  | case2 old rest => rfl
  | case3 key old rest hne hlt =>
    -- A smaller name than the first cannot stand further back.
    obtain ⟨v, hv⟩ := Option.isSome_iff_exists.mp hc
    rcases List.mem_cons.mp (mem_of_lookup hv) with he | hr
    · exact absurd (congrArg Prod.fst he).symm hne
    · exact absurd (List.lt_trans hlt ((List.pairwise_cons.mp hs).1 _ hr)) (List.lt_irrefl _)
  | case4 key old rest hne hlt ih =>
    have hb : (name == key) = false := by simpa using fun h => hne h.symm
    rw [List.lookup_cons, hb] at hc
    rw [List.map_cons, List.map_cons, ih (List.pairwise_cons.mp hs).2 hc]

/-- A new value for a bound name leaves the names. -/
theorem names_set {b : Bindings V} {name : Text} {value : V} (h : b.contains name = true) :
    (b.set name value).names = b.names :=
  map_fst_insert b.sorted h

end Bindings

/-- The name of a frame and the names it defines. -/
def Frame.shape (f : Frame V) : Text × List Text :=
  (f.name, f.vars.names)

/-- A new value for a variable of the frame leaves the shape. -/
theorem Frame.shape_set {f : Frame V} {name : Text} {value : V}
    (h : f.vars.contains name = true) : (f.set name value).shape = f.shape := by
  unfold Frame.shape Frame.set
  rw [Bindings.names_set h]

namespace Frames

/-- For each frame, from the current one down, its name and the names it defines. -/
def shape (fs : Frames V) : List (Text × List Text) :=
  fs.toList.map Frame.shape

theorem shape_mk (inner : List (Frame V)) (globals : Frame V) :
    shape ⟨inner, globals⟩ = inner.map Frame.shape ++ [globals.shape] := by
  simp [shape, toList]

/-- The shape has an item for each frame. -/
theorem length_shape (fs : Frames V) : fs.shape.length = fs.depth := by
  simp [shape, toList, depth]

/-- The shape of the current frame comes first. -/
theorem shape_eq_cons (fs : Frames V) : fs.shape = fs.current.shape :: fs.shape.tail := by
  obtain ⟨inner, globals⟩ := fs
  cases inner <;> rfl

@[simp] theorem shape_push (fs : Frames V) (name : Text) :
    (fs.push name).shape = (name, []) :: fs.shape := rfl

/-- Taking off a frame that is not the global one. -/
theorem shape_pop {fs : Frames V} (h : 1 < fs.depth) : fs.pop.shape = fs.shape.tail := by
  obtain ⟨inner, globals⟩ := fs
  cases inner with
  | nil => simp [depth] at h
  | cons f rest => rfl

/-- A definition adds a name to the current frame and leaves all other frames. -/
theorem shape_define? {fs gs : Frames V} {name : Text} {value : V}
    (h : fs.define? name value = some gs) :
    gs.current = fs.current.set name value ∧ gs.shape.tail = fs.shape.tail := by
  obtain ⟨inner, globals⟩ := fs
  unfold define? at h
  split at h
  · cases h
  · cases inner with
    | nil => obtain rfl := Option.some.inj h; exact ⟨rfl, rfl⟩
    | cons f rest => obtain rfl := Option.some.inj h; exact ⟨rfl, rfl⟩

/-- An assignment to a variable of a frame that is not global. -/
theorem map_shape_assignInner? {name : Text} {value : V} {inner inner' : List (Frame V)}
    (h : assignInner? name value inner = some inner') :
    inner'.map Frame.shape = inner.map Frame.shape := by
  induction inner generalizing inner' with
  | nil => cases h
  | cons f rest ih =>
    unfold assignInner? at h
    split at h
    next hc =>
      obtain rfl := Option.some.inj h
      rw [List.map_cons, List.map_cons, Frame.shape_set hc]
    next =>
      obtain ⟨rest', hr, rfl⟩ := Option.map_eq_some_iff.mp h
      rw [List.map_cons, List.map_cons, ih hr]

/-- An assignment changes values only. -/
theorem shape_assign? {fs gs : Frames V} {name : Text} {value : V}
    (h : fs.assign? name value = some gs) : gs.shape = fs.shape := by
  obtain ⟨inner, globals⟩ := fs
  unfold assign? at h
  split at h
  next inner' hi =>
    obtain rfl := Option.some.inj h
    rw [shape_mk, shape_mk, map_shape_assignInner? hi]
  next =>
    split at h
    next hc =>
      obtain rfl := Option.some.inj h
      rw [shape_mk, shape_mk, Frame.shape_set hc]
    next => cases h

end Frames

end Dynascope
