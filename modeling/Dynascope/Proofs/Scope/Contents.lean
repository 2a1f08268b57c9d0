import Dynascope.Proofs.Scope.Shape
import Dynascope.Store.Heap

/-!
# What frames and fields hold

A property of values that holds of all values in bindings, in frames or in the fields of instances.
Every operation that puts only values with the property there keeps it.

* `Bindings.Each`, `Frames.Each`, `Heap.Each`: every value has the property.
* `Frames.Each.get?`, `Heap.Each.field?`: so has a value that is looked up.
* `Frames.Each.define?`, `Frames.Each.assign?`, `Heap.Each.setField`: a new value with the property.
-/

namespace Dynascope

variable {V : Type} {P Q : V → Prop}

namespace Bindings

/-- Every bound value has a property. -/
def Each (P : V → Prop) (b : Bindings V) : Prop :=
  ∀ entry ∈ b.entries, P entry.2

theorem Each.empty : (Bindings.empty : Bindings V).Each P :=
  fun _ h => nomatch h

theorem Each.mono {b : Bindings V} (h : b.Each P) (hPQ : ∀ v, P v → Q v) : b.Each Q :=
  fun entry he => hPQ _ (h entry he)

theorem Each.set {b : Bindings V} {name : Text} {value : V} (h : b.Each P) (hv : P value) :
    (b.set name value).Each P := by
  intro entry he
  rcases eq_or_mem_of_mem_insert he with rfl | he
  · exact hv
  · exact h entry he

theorem Each.get? {b : Bindings V} {name : Text} {value : V} (h : b.Each P)
    (hget : b.get? name = some value) : P value :=
  h _ (mem_of_lookup hget)

end Bindings

namespace Frames

/-- Every variable of every frame has a value with a property. -/
def Each (P : V → Prop) (fs : Frames V) : Prop :=
  ∀ frame ∈ fs.toList, frame.vars.Each P

variable {fs gs : Frames V} {name : Text} {value : V}

theorem each_mk {inner : List (Frame V)} {globals : Frame V} :
    Each P ⟨inner, globals⟩ ↔ (∀ frame ∈ inner, frame.vars.Each P) ∧ globals.vars.Each P := by
  simp [Each, toList, or_imp, forall_and]

theorem Each.mono (h : fs.Each P) (hPQ : ∀ v, P v → Q v) : fs.Each Q :=
  fun frame hf => (h frame hf).mono hPQ

theorem Each.push (h : fs.Each P) (name : Text) : (fs.push name).Each P := by
  intro frame hf
  rcases List.mem_cons.mp hf with rfl | hf
  · exact Bindings.Each.empty
  · exact h frame hf

theorem Each.pop (h : fs.Each P) : fs.pop.Each P := by
  obtain ⟨inner, globals⟩ := fs
  obtain ⟨hinner, hglobals⟩ := each_mk.mp h
  exact each_mk.mpr ⟨fun frame hf => hinner frame (List.mem_of_mem_tail hf), hglobals⟩

theorem Each.get? (h : fs.Each P) (hget : fs.get? name = some value) : P value := by
  obtain ⟨frame, hf, hv⟩ := List.exists_of_findSome?_eq_some hget
  exact (h frame hf).get? hv

theorem Each.define? (h : fs.Each P) (hv : P value) (hd : fs.define? name value = some gs) :
    gs.Each P := by
  obtain ⟨inner, globals⟩ := fs
  obtain ⟨hinner, hglobals⟩ := each_mk.mp h
  unfold Frames.define? at hd
  split at hd
  · cases hd
  · cases inner with
    | nil =>
      obtain rfl := Option.some.inj hd
      exact each_mk.mpr ⟨hinner, hglobals.set hv⟩
    | cons frame rest =>
      obtain rfl := Option.some.inj hd
      rw [List.forall_mem_cons] at hinner
      exact each_mk.mpr ⟨List.forall_mem_cons.mpr ⟨hinner.1.set hv, hinner.2⟩, hglobals⟩

/-- Only the empty name cannot be defined. -/
theorem define?_isSome (fs : Frames V) {name : Text} (value : V) (h : name ≠ []) :
    ∃ gs, fs.define? name value = some gs := by
  obtain ⟨inner, globals⟩ := fs
  have hempty : ¬ name.isEmpty = true := by simpa using h
  unfold Frames.define?
  rw [if_neg hempty]
  cases inner with
  | nil => exact ⟨_, rfl⟩
  | cons frame rest => exact ⟨_, rfl⟩

theorem each_assignInner? {inner inner' : List (Frame V)} (h : ∀ frame ∈ inner, frame.vars.Each P)
    (hv : P value) (ha : assignInner? name value inner = some inner') :
    ∀ frame ∈ inner', frame.vars.Each P := by
  induction inner generalizing inner' with
  | nil => cases ha
  | cons frame rest ih =>
    rw [List.forall_mem_cons] at h
    unfold assignInner? at ha
    split at ha
    · obtain rfl := Option.some.inj ha
      exact List.forall_mem_cons.mpr ⟨h.1.set hv, h.2⟩
    · obtain ⟨rest', hr, rfl⟩ := Option.map_eq_some_iff.mp ha
      exact List.forall_mem_cons.mpr ⟨h.1, ih h.2 hr⟩

theorem Each.assign? (h : fs.Each P) (hv : P value) (ha : fs.assign? name value = some gs) :
    gs.Each P := by
  obtain ⟨inner, globals⟩ := fs
  obtain ⟨hinner, hglobals⟩ := each_mk.mp h
  unfold Frames.assign? at ha
  split at ha
  next inner' hi =>
    obtain rfl := Option.some.inj ha
    exact each_mk.mpr ⟨each_assignInner? hinner hv hi, hglobals⟩
  next =>
    split at ha
    · obtain rfl := Option.some.inj ha
      exact each_mk.mpr ⟨hinner, hglobals.set hv⟩
    · cases ha

end Frames

namespace Heap

/-- Every field of every instance has a value with a property. -/
def Each (P : V → Prop) (h : Heap V) : Prop :=
  ∀ (i : Nat) (x : Instance V), h.instances[i]? = some x → x.fields.Each P

variable {h h' : Heap V} {id : InstanceId} {name : Text} {value : V}

theorem Each.mono (hp : h.Each P) (hPQ : ∀ v, P v → Q v) : h.Each Q :=
  fun i x hx => (hp i x hx).mono hPQ

theorem Each.new (hp : h.Each P) (cls : ClassId) : (h.new cls).2.Each P := by
  intro i x hx
  have hx : (h.instances.push ⟨cls, .empty⟩)[i]? = some x := hx
  rw [Array.getElem?_push] at hx
  split at hx
  · obtain rfl := Option.some.inj hx
    exact Bindings.Each.empty
  · exact hp i x hx

theorem size_new (h : Heap V) (cls : ClassId) : (h.new cls).2.size = h.size + 1 := by
  simp [Heap.new, Heap.size]

/-- The number of a new instance is that of an instance. -/
theorem new_valid (h : Heap V) (cls : ClassId) :
    0 < (h.new cls).1 ∧ (h.new cls).1 ≤ (h.new cls).2.size := by
  have hnew : (h.new cls).1 = Int.ofNat (h.size + 1) := rfl
  rw [size_new, hnew]
  exact ⟨Int.ofNat_lt.mpr (Nat.succ_pos _), Int.le_refl _⟩

theorem Each.field? (hp : h.Each P) (hf : h.field? id name = some value) : P value := by
  obtain ⟨x, hx, hv⟩ := Option.bind_eq_some_iff.mp hf
  obtain ⟨i, -, hi⟩ := Option.bind_eq_some_iff.mp hx
  exact (hp i x hi).get? hv

theorem Each.setField (hp : h.Each P) (hv : P value)
    (hs : h.setField id name value = .ok h') : h'.Each P := by
  unfold Heap.setField at hs
  split at hs
  · cases hs
  · split at hs
    · cases hs
    · obtain rfl := Except.ok.inj hs
      intro j x hx
      rw [Array.getElem?_modify] at hx
      split at hx
      · obtain ⟨y, hy, rfl⟩ := Option.map_eq_some_iff.mp hx
        exact (hp j y hy).set hv
      · exact hp j x hx

theorem size_setField (hs : h.setField id name value = .ok h') : h'.size = h.size := by
  unfold Heap.setField at hs
  split at hs
  · cases hs
  · split at hs
    · cases hs
    · obtain rfl := Except.ok.inj hs
      exact Array.size_modify ..

theorem index?_eq_some (hid : 0 < id ∧ id ≤ h.size) : h.index? id = some (id.toNat - 1) := by
  simp [index?, hid]

/-- A field with a name can be written in every instance. -/
theorem setField_isOk (value : V) (hid : 0 < id ∧ id ≤ h.size) (hn : name ≠ []) :
    ∃ h', h.setField id name value = .ok h' := by
  have hempty : ¬ name.isEmpty = true := by simpa using hn
  unfold Heap.setField
  rw [index?_eq_some hid]
  simp only [hempty]
  exact ⟨_, rfl⟩

/-- Every number up to the number of instances refers to an instance. -/
theorem ref?_isSome (hid : 0 < id ∧ id ≤ h.size) :
    ∃ cls, h.ref? id = some (.object id (some cls)) := by
  have hlt : id.toNat - 1 < h.instances.size := by
    have hpos : 0 < id.toNat := Int.pos_iff_toNat_pos.mp hid.1
    have hle : id.toNat ≤ h.instances.size := Int.toNat_le.mpr hid.2
    omega
  refine ⟨h.instances[id.toNat - 1].cls, ?_⟩
  simp [ref?, instance?, index?_eq_some hid, hlt]

end Heap

end Dynascope
