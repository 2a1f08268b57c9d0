import Dynascope.Eval.Run
import Dynascope.Proofs.Outcome
import Dynascope.Proofs.Scope.Contents
import Dynascope.Proofs.Store.Methods

/-!
# Orderly machines

What values refer to is there and stays as it is: instances keep their classes, classes keep their
superclasses and methods, and methods belong to the classes in whose tables they stand.

* `Machine.Grows`: a machine with all objects of an earlier one.
* `Value.Sits`: a value whose object is in its place on a machine.
* `Machine.Orderly`: the invariant of the machine.
* `Keeps act m Q`: from an orderly machine, `act` leads to an orderly one with more objects, and its
  result has the property `Q` there. The rules (`Keeps.bind` and so on) follow the structure of a
  computation.
* `lookup_keeps`, `newClass_keeps` and so on: the steps of evaluation keep machines orderly.
-/

namespace Dynascope

/-! ## Classes of instances -/

/-- The class recorded for an instance. -/
def Heap.classOf? {V : Type} (h : Heap V) (id : InstanceId) : Option ClassId :=
  (h.instance? id).map Instance.cls

namespace Heap

variable {V : Type} {h h' : Heap V} {id : Int} {cls : ClassId}

theorem instance?_eq (h : Heap V) (id : Int) :
    h.instance? id = if 0 < id then h.instances[id.toNat - 1]? else none := by
  unfold instance? index?
  by_cases hpos : 0 < id
  · by_cases hle : id ≤ (h.size : Int)
    · simp [hpos, hle]
    · have hsize : h.size = h.instances.size := rfl
      have hout : h.instances.size ≤ id.toNat - 1 := by omega
      simp [hpos, hle, hout]
  · simp [hpos]

theorem classOf?_eq_some : h.classOf? id = some cls ↔
    0 < id ∧ ∃ x, h.instances[id.toNat - 1]? = some x ∧ x.cls = cls := by
  rw [classOf?, instance?_eq]
  split
  next hpos => simp [hpos]
  next hpos => simp [hpos]

/-- An instance has a number from 1 up to the number of instances. -/
theorem bounds_of_classOf? (hc : h.classOf? id = some cls) : 1 ≤ id ∧ id ≤ (h.size : Int) := by
  obtain ⟨hpos, x, hx, -⟩ := classOf?_eq_some.mp hc
  have hlt : id.toNat - 1 < h.size := (Array.getElem?_eq_some_iff.mp hx).1
  omega

theorem classOf?_new_self (h : Heap V) (cls : ClassId) :
    (h.new cls).2.classOf? (h.new cls).1 = some cls := by
  refine classOf?_eq_some.mpr ⟨(h.new_valid cls).1, ⟨cls, .empty⟩, ?_, rfl⟩
  have hindex : ((h.new cls).1).toNat - 1 = h.instances.size := by
    show (Int.ofNat (h.size + 1)).toNat - 1 = h.size
    simp
  show (h.instances.push ⟨cls, .empty⟩)[_]? = _
  rw [hindex]
  exact Array.getElem?_push_size

theorem classOf?_new (hc : h.classOf? id = some cls) (other : ClassId) :
    (h.new other).2.classOf? id = some cls := by
  obtain ⟨hpos, x, hx, hcls⟩ := classOf?_eq_some.mp hc
  refine classOf?_eq_some.mpr ⟨hpos, x, ?_, hcls⟩
  have hlt : id.toNat - 1 < h.instances.size := (Array.getElem?_eq_some_iff.mp hx).1
  show (h.instances.push ⟨other, .empty⟩)[_]? = _
  rw [Array.getElem?_push, if_neg (Nat.ne_of_lt hlt)]
  exact hx

/-- A field does not change the class of an instance. -/
theorem classOf?_setField {other : InstanceId} {name : Text} {value : V}
    (hs : h.setField other name value = .ok h') (hc : h.classOf? id = some cls) :
    h'.classOf? id = some cls := by
  obtain ⟨hpos, x, hx, hcls⟩ := classOf?_eq_some.mp hc
  unfold Heap.setField at hs
  split at hs
  · cases hs
  split at hs
  · cases hs
  obtain rfl := Except.ok.inj hs
  rw [classOf?_eq_some]
  refine ⟨hpos, ?_⟩
  dsimp only
  rw [Array.getElem?_modify, hx]
  split
  · exact ⟨_, rfl, hcls⟩
  · exact ⟨x, rfl, hcls⟩

theorem ref?_eq_some {v : Value} (hr : h.ref? id = some v) :
    ∃ cls, v = .object id (some cls) ∧ h.classOf? id = some cls := by
  obtain ⟨x, hx, rfl⟩ := Option.map_eq_some_iff.mp hr
  exact ⟨x.cls, rfl, congrArg (Option.map Instance.cls) hx⟩

end Heap

/-! ## The invariant -/

/-- The second machine has all objects of the first. Instances keep their classes; function objects
and classes do not change at all. -/
structure Machine.Grows (m m' : Machine) : Prop where
  heap : m.heap.size ≤ m'.heap.size
  instances : ∀ {id cls}, m.heap.classOf? id = some cls → m'.heap.classOf? id = some cls
  store : m.store.Extends m'.store

/-- The object of the value is in its place: a function that has an owner in the table of the owner,
a class among the classes, and an instance under its number, with the class it was made from. -/
def Value.Sits (m : Machine) : Value → Prop
  | .function id => ∃ f, m.store.function? id = some f ∧ f.Placed m.store
  | .cls id => id < m.store.classes.size
  | .object id c => ∃ cls, c = some cls ∧ m.heap.classOf? id = some cls
  | _ => True

/-- The values that a stop tells of. -/
def Stop.values : Stop → List Value
  | .fault ⟨.unexpectedValue value _, _⟩ => value.toList
  | _ => []

theorem Stop.values_attributedTo (stop : Stop) (token : Option Token) :
    (stop.attributedTo token).values = stop.values := by
  cases stop with
  | fault e =>
    obtain ⟨fault, place⟩ := e
    cases fault <;> rfl
  | _ => rfl

/-- The values that a stop tells of are in their places. -/
def Stop.Sits (m : Machine) (stop : Stop) : Prop :=
  ∀ v ∈ stop.values, v.Sits m

/-- Variables and fields hold values whose objects are in their places, functions are bound to
instances that exist, every superclass is older than the class, and every method belongs to the
class in whose table it stands. -/
structure Machine.Orderly (m : Machine) : Prop where
  frames : m.frames.Each (Value.Sits m)
  fields : m.heap.Each (Value.Sits m)
  bound : ∀ {id f}, m.store.function? id = some f → f.isBound = true →
    ∃ cls, m.heap.classOf? f.this = some cls
  descends : m.store.Descends
  owned : m.store.Owned

namespace Machine

variable {m m' m'' : Machine}

theorem Grows.refl (m : Machine) : m.Grows m :=
  ⟨Nat.le_refl _, id, .refl _⟩

theorem Grows.trans (h : m.Grows m') (k : m'.Grows m'') : m.Grows m'' :=
  ⟨Nat.le_trans h.heap k.heap, fun hc => k.instances (h.instances hc), h.store.trans k.store⟩

theorem Grows.sits (h : m.Grows m') {v : Value} (hv : v.Sits m) : v.Sits m' := by
  cases v with
  | function id =>
    obtain ⟨f, hf, hplaced⟩ := hv
    exact ⟨f, h.store.functions hf, h.store.placed hplaced⟩
  | cls id =>
    have hid : id < m.store.classes.size := hv
    have hold : m.store.class? id = some m.store.classes[id] := Array.getElem?_eq_getElem hid
    exact (Array.getElem?_eq_some_iff.mp (h.store.classes hold)).1
  | object id cls =>
    obtain ⟨c, hcls, hc⟩ := hv
    exact ⟨c, hcls, h.instances hc⟩
  | _ => trivial

/-- The superclass of a class is a class. -/
theorem Orderly.superclass_lt (hm : m.Orderly) {f : Function} {parent : ClassId}
    (h : m.store.superclassOf? f = some parent) : parent < m.store.classes.size := by
  obtain ⟨c, hc, hparent⟩ := Option.bind_eq_some_iff.mp h
  obtain ⟨owner, -, howner⟩ := Option.bind_eq_some_iff.mp hc
  have hlt : parent < owner := hm.descends owner parent ⟨c, howner, hparent⟩
  exact Nat.lt_trans hlt (Array.getElem?_eq_some_iff.mp howner).1

/-- Only frames, heap and store matter. -/
theorem Orderly.of_frames (hm : m.Orderly) (hheap : m'.heap = m.heap) (hstore : m'.store = m.store)
    (h : m'.frames.Each (Value.Sits m)) : m'.Orderly ∧ m.Grows m' := by
  obtain ⟨frames, heap, store, depth, maxDepth, written, writesLeft, nextSite⟩ := m'
  dsimp only at hheap hstore
  subst hheap hstore
  exact ⟨⟨h, hm.fields, hm.bound, hm.descends, hm.owned⟩, ⟨Nat.le_refl _, id, .refl _⟩⟩

end Machine

namespace Eval

open Machine

variable {α β : Type} {m : Machine}

/-- From an orderly machine, the computation leads to an orderly one with more objects, with a
result that has the property there or with a stop that tells of values in their places. -/
def Keeps (act : Eval α) (m : Machine) (Q : α → Machine → Prop) : Prop :=
  m.Orderly → Ends act m (fun a m' => (m'.Orderly ∧ m.Grows m') ∧ Q a m')
    (fun stop m' => (m'.Orderly ∧ m.Grows m') ∧ stop.Sits m')

/-- The result is a value in its place. -/
abbrev InPlace (v : Value) (m : Machine) : Prop :=
  v.Sits m

namespace Keeps

variable {act : Eval α} {Q : α → Machine → Prop} {P : β → Machine → Prop}

theorem of_orderly (h : m.Orderly → Keeps act m Q) : Keeps act m Q :=
  fun hm => h hm hm

theorem pure {a : α} (h : Q a m) : Keeps (Pure.pure a) m Q :=
  fun hm => ⟨⟨hm, .refl m⟩, h⟩

theorem throw {stop : Stop} (h : stop.Sits m) : Keeps (MonadExcept.throw stop) m Q :=
  fun hm => ⟨⟨hm, .refl m⟩, h⟩

/-- A fault that tells of no value. -/
theorem fail {fault : Fault} {token : Option Token}
    (h : Stop.values (.fault ⟨fault, token⟩) = []) : Keeps (Eval.fail fault token) m Q := by
  refine throw fun v hv => ?_
  rw [h] at hv
  cases hv

theorem unexpected {value : Value} {expected : ValueKind} {token : Option Token}
    (h : value.Sits m) : Keeps (Eval.unexpected value expected token) m Q :=
  throw fun v hv => by rwa [List.mem_singleton.mp hv]

theorem bind {f : α → Eval β} (h : Keeps act m Q)
    (hf : ∀ a m', m.Grows m' → Q a m' → Keeps (f a) m' P) : Keeps (act >>= f) m P := by
  intro hm
  refine Ends.bind (h hm) ?_
  rintro a m' ⟨⟨horderly, hgrows⟩, hq⟩
  refine Ends.imp (hf a m' hgrows hq horderly) ?_ ?_
  · rintro b m'' ⟨⟨hlast, hmore⟩, hp⟩
    exact ⟨⟨hlast, hgrows.trans hmore⟩, hp⟩
  · rintro stop m'' ⟨⟨hlast, hmore⟩, hstop⟩
    exact ⟨⟨hlast, hgrows.trans hmore⟩, hstop⟩

/-- The machine is read first. -/
theorem get_bind {f : Machine → Eval β} (h : Keeps (f m) m P) :
    Keeps (MonadState.get >>= f) m P :=
  h

/-- A change of the machine that leaves heap and store alone. -/
theorem modify {f : Machine → Machine} {Q : PUnit → Machine → Prop}
    (hheap : (f m).heap = m.heap) (hstore : (f m).store = m.store)
    (hframes : m.Orderly → (f m).frames.Each (Value.Sits m)) (hq : Q ⟨⟩ (f m)) :
    Keeps (modify f) m Q :=
  fun hm => ⟨hm.of_frames hheap hstore (hframes hm), hq⟩

end Keeps

/-! ## The operations of the machine -/

theorem required_keeps (x : Option α) : Keeps (required x) m fun a _ => x = some a := by
  cases x with
  | none => exact .throw nofun
  | some a => exact .pure rfl

theorem lookup_keeps (name : Text) (token : Option Token) :
    Keeps (lookup name token) m InPlace := by
  refine .get_bind (.of_orderly fun hm => ?_)
  split
  next v hv => exact .pure (hm.frames.get? hv)
  next => exact .fail rfl

theorem define_keeps {name : Text} {value : Value} (hv : value.Sits m) :
    Keeps (define name value) m fun _ _ => True := by
  intro hm
  unfold Ends define
  cases hd : m.frames.define? name value with
  | some frames => exact ⟨hm.of_frames rfl rfl (hm.frames.define? hv hd), trivial⟩
  | none => exact ⟨⟨hm, .refl m⟩, nofun⟩

theorem assign_keeps {name : Token} {value : Value} (hv : value.Sits m) :
    Keeps (assign name value) m fun _ _ => True := by
  intro hm
  unfold Ends assign
  cases ha : m.frames.assign? name.lexeme value with
  | some frames => exact ⟨hm.of_frames rfl rfl (hm.frames.assign? hv ha), trivial⟩
  | none => exact ⟨⟨hm, .refl m⟩, nofun⟩

/-- A change of the store that adds objects only. -/
theorem Orderly.of_store (hm : m.Orderly) {store : Store} (hstore : m.store.Extends store)
    (hbound : ∀ {id f}, store.function? id = some f → f.isBound = true →
      ∃ cls, m.heap.classOf? f.this = some cls)
    (hdescends : store.Descends) (howned : store.Owned) :
    Orderly { m with store := store } ∧ m.Grows { m with store := store } := by
  have hgrows : m.Grows { m with store := store } := ⟨Nat.le_refl _, id, hstore⟩
  exact ⟨⟨hm.frames.mono fun _ => hgrows.sits, hm.fields.mono fun _ => hgrows.sits, hbound,
    hdescends, howned⟩, hgrows⟩

theorem newFunction_keeps {f : Function}
    (hf : f.isBound = true → ∃ cls, m.heap.classOf? f.this = some cls) :
    Keeps (newFunction f) m fun id m' => m'.store.function? id = some f ∧ m.Grows m' := by
  intro hm
  have hextends := m.store.extends_addFunction f
  have hstore := Orderly.of_store hm hextends
    (fun {id g} hg hb => by
      rcases Store.function?_of_addFunction hg with rfl | hold
      · exact hf hb
      · exact hm.bound hold hb)
    hm.descends
    (fun id c name method hc hget => by
      obtain ⟨g, hg, hfacts⟩ := hm.owned id c name method hc hget
      exact ⟨g, hextends.functions hg, hfacts⟩)
  exact ⟨hstore, m.store.function?_addFunction f, hstore.2⟩

theorem newInstance_keeps (cls : ClassId) :
    Keeps (newInstance cls) m fun id m' => (Value.object id (some cls)).Sits m' := by
  intro hm
  have hgrows : m.Grows { m with heap := (m.heap.new cls).2 } := by
    refine ⟨?_, fun hc => Heap.classOf?_new hc cls, .refl _⟩
    show m.heap.size ≤ (m.heap.new cls).2.size
    rw [Heap.size_new]
    exact Nat.le_succ _
  have horderly : Orderly { m with heap := (m.heap.new cls).2 } :=
    ⟨hm.frames.mono fun _ => hgrows.sits, (hm.fields.new cls).mono fun _ => hgrows.sits,
      fun hf hb => (hm.bound hf hb).imp fun _ => hgrows.instances, hm.descends, hm.owned⟩
  exact ⟨⟨horderly, hgrows⟩, cls, rfl, Heap.classOf?_new_self _ _⟩

/-- The superclass has to be a class already, so no class becomes its own ancestor. -/
theorem newClass_keeps (name : Text) {superclass : Option ClassId}
    (hs : ∀ parent, superclass = some parent → parent < m.store.classes.size)
    (methods : List FunDecl) :
    Keeps (newClass name superclass methods) m fun id m' => (Value.cls id).Sits m' := by
  intro hm
  have hunbound : ∀ f ∈ methods.map fun d => Function.ofDecl d none, f.this = 0 := by
    intro f hf
    obtain ⟨d, -, rfl⟩ := List.mem_map.mp hf
    rfl
  have hstore := Orderly.of_store hm
    (m.store.extends_addDeclared name superclass (methods.map fun d => .ofDecl d none))
    (fun {id f} hf hb => by
      rcases Store.function?_of_addDeclared hf with hold | ⟨g, hg, rfl⟩
      · exact hm.bound hold hb
      · have hzero : g.this = 0 := hunbound g hg
        simp [Function.isBound, hzero] at hb)
    (hm.descends.addDeclared hs name _) (hm.owned.addDeclared name superclass hunbound)
  refine ⟨hstore, ?_⟩
  obtain ⟨table, hclasses, -⟩ :=
    m.store.classes_addDeclared name superclass (methods.map fun d => .ofDecl d none)
  have hnew : (m.store.addDeclared name superclass (methods.map fun d => .ofDecl d none)).1 =
      m.store.classes.size := by
    show (m.store.addFunctions _).2.classes.size = _
    rw [Store.addFunctions_eq]
  show (m.store.addDeclared name superclass _).1 <
    (m.store.addDeclared name superclass _).2.classes.size
  rw [hnew, hclasses, Array.size_push]
  exact Nat.lt_succ_self _

/-- A method that is found is bound to an instance. -/
theorem boundMethod_keeps (cls : Option ClassId) (name : Text) {id : InstanceId}
    {c : Option ClassId} (hid : (Value.object id c).Sits m) :
    Keeps (boundMethod (cls.bind fun k => m.store.findMethod? k name) id) m InPlace := by
  refine .get_bind (.of_orderly fun hm => ?_)
  split
  next f hf =>
    obtain ⟨method, hmethod, hf⟩ := Option.bind_eq_some_iff.mp hf
    obtain ⟨k, -, hfound⟩ := Option.bind_eq_some_iff.mp hmethod
    obtain ⟨cls', -, hcls⟩ := hid
    refine .bind (newFunction_keeps fun _ => ⟨cls', hcls⟩) fun new m' _ hnew => .pure ?_
    exact ⟨f.bind id, hnew.1, hnew.2.store.placed (hm.owned.placed_bind hfound hf id)⟩
  next => exact .pure trivial

theorem property_keeps {id : InstanceId} {cls : Option ClassId} (name : Text)
    (hid : (Value.object id cls).Sits m) : Keeps (property id cls name) m InPlace := by
  refine .get_bind (.of_orderly fun hm => ?_)
  split
  next v hv => exact .pure (hm.fields.field? hv)
  next => exact boundMethod_keeps cls name hid

theorem setField_keeps (id : InstanceId) (name : Token) {value : Value} (hv : value.Sits m) :
    Keeps (setField id name value) m fun _ _ => True := by
  intro hm
  unfold Ends setField
  cases hs : m.heap.setField id name.lexeme value with
  | ok heap =>
    have hgrows : m.Grows { m with heap := heap } :=
      ⟨Nat.le_of_eq (Heap.size_setField hs).symm, Heap.classOf?_setField hs, .refl _⟩
    exact ⟨⟨⟨hm.frames.mono fun _ => hgrows.sits,
      (hm.fields.setField hv hs).mono fun _ => hgrows.sits,
      fun hf hb => (hm.bound hf hb).imp fun _ => hgrows.instances, hm.descends, hm.owned⟩, hgrows⟩,
      trivial⟩
  | error e => cases e <;> exact ⟨⟨hm, .refl m⟩, nofun⟩

theorem write_keeps (text : Text) : Keeps (write text) m fun _ _ => True := by
  intro hm
  unfold Ends write
  cases m.writesLeft with
  | none => exact ⟨hm.of_frames rfl rfl hm.frames, trivial⟩
  | some n =>
    cases n with
    | zero => exact ⟨⟨hm, .refl m⟩, nofun⟩
    | succ n => exact ⟨hm.of_frames rfl rfl hm.frames, trivial⟩

theorem number_keeps {operator : Token} {value : Value} (hv : value.Sits m) :
    Keeps (number operator value) m fun _ _ => True := by
  unfold number
  split
  · exact .pure trivial
  · exact .unexpected hv

theorem unaryOp_keeps {operator : Token} {right : Value} (hr : right.Sits m) :
    Keeps (unaryOp operator right) m InPlace := by
  unfold unaryOp
  split
  · exact .pure trivial
  · exact .bind (number_keeps hr) fun x m' _ _ => .pure trivial
  · exact .fail rfl

theorem arithmetic?_sits {kind : Kind} {x y : Float} {v : Value}
    (h : arithmetic? kind x y = some v) : v.Sits m := by
  unfold arithmetic? at h
  split at h <;> cases h <;> trivial

theorem numericOp_keeps {operator : Token} {left right : Value} (hl : left.Sits m)
    (hr : right.Sits m) : Keeps (numericOp operator left right) m InPlace := by
  refine .bind (number_keeps hl) fun x m' hgrows _ => ?_
  refine .bind (number_keeps (hgrows.sits hr)) fun y m'' _ _ => ?_
  split
  · split
    · exact .fail rfl
    · exact .pure trivial
  · split
    next v hv => exact .pure (arithmetic?_sits hv)
    next => exact .fail rfl

theorem binaryOp_keeps {operator : Token} {left right : Value} (hl : left.Sits m)
    (hr : right.Sits m) : Keeps (binaryOp operator left right) m InPlace := by
  refine .get_bind ?_
  split
  · exact .pure trivial
  · exact .pure trivial
  · split
    · exact .pure trivial
    · exact numericOp_keeps hl hr
  · exact numericOp_keeps hl hr

theorem decides_keeps (operator : Token) (left : Value) :
    Keeps (decides operator left) m fun _ _ => True := by
  unfold decides
  split
  · exact .pure trivial
  · exact .pure trivial
  · exact .fail rfl

theorem superMethod_keeps (keyword : Option Token) (method : Token) :
    Keeps (superMethod keyword method) m InPlace := by
  refine .bind (lookup_keeps _ _) fun s m' _ hs => ?_
  cases s with
  | cls superclass =>
    refine .bind (lookup_keeps _ _) fun t m'' _ ht => ?_
    cases t with
    | object id cls => exact .get_bind (boundMethod_keeps (some superclass) method.lexeme ht)
    | _ => exact .unexpected ht
  | _ => exact .unexpected hs

end Eval

end Dynascope
