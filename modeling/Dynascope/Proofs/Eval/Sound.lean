import Dynascope.Eval.Run
import Dynascope.Proofs.Outcome
import Dynascope.Proofs.Scope.Contents
import Dynascope.Proofs.Tree.Proper

/-!
# Sound machines

On a sound machine every reference that a variable or field holds leads to an object, and every
function object can be called: its body is a block with all its parts.

* `Extent`: the number of function objects and instances, which only grows.
* `Value.Within`: a value that refers to nothing outside an extent.
* `Machine.Sound`: the invariant of the machine; `Machine.Later`: a sound machine with more objects.
* `Stop.Proper`: a stop that the program, its output or its fuel is to blame for.
* `Safe act m Q`: from a sound machine, `act` leads to a later sound one, and its result has the
  property `Q` or its stop is proper. The rules (`Safe.bind`, `Safe.withFrame` and so on) follow the
  structure of a computation.
* `lookup_safe`, `define_safe` and so on: the steps of evaluation are safe.
-/

namespace Dynascope

/-- How many function objects and instances there are. -/
structure Extent where
  functions : Nat
  instances : Nat

/-- The second extent takes in the first. -/
structure Extent.Le (x y : Extent) : Prop where
  functions : x.functions ≤ y.functions
  instances : x.instances ≤ y.instances

theorem Extent.Le.refl (x : Extent) : x.Le x :=
  ⟨Nat.le_refl _, Nat.le_refl _⟩

theorem Extent.Le.trans {x y z : Extent} (h : x.Le y) (k : y.Le z) : x.Le z :=
  ⟨Nat.le_trans h.functions k.functions, Nat.le_trans h.instances k.instances⟩

/-- The number is that of an instance. -/
def Extent.Holds (x : Extent) (id : InstanceId) : Prop :=
  0 < id ∧ id ≤ x.instances

theorem Extent.Holds.mono {x y : Extent} {id : InstanceId} (h : x.Holds id) (hxy : x.Le y) :
    y.Holds id :=
  ⟨h.1, Int.le_trans h.2 (Int.ofNat_le.mpr hxy.instances)⟩

/-- The value refers to nothing outside the extent. -/
def Value.Within (x : Extent) : Value → Prop
  | .function id => id < x.functions
  | .object id _ => x.Holds id
  | _ => True

theorem Value.Within.mono {x y : Extent} {v : Value} (h : v.Within x) (hxy : x.Le y) :
    v.Within y := by
  cases v with
  | function id => exact Nat.lt_of_lt_of_le h hxy.functions
  | object id cls => exact Extent.Holds.mono h hxy
  | _ => trivial

/-- The function can be called: its parameters have names, its body is a block with all its parts,
and the instance it is bound to exists. -/
structure Function.Sound (x : Extent) (f : Function) : Prop where
  params : ∀ name ∈ f.params, name ≠ []
  code : match f.code with
    | .print => f.params ≠ []
    | .declared _ body => ProperBody body
  this : f.isBound = true → x.Holds f.this

theorem Function.Sound.mono {x y : Extent} {f : Function} (h : f.Sound x) (hxy : x.Le y) :
    f.Sound y :=
  ⟨h.params, h.code, fun hb => (h.this hb).mono hxy⟩

namespace Store

/-- Every function object can be called. -/
def Callable (x : Extent) (s : Store) : Prop :=
  ∀ id f, s.function? id = some f → f.Sound x

variable {x : Extent} {s : Store}

theorem Callable.mono {y : Extent} (h : s.Callable x) (hxy : x.Le y) : s.Callable y :=
  fun id f hf => (h id f hf).mono hxy

theorem Callable.addFunction (h : s.Callable x) {f : Function} (hf : f.Sound x) :
    (s.addFunction f).2.Callable x := by
  intro id g hg
  have hg : (s.functions.push f)[id]? = some g := hg
  rw [Array.getElem?_push] at hg
  split at hg
  · exact Option.some.inj hg ▸ hf
  · exact h id g hg

theorem Callable.addFunctions (h : s.Callable x) {fs : List Function}
    (hfs : ∀ f ∈ fs, f.Sound x) : (s.addFunctions fs).2.Callable x := by
  induction fs generalizing s with
  | nil => exact h
  | cons f fs ih =>
    rw [List.forall_mem_cons] at hfs
    exact ih (h.addFunction hfs.1) hfs.2

/-- The owner of a function does not matter. -/
theorem Callable.own (h : s.Callable x) (owner : ClassId) (id : FunctionId) :
    (s.own owner id).Callable x := by
  intro j g hg
  have hg : (s.functions.modify id fun f => { f with owner := some owner })[j]? = some g := hg
  rw [Array.getElem?_modify] at hg
  split at hg
  · obtain ⟨f, hf, rfl⟩ := Option.map_eq_some_iff.mp hg
    have hsound := h j f hf
    exact ⟨hsound.params, hsound.code, hsound.this⟩
  · exact h j g hg

theorem Callable.addClass (h : s.Callable x) (name : Text) (superclass : Option ClassId)
    (methods : List FunctionId) : (s.addClass name superclass methods).2.Callable x := by
  have howned : ∀ owner : ClassId, (methods.foldl (fun s m => s.own owner m) s).Callable x := by
    intro owner
    induction methods generalizing s with
    | nil => exact h
    | cons id methods ih => exact ih (h.own owner id)
  exact howned s.classes.size

theorem size_addFunctions (s : Store) (fs : List Function) :
    s.functions.size ≤ (s.addFunctions fs).2.functions.size := by
  induction fs generalizing s with
  | nil => exact Nat.le_refl _
  | cons f fs ih =>
    have hone : s.functions.size ≤ (s.addFunction f).2.functions.size := by simp [Store.addFunction]
    exact Nat.le_trans hone (ih _)

theorem size_addClass (s : Store) (name : Text) (superclass : Option ClassId)
    (methods : List FunctionId) :
    (s.addClass name superclass methods).2.functions.size = s.functions.size := by
  have howned : ∀ owner : ClassId,
      (methods.foldl (fun s m => s.own owner m) s).functions.size = s.functions.size := by
    intro owner
    induction methods generalizing s with
    | nil => rfl
    | cons id methods ih =>
      rw [List.foldl_cons, ih]
      exact Array.size_modify ..
  exact howned s.classes.size

end Store

namespace Machine

/-- The number of function objects and instances of a machine. -/
def extent (m : Machine) : Extent :=
  ⟨m.store.functions.size, m.heap.size⟩

/-- Variables and fields refer to objects that exist, and function objects can be called. -/
structure Sound (m : Machine) : Prop where
  frames : m.frames.Each (Value.Within m.extent)
  fields : m.heap.Each (Value.Within m.extent)
  functions : m.store.Callable m.extent

/-- A sound machine that has all objects of an earlier one. -/
structure Later (m m' : Machine) : Prop where
  sound : m'.Sound
  extent : m.extent.Le m'.extent

theorem Sound.later {m : Machine} (h : m.Sound) : m.Later m :=
  ⟨h, .refl _⟩

theorem Later.trans {m m' m'' : Machine} (h : m.Later m') (k : m'.Later m'') : m.Later m'' :=
  ⟨k.sound, h.extent.trans k.extent⟩

end Machine

/-! ## Stops and safe computations -/

/-- A fault that only a malformed tree or machine can have. -/
def Fault.isInternal : Fault → Bool
  | .unreachable => true
  | .missingBlock => true
  | _ => false

/-- A stop that the program, its output or its fuel is to blame for. An error has a token. -/
def Stop.Proper : Stop → Prop
  | .fault e => e.fault.isInternal = false ∧ e.token.isSome
  | .writeFailed => True
  | .outOfFuel => True
  | .emptyName => False
  | .missingArgument => False
  | .missingPart => False

theorem Stop.Proper.attributedTo {s : Stop} (h : s.Proper) (token : Option Token) :
    (s.attributedTo token).Proper := by
  cases s with
  | fault e =>
    obtain ⟨hf, ht⟩ := h
    refine ⟨hf, ?_⟩
    obtain ⟨t, ht⟩ := Option.isSome_iff_exists.mp ht
    simp [RuntimeError.attributedTo, ht]
  | _ => exact h

namespace Eval

open Machine

variable {α β : Type} {m : Machine}

/-- From a sound machine, the computation leads to a later sound one, with a result that has the
property there or with a proper stop. -/
def Safe (act : Eval α) (m : Machine) (Q : α → Extent → Prop) : Prop :=
  m.Sound → Ends act m (fun a m' => m.Later m' ∧ Q a m'.extent)
    (fun stop m' => m.Later m' ∧ stop.Proper)

namespace Safe

variable {act : Eval α} {Q : α → Extent → Prop} {P : β → Extent → Prop}

theorem of_sound (h : m.Sound → Safe act m Q) : Safe act m Q :=
  fun hm => h hm hm

theorem pure {a : α} (h : Q a m.extent) : Safe (Pure.pure a) m Q :=
  fun hm => ⟨hm.later, h⟩

theorem throw {stop : Stop} (h : stop.Proper) : Safe (MonadExcept.throw stop) m Q :=
  fun hm => ⟨hm.later, h⟩

theorem fail {fault : Fault} {token : Option Token} (hf : fault.isInternal = false)
    (ht : token.isSome) : Safe (Eval.fail fault token) m Q :=
  throw ⟨hf, ht⟩

theorem unexpected {value : Value} {expected : ValueKind} {token : Option Token}
    (ht : token.isSome) : Safe (Eval.unexpected value expected token) m Q :=
  fail rfl ht

theorem bind {f : α → Eval β} (h : Safe act m Q)
    (hf : ∀ a m', m.extent.Le m'.extent → Q a m'.extent → Safe (f a) m' P) :
    Safe (act >>= f) m P := by
  intro hm
  refine Ends.bind (h hm) ?_
  rintro a m' ⟨hlater, hq⟩
  refine Ends.imp (hf a m' hlater.extent hq hlater.sound) ?_ ?_
  · rintro b m'' ⟨hl, hp⟩
    exact ⟨hlater.trans hl, hp⟩
  · rintro stop m'' ⟨hl, hp⟩
    exact ⟨hlater.trans hl, hp⟩

/-- The machine is read first. -/
theorem get_bind {f : Machine → Eval β} (h : Safe (f m) m P) :
    Safe (MonadState.get >>= f) m P :=
  h

/-- A computation between a change of the machine and the change that undoes it. -/
theorem around {enter leave : Machine → Machine} (h : Safe act (enter m) Q)
    (henter : m.Sound → (enter m).Sound)
    (hleave : ∀ m', (enter m).Later m' → m.Later (leave m') ∧ (leave m').extent = m'.extent) :
    Safe (fun m => match act (enter m) with
      | .ok a m' => .ok a (leave m')
      | .error e m' => .error e (leave m')) m Q := by
  intro hm
  have hend := h (henter hm)
  unfold Ends at hend ⊢
  split at hend
  next a m' hr =>
    obtain ⟨hl, hx⟩ := hleave m' hend.1
    simp only [hr]
    exact ⟨hl, hx ▸ hend.2⟩
  next stop m' hr =>
    simp only [hr]
    exact ⟨(hleave m' hend.1).1, hend.2⟩

theorem withFrame {name : Text} (h : Safe act { m with frames := m.frames.push name } Q) :
    Safe (Eval.withFrame name act) m Q := by
  refine around h (fun hm => ⟨hm.frames.push name, hm.fields, hm.functions⟩) fun m' hl => ?_
  exact ⟨⟨⟨hl.sound.frames.pop, hl.sound.fields, hl.sound.functions⟩, hl.extent⟩, rfl⟩

theorem counted (h : Safe act { m with depth := m.depth + 1 } Q) :
    Safe (Eval.counted act) m Q := by
  refine around h (fun hm => ⟨hm.frames, hm.fields, hm.functions⟩) fun m' hl => ?_
  exact ⟨⟨⟨hl.sound.frames, hl.sound.fields, hl.sound.functions⟩, hl.extent⟩, rfl⟩

theorem attributed {token : Option Token} (h : Safe act m Q) :
    Safe (Eval.attributed token act) m Q := by
  intro hm
  have hend := h hm
  unfold Ends at hend ⊢
  unfold Eval.attributed
  split at hend
  next a m' hr =>
    simp only [hr]
    exact hend
  next stop m' hr =>
    simp only [hr]
    exact ⟨hend.1, hend.2.attributedTo token⟩

end Safe

/-! ## The steps of evaluation -/

/-- The result is a value that refers to nothing outside the machine. -/
abbrev Known (v : Value) (x : Extent) : Prop :=
  v.Within x

theorem required_safe {x : Option α} {a : α} (h : x = some a) :
    Safe (required x) m fun b _ => b = a := by
  rw [h]
  exact Safe.pure rfl

theorem lookup_safe {name : Text} {token : Option Token} (ht : token.isSome) :
    Safe (lookup name token) m Known := by
  refine Safe.get_bind (Safe.of_sound fun hm => ?_)
  split
  next v hv => exact Safe.pure (hm.frames.get? hv)
  next => exact Safe.fail rfl ht

/-- A change of the frames only. -/
theorem Sound.frames_changed (hm : m.Sound) {frames : Frames Value}
    (h : frames.Each (Value.Within m.extent)) : m.Later { m with frames := frames } :=
  ⟨⟨h, hm.fields, hm.functions⟩, .refl _⟩

theorem define_safe {name : Text} {value : Value} (hn : name ≠ []) (hv : value.Within m.extent) :
    Safe (define name value) m fun _ _ => True := by
  intro hm
  obtain ⟨frames, hd⟩ := m.frames.define?_isSome value hn
  unfold Ends define
  simp only [hd]
  exact ⟨Sound.frames_changed hm (hm.frames.define? hv hd), trivial⟩

theorem defineAll_safe {names : List Text} {values : List Value} (hn : ∀ name ∈ names, name ≠ [])
    (hv : ∀ v ∈ values, v.Within m.extent) (hl : names.length ≤ values.length) :
    Safe (defineAll names values) m fun _ _ => True := by
  induction names generalizing values m with
  | nil => exact Safe.pure trivial
  | cons name names ih =>
    cases values with
    | nil => exact absurd hl (Nat.not_succ_le_zero _)
    | cons value values =>
      rw [List.forall_mem_cons] at hn hv
      refine Safe.bind (define_safe hn.1 hv.1) fun _ m' hle _ => ?_
      exact ih hn.2 (fun v hmem => (hv.2 v hmem).mono hle) (Nat.le_of_succ_le_succ hl)

theorem assign_safe {name : Token} {value : Value} (hv : value.Within m.extent) :
    Safe (assign name value) m fun _ _ => True := by
  intro hm
  unfold Ends assign
  cases ha : m.frames.assign? name.lexeme value with
  | some frames => exact ⟨Sound.frames_changed hm (hm.frames.assign? hv ha), trivial⟩
  | none => exact ⟨hm.later, rfl, rfl⟩

/-- The machine with more objects in its store. -/
theorem Sound.store_changed (hm : m.Sound) {store : Store}
    (hsize : m.store.functions.size ≤ store.functions.size) (h : store.Callable m.extent) :
    m.Later { m with store := store } := by
  have hle : m.extent.Le (extent { m with store := store }) := ⟨hsize, Nat.le_refl _⟩
  exact ⟨⟨hm.frames.mono fun v hv => hv.mono hle, hm.fields.mono fun v hv => hv.mono hle,
    h.mono hle⟩, hle⟩

theorem newFunction_safe {f : Function} (hf : f.Sound m.extent) :
    Safe (newFunction f) m fun id x => id < x.functions := by
  intro hm
  have hsize : m.store.functions.size < (m.store.addFunction f).2.functions.size := by
    simp [Store.addFunction]
  exact ⟨Sound.store_changed hm (Nat.le_of_lt hsize) (hm.functions.addFunction hf), hsize⟩

/-- The function of a declaration with all its parts. -/
theorem sound_ofDecl {x : Extent} {decl : FunDecl} (h : decl.Proper) (owner : Option ClassId) :
    (Function.ofDecl decl owner).Sound x := by
  obtain ⟨site, name, params, body⟩ := decl
  obtain ⟨-, hparams, hbody⟩ := h
  refine ⟨?_, hbody, nofun⟩
  intro p hp
  obtain ⟨t, ht, rfl⟩ := List.mem_map.mp hp
  exact hparams t ht

theorem newClass_safe {name : Text} {superclass : Option ClassId} {methods : List FunDecl}
    (h : ∀ d ∈ methods, d.Proper) : Safe (newClass name superclass methods) m fun _ _ => True := by
  intro hm
  have hfunctions : ∀ f ∈ methods.map fun d => Function.ofDecl d none, f.Sound m.extent := by
    intro f hf
    obtain ⟨d, hd, rfl⟩ := List.mem_map.mp hf
    exact sound_ofDecl (h d hd) none
  have hcallable := hm.functions.addFunctions hfunctions
  have hsize := m.store.size_addFunctions (methods.map fun d => Function.ofDecl d none)
  unfold Ends newClass
  generalize m.store.addFunctions (methods.map fun d => Function.ofDecl d none) = added at *
  rw [← added.2.size_addClass name superclass added.1] at hsize
  exact ⟨Sound.store_changed hm hsize (hcallable.addClass name superclass added.1), trivial⟩

/-- Binding a function to an instance. -/
theorem sound_bind {x : Extent} {f : Function} (hf : f.Sound x) {id : InstanceId}
    (hid : x.Holds id) : (f.bind id).Sound x :=
  ⟨hf.params, hf.code, fun _ => hid⟩

theorem boundMethod_safe {method : Option FunctionId} {id : InstanceId}
    (hid : m.extent.Holds id) : Safe (boundMethod method id) m Known := by
  refine Safe.get_bind (Safe.of_sound fun hm => ?_)
  split
  next f hf =>
    obtain ⟨fid, -, hf⟩ := Option.bind_eq_some_iff.mp hf
    exact Safe.bind (newFunction_safe (sound_bind (hm.functions fid f hf) hid))
      fun g m' _ hg => Safe.pure hg
  next => exact Safe.pure trivial

theorem newInstance_safe {cls : ClassId} :
    Safe (newInstance cls) m fun id x => x.Holds id := by
  intro hm
  have hinstances : m.heap.size ≤ (m.heap.new cls).2.size := by
    rw [Heap.size_new]
    exact Nat.le_succ _
  have hle : m.extent.Le (extent { m with heap := (m.heap.new cls).2 }) :=
    ⟨Nat.le_refl _, hinstances⟩
  have hfields := (hm.fields.mono fun v hv => hv.mono hle).new cls
  refine ⟨⟨⟨?_, hfields, ?_⟩, hle⟩, m.heap.new_valid cls⟩
  · exact hm.frames.mono fun v hv => hv.mono hle
  · exact hm.functions.mono hle

theorem property_safe {id : InstanceId} {cls : Option ClassId} {name : Text}
    (hid : m.extent.Holds id) : Safe (property id cls name) m Known := by
  refine Safe.get_bind (Safe.of_sound fun hm => ?_)
  split
  next v hv => exact Safe.pure (hm.fields.field? hv)
  next => exact boundMethod_safe hid

theorem setField_safe {id : InstanceId} {name : Token} {value : Value}
    (hid : m.extent.Holds id) (hn : name.lexeme ≠ []) (hv : value.Within m.extent) :
    Safe (setField id name value) m fun _ _ => True := by
  intro hm
  obtain ⟨heap, hs⟩ := m.heap.setField_isOk value hid hn
  unfold Ends setField
  simp only [hs]
  have hsize := Heap.size_setField hs
  have hext : extent { m with heap := heap } = m.extent := by simp [extent, hsize]
  refine ⟨⟨⟨?_, ?_, ?_⟩, ?_⟩, trivial⟩
  · exact hext ▸ hm.frames
  · exact hext ▸ hm.fields.setField hv hs
  · exact hext ▸ hm.functions
  · exact hext ▸ .refl _

theorem write_safe {text : Text} : Safe (write text) m fun _ _ => True := by
  intro hm
  unfold Ends write
  cases m.writesLeft with
  | none => exact ⟨⟨⟨hm.frames, hm.fields, hm.functions⟩, .refl _⟩, trivial⟩
  | some left =>
    cases left with
    | zero => exact ⟨hm.later, trivial⟩
    | succ left => exact ⟨⟨⟨hm.frames, hm.fields, hm.functions⟩, .refl _⟩, trivial⟩

/-! ## Operators and declarations -/

theorem number_safe {operator : Token} {value : Value} :
    Safe (number operator value) m fun _ _ => True := by
  unfold number
  split
  · exact Safe.pure trivial
  · exact Safe.unexpected rfl

theorem unaryOp_safe {operator : Token} {right : Value}
    (h : operator.kind = .bang ∨ operator.kind = .minus) :
    Safe (unaryOp operator right) m Known := by
  unfold unaryOp
  rcases h with h | h <;> simp only [h]
  · exact Safe.pure trivial
  · exact Safe.bind number_safe fun _ _ _ _ => Safe.pure trivial

theorem numericOp_safe {operator : Token} {left right : Value}
    (h : operator.kind = .slash ∨ ∀ x y, ∃ v, arithmetic? operator.kind x y = some v ∧
      ∀ extent, v.Within extent) : Safe (numericOp operator left right) m Known := by
  refine Safe.bind number_safe fun x m' _ _ => Safe.bind number_safe fun y m'' _ _ => ?_
  split
  · split
    · exact Safe.fail rfl rfl
    · exact Safe.pure trivial
  next hne =>
    obtain ⟨v, hv, hwithin⟩ := h.resolve_left hne x y
    rw [hv]
    exact Safe.pure (hwithin _)

/-- Every binary operator but those for equality is arithmetic. -/
theorem arithmetic_of_precedence {k : Kind} (h : 3 ≤ k.precedence) (hne : k ≠ .equalEqual)
    (hne' : k ≠ .bangEqual) : k = .slash ∨ ∀ x y, ∃ v, arithmetic? k x y = some v ∧
      ∀ extent, v.Within extent := by
  match k, h with
  | .slash, _ => exact .inl rfl
  | .star, _ | .minus, _ | .plus, _ | .greater, _ | .greaterEqual, _ | .less, _ | .lessEqual, _ =>
    exact .inr fun x y => ⟨_, rfl, fun _ => trivial⟩
  | .equalEqual, _ => exact absurd rfl hne
  | .bangEqual, _ => exact absurd rfl hne'

theorem binaryOp_safe {operator : Token} {left right : Value}
    (h : 3 ≤ operator.kind.precedence) : Safe (binaryOp operator left right) m Known := by
  refine Safe.get_bind ?_
  split
  · exact Safe.pure trivial
  · exact Safe.pure trivial
  next hk =>
    split
    · exact Safe.pure trivial
    · exact numericOp_safe (arithmetic_of_precedence h (by rw [hk]; nofun) (by rw [hk]; nofun))
  next hne hne' _ => exact numericOp_safe (arithmetic_of_precedence h hne hne')

theorem decides_safe {operator : Token} {left : Value}
    (h : operator.kind = .kwOr ∨ operator.kind = .kwAnd) :
    Safe (decides operator left) m fun _ _ => True := by
  unfold decides
  rcases h with h | h <;> simp only [h] <;> exact Safe.pure trivial

theorem superMethod_safe {keyword : Option Token} {method : Token} (hk : keyword.isSome) :
    Safe (superMethod keyword method) m Known := by
  refine Safe.bind (lookup_safe hk) fun s m' _ _ => ?_
  split
  · refine Safe.bind (lookup_safe hk) fun t m'' _ ht => ?_
    split
    · exact Safe.get_bind (boundMethod_safe ht)
    · exact Safe.unexpected hk
  · exact Safe.unexpected hk

theorem defineReceiver_safe {f : Function} (hf : f.Sound m.extent) :
    Safe (defineReceiver f) m fun _ _ => True := by
  unfold defineReceiver
  split
  next hb =>
    obtain ⟨cls, href⟩ := m.heap.ref?_isSome (hf.this hb)
    refine Safe.get_bind ?_
    rw [href]
    refine Safe.bind (define_safe (by decide) (hf.this hb)) fun _ m' _ _ => ?_
    split
    · exact define_safe (by decide) trivial
    · exact Safe.pure trivial
  next => exact Safe.pure trivial

theorem declareClass_safe {name : Token} {superclass : Option Token}
    {methods : List (Option FunDecl)} (hn : name.lexeme ≠ []) (hm : ProperMethods methods) :
    Safe (declareClass name superclass methods) m fun _ _ => True := by
  obtain ⟨ds, rfl, hds⟩ := hm.exists_decls
  refine Safe.bind (define_safe hn trivial) fun _ m' _ _ => ?_
  refine Safe.bind (Q := fun _ _ => True) ?parent fun parent m'' _ _ =>
    Safe.bind (required_safe (mapM_id_eq_some.mpr rfl)) fun declared _ _ hd =>
      Safe.bind (newClass_safe (hd ▸ hds)) fun id _ _ _ => assign_safe trivial
  case parent =>
    split
    · exact Safe.pure trivial
    · refine Safe.bind (lookup_safe rfl) fun v m'' _ _ => ?_
      split
      · exact Safe.pure trivial
      · exact Safe.unexpected rfl

end Eval

end Dynascope
