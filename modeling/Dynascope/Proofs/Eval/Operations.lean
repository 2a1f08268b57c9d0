import Dynascope.Eval.Run
import Dynascope.Proofs.Outcome

/-!
# Operations on the machine

All operations of evaluation but calls and output work on frames, instances and functions alone.

* `Stop.IsPlain`: a stop that is neither a refused call nor a failed write.
* `Machine.Beside m m'`: the machines differ in frames, instances and functions at most.
* `Tidy act`: the computation changes nothing else, and its stops are plain. The rules (`Tidy.pure`,
  `Tidy.bind` and so on) follow the structure of a computation; `lookup_tidy`, `define_tidy` and so
  on are the operations.
-/

namespace Dynascope

/-- The stop is neither a refused call nor a failed write. -/
def Stop.IsPlain : Stop → Prop
  | .fault ⟨.callDepth _, _⟩ => False
  | .writeFailed => False
  | _ => True

/-- The machines differ in frames, instances and functions at most. -/
structure Machine.Beside (m m' : Machine) : Prop where
  depth : m'.depth = m.depth
  limit : m'.maxDepth = m.maxDepth
  written : m'.written = m.written
  writesLeft : m'.writesLeft = m.writesLeft

theorem Machine.Beside.refl (m : Machine) : Beside m m :=
  ⟨rfl, rfl, rfl, rfl⟩

theorem Machine.Beside.trans {m m' m'' : Machine} (h : Beside m m') (k : Beside m' m'') :
    Beside m m'' :=
  ⟨k.depth.trans h.depth, k.limit.trans h.limit, k.written.trans h.written,
    k.writesLeft.trans h.writesLeft⟩

namespace Eval

open Machine

variable {α β : Type}

/-- However the computation ends, it has changed frames, instances and functions at most, and it has
refused neither a call nor a write. -/
def Tidy (act : Eval α) : Prop :=
  ∀ m, Ends act m (fun _ m' => Beside m m') (fun stop m' => Beside m m' ∧ stop.IsPlain)

namespace Tidy

theorem pure (a : α) : Tidy (Pure.pure a) :=
  fun m => Beside.refl m

theorem throw {stop : Stop} (h : stop.IsPlain) : Tidy (MonadExcept.throw stop : Eval α) :=
  fun m => ⟨Beside.refl m, h⟩

theorem bind {act : Eval α} {f : α → Eval β} (h : Tidy act) (hf : ∀ a, Tidy (f a)) :
    Tidy (act >>= f) := by
  intro m
  refine Ends.bind (h m) fun a m' hbeside => ?_
  refine Ends.imp (hf a m') ?_ ?_
  · intro b m'' hlast
    exact hbeside.trans hlast
  · rintro stop m'' ⟨hlast, hstop⟩
    exact ⟨hbeside.trans hlast, hstop⟩

/-- The machine is read first. -/
theorem get_bind {f : Machine → Eval β} (hf : ∀ m, Tidy (f m)) : Tidy (MonadState.get >>= f) :=
  bind (fun m => Beside.refl m) hf

end Tidy

/-! ## The operations of the machine -/

theorem unexpected_tidy (value : Value) (expected : ValueKind) (token : Option Token) :
    Tidy (unexpected value expected token : Eval α) :=
  Tidy.throw trivial

theorem required_tidy (x : Option α) : Tidy (required x) := by
  cases x with
  | none => exact Tidy.throw trivial
  | some a => exact Tidy.pure a

theorem lookup_tidy (name : Text) (token : Option Token) : Tidy (lookup name token) := by
  refine Tidy.get_bind fun m => ?_
  split
  · exact Tidy.pure _
  · exact Tidy.throw trivial

theorem define_tidy (name : Text) (value : Value) : Tidy (define name value) := by
  intro m
  unfold Ends define
  cases m.frames.define? name value with
  | some frames => exact ⟨rfl, rfl, rfl, rfl⟩
  | none => exact ⟨Beside.refl m, trivial⟩

theorem assign_tidy (name : Token) (value : Value) : Tidy (assign name value) := by
  intro m
  unfold Ends assign
  cases m.frames.assign? name.lexeme value with
  | some frames => exact ⟨rfl, rfl, rfl, rfl⟩
  | none => exact ⟨Beside.refl m, trivial⟩

theorem newFunction_tidy (f : Function) : Tidy (newFunction f) :=
  fun _ => ⟨rfl, rfl, rfl, rfl⟩

theorem newInstance_tidy (cls : ClassId) : Tidy (newInstance cls) :=
  fun _ => ⟨rfl, rfl, rfl, rfl⟩

theorem newClass_tidy (name : Text) (superclass : Option ClassId) (methods : List FunDecl) :
    Tidy (newClass name superclass methods) :=
  fun _ => ⟨rfl, rfl, rfl, rfl⟩

theorem boundMethod_tidy (method : Option FunctionId) (id : InstanceId) :
    Tidy (boundMethod method id) := by
  refine Tidy.get_bind fun m => ?_
  split
  · exact Tidy.bind (newFunction_tidy _) fun _ => Tidy.pure _
  · exact Tidy.pure _

theorem property_tidy (id : InstanceId) (cls : Option ClassId) (name : Text) :
    Tidy (property id cls name) := by
  refine Tidy.get_bind fun m => ?_
  split
  · exact Tidy.pure _
  · exact boundMethod_tidy _ _

theorem setField_tidy (id : InstanceId) (name : Token) (value : Value) :
    Tidy (setField id name value) := by
  intro m
  unfold Ends setField
  cases m.heap.setField id name.lexeme value with
  | ok heap => exact ⟨rfl, rfl, rfl, rfl⟩
  | error e => cases e <;> exact ⟨Beside.refl m, trivial⟩

theorem number_tidy (operator : Token) (value : Value) : Tidy (number operator value) := by
  unfold number
  split
  · exact Tidy.pure _
  · exact unexpected_tidy _ _ _

theorem unaryOp_tidy (operator : Token) (right : Value) : Tidy (unaryOp operator right) := by
  unfold unaryOp
  split
  · exact Tidy.pure _
  · exact Tidy.bind (number_tidy _ _) fun _ => Tidy.pure _
  · exact Tidy.throw trivial

theorem numericOp_tidy (operator : Token) (left right : Value) :
    Tidy (numericOp operator left right) := by
  refine Tidy.bind (number_tidy _ _) fun x => Tidy.bind (number_tidy _ _) fun y => ?_
  split
  · split
    · exact Tidy.throw trivial
    · exact Tidy.pure _
  · split
    · exact Tidy.pure _
    · exact Tidy.throw trivial

theorem binaryOp_tidy (operator : Token) (left right : Value) :
    Tidy (binaryOp operator left right) := by
  refine Tidy.get_bind fun m => ?_
  split
  · exact Tidy.pure _
  · exact Tidy.pure _
  · split
    · exact Tidy.pure _
    · exact numericOp_tidy _ _ _
  · exact numericOp_tidy _ _ _

theorem decides_tidy (operator : Token) (left : Value) : Tidy (decides operator left) := by
  unfold decides
  split
  · exact Tidy.pure _
  · exact Tidy.pure _
  · exact Tidy.throw trivial

theorem superMethod_tidy (keyword : Option Token) (method : Token) :
    Tidy (superMethod keyword method) := by
  refine Tidy.bind (lookup_tidy _ _) fun s => ?_
  split
  · refine Tidy.bind (lookup_tidy _ _) fun t => ?_
    split
    · exact Tidy.get_bind fun _ => boundMethod_tidy _ _
    · exact unexpected_tidy _ _ _
  · exact unexpected_tidy _ _ _

theorem defineAll_tidy (names : List Text) (values : List Value) :
    Tidy (defineAll names values) := by
  fun_induction defineAll names values with
  | case1 => exact .pure _
  | case2 => exact .throw trivial
  | case3 name names value values ih => exact .bind (define_tidy _ _) fun _ => ih

theorem defineReceiver_tidy (f : Function) : Tidy (defineReceiver f) := by
  unfold defineReceiver
  split
  · refine .get_bind fun m => ?_
    split
    · exact .throw trivial
    · refine .bind (define_tidy _ _) fun _ => ?_
      split
      · exact define_tidy _ _
      · exact .pure _
  · exact .pure _

theorem declareClass_tidy (name : Token) (superclass : Option Token)
    (methods : List (Option FunDecl)) : Tidy (declareClass name superclass methods) := by
  refine .bind (define_tidy _ _) fun _ => .bind ?_ fun parent => ?_
  · split
    · exact .pure _
    · refine .bind (lookup_tidy _ _) fun v => ?_
      split
      · exact .pure _
      · exact unexpected_tidy _ _ _
  · exact .bind (required_tidy _) fun _ => .bind (newClass_tidy _ _ _) fun _ => assign_tidy _ _

end Eval

end Dynascope
