import Dynascope.Proofs.Eval.CallDepth
import Dynascope.Proofs.Tree.Likeness

/-!
# Two runs side by side

Two machines that differ in the tokens of their function bodies, in the limit of their calls and in
the number for their next function declaration run two programs that are alike.

* `Pairing`: which tokens stand for each other, and what the two machines differ in. The first limit
  is not the wider one.
* `Store.Like`, `Machine.Like`: what the machines have in common.
* `Machine.Like.eq`: machines whose tokens are the same.
* `Twins r r'`: two computations ended alike, or the first one at its narrower limit.
* `Twin act act'`: on machines that are alike, two computations end alike. The rules (`Twin.bind`,
  `Twin.withFrame` and so on) follow the structure of a computation.
* `Eval.Parallel n`: with fuel `n`, evaluation of trees that are alike ends alike. `Eval.parallel`
  is the induction on the fuel.
* `Eval.interpret_twin`: so do programs that are alike.
-/

namespace Dynascope

/-! ## What two machines have in common -/

/-- Code of the same form whose tokens stand for each other. -/
inductive Code.Like (L : Likeness) : Code → Code → Prop where
  | print : Like L .print .print
  | declared {site : Nat} {body body' : Stmt} (h : body.Like L body') :
    Like L (.declared site body) (.declared site body')

/-- Function objects that differ in the tokens of their bodies. -/
structure Function.Like (L : Likeness) (f f' : Function) : Prop where
  name : f'.name = f.name
  params : f'.params = f.params
  code : f.code.Like L f'.code
  this : f'.this = f.this
  owner : f'.owner = f.owner

/-- Stops for the same reason whose tokens stand for each other. -/
inductive Stop.Like (L : Likeness) : Stop → Stop → Prop where
  | fault {fault : Fault} {token token' : Option Token} (h : L.SameIfAny token token') :
    Like L (.fault ⟨fault, token⟩) (.fault ⟨fault, token'⟩)
  | writeFailed : Like L .writeFailed .writeFailed
  | emptyName : Like L .emptyName .emptyName
  | missingArgument : Like L .missingArgument .missingArgument
  | missingPart : Like L .missingPart .missingPart
  | outOfFuel : Like L .outOfFuel .outOfFuel

/-- Stores with the same classes whose function objects are alike. -/
structure Store.Like (L : Likeness) (s s' : Store) : Prop where
  classes : s'.classes = s.classes
  size : s'.functions.size = s.functions.size
  functions : ∀ id, Option.Rel (Function.Like L) (s.function? id) (s'.function? id)

/-- The tokens of code. -/
def Code.tokens : Code → List Token
  | .print => []
  | .declared _ body => body.tokens

/-- How two runs are compared. A limit of 0 is none at all. -/
structure Pairing where
  tokens : Likeness
  limit : Nat
  limit' : Nat
  wider : limit' = 0 ∨ 0 < limit ∧ limit ≤ limit'
  /-- The numbers for the next function declarations; evaluation does not use them. -/
  site : Nat
  site' : Nat

/-- Machines that differ in the tokens of their function bodies, in the limit of their calls and in
the number for the next function declaration. -/
structure Machine.Like (P : Pairing) (m m' : Machine) : Prop where
  frames : m'.frames = m.frames
  heap : m'.heap = m.heap
  store : m.store.Like P.tokens m'.store
  depth : m'.depth = m.depth
  limit : m.maxDepth = P.limit
  limit' : m'.maxDepth = P.limit'
  written : m'.written = m.written
  writesLeft : m'.writesLeft = m.writesLeft
  site : m.nextSite = P.site
  site' : m'.nextSite = P.site'

variable {L : Likeness}

theorem Stop.Like.attributedTo {s s' : Stop} (h : s.Like L s') {token token' : Option Token}
    (ht : L.SameIfAny token token') : (s.attributedTo token).Like L (s'.attributedTo token') := by
  cases h with
  | fault h =>
    cases h with
    | none => exact .fault ht
    | some h => exact .fault (.some h)
  | writeFailed => exact .writeFailed
  | emptyName => exact .emptyName
  | missingArgument => exact .missingArgument
  | missingPart => exact .missingPart
  | outOfFuel => exact .outOfFuel

/-- A function object is like itself if the tokens of its body stand for themselves. -/
theorem Function.like_self {f : Function} (h : ∀ t ∈ f.code.tokens, L.Same t t) : f.Like L f := by
  refine ⟨rfl, rfl, ?_, rfl, rfl⟩
  generalize f.code = code at h
  cases code with
  | print => exact .print
  | declared site body => exact .declared (body.like_self h)

/-- A store is like itself if the tokens of all bodies stand for themselves. -/
theorem Store.like_self {s : Store}
    (h : ∀ id f, s.function? id = some f → ∀ t ∈ f.code.tokens, L.Same t t) : s.Like L s := by
  refine ⟨rfl, rfl, fun id => ?_⟩
  cases hid : s.function? id with
  | none => exact .none
  | some f => exact .some (Function.like_self (h id f hid))

namespace Function.Like

variable {f f' : Function}

theorem arity (h : f.Like L f') : f'.arity = f.arity :=
  congrArg List.length h.params

theorem isBound (h : f.Like L f') : f'.isBound = f.isBound := by
  rw [Function.isBound, h.this]
  rfl

theorem bind (h : f.Like L f') (id : InstanceId) : (f.bind id).Like L (f'.bind id) :=
  ⟨h.name, h.params, h.code, rfl, h.owner⟩

theorem site? {c c' : Code} (h : c.Like L c') : c'.site? = c.site? := by
  cases h with
  | print => rfl
  | declared h => cases h <;> rfl

theorem same (h : f.Like L f') {g g' : Function} (hg : g.Like L g') :
    f'.same g' = f.same g := by
  rw [Function.same, Function.same, h.name, hg.name, site? h.code, site? hg.code, h.this, hg.this]

/-- The functions of declarations that are alike. -/
theorem ofDecl {d d' : FunDecl} (h : d.Like L d') :
    (Function.ofDecl d none).Like L (Function.ofDecl d' none) := by
  cases h with
  | @mk site name name' params params' body body' hn hp hb =>
    refine ⟨L.lexeme hn, ?_, .declared hb, rfl, rfl⟩
    show params'.map Token.lexeme = params.map Token.lexeme
    clear hb hn
    induction hp with
    | nil => rfl
    | cons h _ ih => rw [List.map_cons, List.map_cons, L.lexeme h, ih]

end Function.Like

namespace Store.Like

variable {s s' : Store}

theorem class? (h : s.Like L s') : s'.class? = s.class? := by
  funext id
  rw [Store.class?, h.classes]
  rfl

theorem findMethod? (h : s.Like L s') : s'.findMethod? = s.findMethod? := by
  have hup : ∀ n, s'.lineageUpTo n = s.lineageUpTo n := by
    intro n
    induction n with
    | zero => rfl
    | succ n ih =>
      funext id
      rw [Store.lineageUpTo, Store.lineageUpTo, h.class?, ih]
  have hown : s'.ownMethod? = s.ownMethod? := by
    funext name id
    rw [Store.ownMethod?, Store.ownMethod?, h.class?]
  funext id name
  rw [Store.findMethod?, Store.findMethod?, Store.lineage, Store.lineage, h.classes, hup, hown]

theorem superclassOf? (h : s.Like L s') {f f' : Function} (hf : f.Like L f') :
    s'.superclassOf? f' = s.superclassOf? f := by
  rw [Store.superclassOf?, Store.superclassOf?, hf.owner, h.class?]

theorem render (h : s.Like L s') : s'.render = s.render := by
  funext v
  have hname : s'.className = s.className := by
    funext id
    rw [Store.className, Store.className, h.class?]
  cases v with
  | cls id => exact congrFun hname id
  | object id cls =>
    cases cls with
    | none => rfl
    | some c => rw [Store.render, Store.render, hname]
  | _ => rfl

theorem equal (h : s.Like L s') (v w : Value) : s'.equal v w = s.equal v w := by
  cases v with
  | function f =>
    cases w with
    | function g =>
      have hf := h.functions f
      have hg := h.functions g
      rw [Store.equal, Store.equal]
      generalize s.function? f = a at *
      generalize s'.function? f = a' at *
      generalize s.function? g = b at *
      generalize s'.function? g = b' at *
      cases hf with
      | none => rfl
      | some hf =>
        cases hg with
        | none => rfl
        | some hg => exact hf.same hg
    | _ => rfl
  | _ => cases w <;> rfl

theorem addFunction (h : s.Like L s') {f f' : Function} (hf : f.Like L f') :
    (s'.addFunction f').1 = (s.addFunction f).1 ∧
      (s.addFunction f).2.Like L (s'.addFunction f').2 := by
  refine ⟨h.size, h.classes, ?_, ?_⟩
  · show (s'.functions.push f').size = (s.functions.push f).size
    rw [Array.size_push, Array.size_push, h.size]
  · intro id
    show Option.Rel _ (s.functions.push f)[id]? (s'.functions.push f')[id]?
    rw [Array.getElem?_push, Array.getElem?_push, h.size]
    split
    · exact .some hf
    · exact h.functions id

theorem addFunctions (h : s.Like L s') {fs fs' : List Function}
    (hfs : List.Forall₂ (Function.Like L) fs fs') :
    (s'.addFunctions fs').1 = (s.addFunctions fs).1 ∧
      (s.addFunctions fs).2.Like L (s'.addFunctions fs').2 := by
  induction hfs generalizing s s' with
  | nil => exact ⟨rfl, h⟩
  | @cons f f' fs fs' hf _ ih =>
    obtain ⟨hid, hone⟩ := h.addFunction hf
    obtain ⟨hids, hall⟩ := ih hone
    refine ⟨?_, hall⟩
    exact congrArg₂ List.cons hid hids

theorem own (h : s.Like L s') (owner : ClassId) (id : FunctionId) :
    (s.own owner id).Like L (s'.own owner id) := by
  refine ⟨h.classes, ?_, ?_⟩
  · show (s'.functions.modify id _).size = (s.functions.modify id _).size
    rw [Array.size_modify, Array.size_modify, h.size]
  · intro j
    show Option.Rel _ (s.functions.modify id _)[j]? (s'.functions.modify id _)[j]?
    rw [Array.getElem?_modify, Array.getElem?_modify]
    have hj := h.functions j
    rw [Store.function?, Store.function?] at hj
    split
    · generalize s.functions[j]? = a at *
      generalize s'.functions[j]? = a' at *
      cases hj with
      | none => exact .none
      | some hf => exact .some ⟨hf.name, hf.params, hf.code, hf.this, rfl⟩
    · exact hj

theorem functionName (h : s.Like L s') : s'.functionName = s.functionName := by
  funext id
  have hid := h.functions id
  rw [Store.functionName, Store.functionName]
  generalize s.function? id = a at *
  generalize s'.function? id = a' at *
  cases hid with
  | none => rfl
  | some hf => exact hf.name

theorem addClass (h : s.Like L s') (name : Text) (superclass : Option ClassId)
    (methods : List FunctionId) :
    (s'.addClass name superclass methods).1 = (s.addClass name superclass methods).1 ∧
      (s.addClass name superclass methods).2.Like L (s'.addClass name superclass methods).2 := by
  have howned : ∀ (owner : ClassId) (ms : List FunctionId) {a a' : Store}, a.Like L a' →
      (ms.foldl (fun s m => s.own owner m) a).Like L (ms.foldl (fun s m => s.own owner m) a') := by
    intro owner ms
    induction ms with
    | nil => exact fun h => h
    | cons id ms ih => exact fun h => ih (h.own owner id)
  have hsize : s'.classes.size = s.classes.size := by rw [h.classes]
  have hall := howned s.classes.size methods h
  refine ⟨hsize, ?_, ?_, ?_⟩
  · show (methods.foldl _ s').classes.push _ = (methods.foldl _ s).classes.push _
    rw [hsize, hall.classes, h.functionName]
  · show (methods.foldl _ s').functions.size = (methods.foldl _ s).functions.size
    rw [hsize, hall.size]
  · intro id
    show Option.Rel _ ((methods.foldl _ s).function? id) ((methods.foldl _ s').function? id)
    rw [hsize]
    exact hall.functions id

end Store.Like

/-! ## Machines that are exactly alike -/

theorem Function.Like.eq {f f' : Function} (h : f.Like .exact f') : f' = f := by
  obtain ⟨name, params, code, this, owner⟩ := f
  obtain ⟨name', params', code', this', owner'⟩ := f'
  obtain ⟨hname, hparams, hcode, hthis, howner⟩ := h
  dsimp only at hname hparams hcode hthis howner
  subst hname hparams hthis howner
  cases hcode with
  | print => rfl
  | declared hbody => rw [hbody.eq]

theorem Stop.Like.eq {stop stop' : Stop} (h : stop.Like .exact stop') : stop' = stop := by
  cases h with
  | fault ht => rw [sameIfAny_exact ht]
  | _ => rfl

theorem Store.Like.eq {s s' : Store} (h : s.Like .exact s') : s' = s := by
  have hfunctions : s'.functions = s.functions := by
    refine Array.ext_getElem? fun id => ?_
    have hid : Option.Rel _ s.functions[id]? s'.functions[id]? := h.functions id
    generalize s.functions[id]? = a at hid
    generalize s'.functions[id]? = a' at hid
    cases hid with
    | none => rfl
    | some hf => rw [hf.eq]
  obtain ⟨functions, classes⟩ := s
  obtain ⟨functions', classes'⟩ := s'
  rw [show functions' = functions from hfunctions, show classes' = classes from h.classes]

/-- Machines whose tokens are the same differ at most in the limit and in the number for the next
function declaration. -/
theorem Machine.Like.eq {m m' : Machine} {n k site site' : Nat} {h : k = 0 ∨ 0 < n ∧ n ≤ k}
    (hm : m.Like ⟨.exact, n, k, h, site, site'⟩ m') :
    m' = { m with maxDepth := k, nextSite := site' } := by
  obtain ⟨hframes, hheap, hstore, hdepth, -, hlimit, hwritten, hleft, -, hsite⟩ := hm
  have hsame := hstore.eq
  obtain ⟨frames, heap, store, depth, maxDepth, written, writesLeft, nextSite⟩ := m
  obtain ⟨frames', heap', store', depth', maxDepth', written', writesLeft', nextSite'⟩ := m'
  dsimp only at hframes hheap hsame hdepth hlimit hwritten hleft hsite
  subst hframes hheap hsame hdepth hlimit hwritten hleft hsite
  rfl

/-! ## Computations side by side -/

variable {α β : Type} {P : Pairing}

/-- Two computations ended alike, or the first one was refused a call at its narrower limit. -/
inductive Twins (P : Pairing) :
    EStateM.Result Stop Machine α → EStateM.Result Stop Machine α → Prop where
  | ok {a : α} {m m' : Machine} (h : m.Like P m') : Twins P (.ok a m) (.ok a m')
  | error {stop stop' : Stop} {m m' : Machine} (hs : stop.Like P.tokens stop')
      (h : m.Like P m') : Twins P (.error stop m) (.error stop' m')
  | refused {stop : Stop} {m : Machine} {r' : EStateM.Result Stop Machine α}
      (hs : stop.callDepth? ≠ none) (h : P.limit' ≠ P.limit) : Twins P (.error stop m) r'

/-- On machines that are alike, two computations end alike. -/
def Twin (P : Pairing) (act act' : Eval α) : Prop :=
  ∀ m m', m.Like P m' → Twins P (act m) (act' m')

namespace Twin

theorem pure (a : α) : Twin P (Pure.pure a) (Pure.pure a) :=
  fun _ _ h => .ok h

theorem throw {stop stop' : Stop} (hs : stop.Like P.tokens stop') :
    Twin P (MonadExcept.throw stop : Eval α) (MonadExcept.throw stop') :=
  fun _ _ h => .error hs h

/-- A fault at tokens that stand for each other. -/
theorem fail (fault : Fault) {token token' : Option Token}
    (ht : P.tokens.SameIfAny token token') :
    Twin P (Eval.fail fault token : Eval α) (Eval.fail fault token') :=
  throw (.fault ht)

theorem bind {act act' : Eval α} {f f' : α → Eval β} (h : Twin P act act')
    (hf : ∀ a, Twin P (f a) (f' a)) : Twin P (act >>= f) (act' >>= f') := by
  intro m m' hm
  have hact := h m m' hm
  generalize hr : act m = r at hact
  generalize hr' : act' m' = r' at hact
  cases hact with
  | ok hnext =>
    rw [ok_bind hr, ok_bind hr']
    exact hf _ _ _ hnext
  | error hs hnext =>
    rw [error_bind hr, error_bind hr']
    exact .error hs hnext
  | refused hs hlimit =>
    rw [error_bind hr]
    exact .refused hs hlimit

/-- The machine is read first. -/
theorem get_bind {f f' : Machine → Eval β}
    (hf : ∀ m m', m.Like P m' → Twin P (f m) (f' m')) :
    Twin P (MonadState.get >>= f) (MonadState.get >>= f') :=
  fun m m' hm => hf m m' hm m m' hm

/-- Parts that are alike are missing together. -/
theorem required {γ : Type} {R : γ → γ → Prop} {x x' : Option γ} {f f' : γ → Eval α}
    (h : Option.Rel R x x') (hf : ∀ {a a'}, R a a' → Twin P (f a) (f' a')) :
    Twin P (Eval.required x >>= f) (Eval.required x' >>= f') := by
  cases h with
  | none => exact throw .missingPart
  | some ha => exact hf ha

theorem ite {b : Prop} [Decidable b] {yes yes' no no' : Eval α} (hyes : Twin P yes yes')
    (hno : Twin P no no') : Twin P (if b then yes else no) (if b then yes' else no') := by
  split
  · exact hyes
  · exact hno

/-- The machine is changed in the same way before and after a computation. -/
theorem around {act act' : Eval α} (enter leave : Machine → Machine) (mark mark' : Stop → Stop)
    (h : Twin P act act')
    (henter : ∀ {m m'}, m.Like P m' → (enter m).Like P (enter m'))
    (hleave : ∀ {m m'}, m.Like P m' → (leave m).Like P (leave m'))
    (hmark : ∀ {stop stop'}, stop.Like P.tokens stop' →
      (mark stop).Like P.tokens (mark' stop'))
    (hrefused : ∀ stop, (mark stop).callDepth? = stop.callDepth?) :
    Twin P (fun m => mapEnd id mark leave (act (enter m)))
      (fun m => mapEnd id mark' leave (act' (enter m))) := by
  intro m m' hm
  have hact := h _ _ (henter hm)
  dsimp only
  generalize act (enter m) = r at hact
  generalize act' (enter m') = r' at hact
  cases hact with
  | ok hnext => exact .ok (hleave hnext)
  | error hs hnext => exact .error (hmark hs) (hleave hnext)
  | refused hs hlimit => exact .refused (by rwa [hrefused]) hlimit

end Twin

/-! ## The operations of the machine -/

namespace Eval

theorem unexpected_twin (value : Value) (expected : ValueKind) {token token' : Option Token}
    (ht : P.tokens.SameIfAny token token') :
    Twin P (unexpected value expected token : Eval α) (unexpected value expected token') :=
  .fail _ ht

theorem lookup_twin (name : Text) {token token' : Option Token}
    (ht : P.tokens.SameIfAny token token') : Twin P (lookup name token) (lookup name token') := by
  refine .get_bind fun m m' hm => ?_
  rw [hm.frames]
  split
  · exact .pure _
  · exact .fail _ ht

theorem define_twin (name : Text) (value : Value) :
    Twin P (define name value) (define name value) := by
  intro m m' hm
  unfold define
  rw [hm.frames]
  cases m.frames.define? name value with
  | some frames => exact .ok { hm with frames := rfl }
  | none => exact .error .emptyName hm

theorem defineAll_twin (names : List Text) (values : List Value) :
    Twin P (defineAll names values) (defineAll names values) := by
  induction names generalizing values with
  | nil => exact .pure _
  | cons name names ih =>
    cases values with
    | nil => exact .throw .missingArgument
    | cons value values => exact .bind (define_twin name value) fun _ => ih values

theorem assign_twin {name name' : Token} (hn : P.tokens.Same name name') (value : Value) :
    Twin P (assign name value) (assign name' value) := by
  intro m m' hm
  unfold assign
  rw [hm.frames, P.tokens.lexeme hn]
  cases m.frames.assign? name.lexeme value with
  | some frames => exact .ok { hm with frames := rfl }
  | none => exact .error (.fault (.some hn)) hm

theorem newFunction_twin {f f' : Function} (hf : f.Like P.tokens f') :
    Twin P (newFunction f) (newFunction f') := by
  intro m m' hm
  obtain ⟨hid, hstore⟩ := hm.store.addFunction hf
  unfold newFunction
  dsimp only
  rw [hid]
  exact .ok { hm with store := hstore }

theorem newInstance_twin (cls : ClassId) : Twin P (newInstance cls) (newInstance cls) := by
  intro m m' hm
  unfold newInstance
  rw [hm.heap]
  exact .ok { hm with heap := rfl }

theorem newClass_twin (name : Text) (superclass : Option ClassId) {methods methods' : List FunDecl}
    (h : LikeDecls P.tokens methods methods') :
    Twin P (newClass name superclass methods) (newClass name superclass methods') := by
  intro m m' hm
  have hfunctions : List.Forall₂ (Function.Like P.tokens)
      (methods.map fun d => Function.ofDecl d none) (methods'.map fun d => .ofDecl d none) :=
    List.forall₂_map_left_iff.mpr (List.forall₂_map_right_iff.mpr (h.imp fun _ _ => .ofDecl))
  obtain ⟨hids, hadded⟩ := hm.store.addFunctions hfunctions
  obtain ⟨hid, hstore⟩ := hadded.addClass name superclass
    (m.store.addFunctions (methods.map fun d => .ofDecl d none)).1
  unfold newClass
  dsimp only
  rw [hids, hid]
  exact .ok { hm with store := hstore }

theorem boundMethod_twin (method : Option FunctionId) (id : InstanceId) :
    Twin P (boundMethod method id) (boundMethod method id) := by
  refine .get_bind fun m m' hm => ?_
  have hfound : Option.Rel (Function.Like P.tokens) (method.bind m.store.function?)
      (method.bind m'.store.function?) := by
    cases method with
    | none => exact .none
    | some f => exact hm.store.functions f
  generalize method.bind m.store.function? = found at hfound
  generalize method.bind m'.store.function? = found' at hfound
  cases hfound with
  | none => exact .pure _
  | some hf => exact .bind (newFunction_twin (hf.bind id)) fun _ => .pure _

theorem property_twin (id : InstanceId) (cls : Option ClassId) (name : Text) :
    Twin P (property id cls name) (property id cls name) := by
  refine .get_bind fun m m' hm => ?_
  rw [hm.heap, hm.store.findMethod?]
  split
  · exact .pure _
  · exact boundMethod_twin _ _

theorem setField_twin (id : InstanceId) {name name' : Token} (hn : P.tokens.Same name name')
    (value : Value) : Twin P (setField id name value) (setField id name' value) := by
  intro m m' hm
  unfold setField
  rw [hm.heap, P.tokens.lexeme hn]
  cases m.heap.setField id name.lexeme value with
  | ok heap => exact .ok { hm with heap := rfl }
  | error e =>
    cases e with
    | noInstance id => exact .error (.fault (.some hn)) hm
    | emptyName => exact .error .emptyName hm

theorem write_twin (text : Text) : Twin P (write text) (write text) := by
  intro m m' hm
  unfold write
  rw [hm.writesLeft, hm.written]
  cases m.writesLeft with
  | none => exact .ok { hm with written := rfl, writesLeft := rfl }
  | some n =>
    cases n with
    | zero => exact .error .writeFailed hm
    | succ n => exact .ok { hm with written := rfl, writesLeft := rfl }

section Operators

variable {operator operator' : Token} (ho : P.tokens.Same operator operator')

include ho

theorem number_twin (value : Value) : Twin P (number operator value) (number operator' value) := by
  unfold number
  split
  · exact .pure _
  · exact unexpected_twin _ _ (.some ho)

theorem unaryOp_twin (right : Value) :
    Twin P (unaryOp operator right) (unaryOp operator' right) := by
  unfold unaryOp
  rw [P.tokens.kind ho]
  split
  · exact .pure _
  · exact .bind (number_twin ho right) fun _ => .pure _
  · exact .fail _ (.some ho)

theorem numericOp_twin (left right : Value) :
    Twin P (numericOp operator left right) (numericOp operator' left right) := by
  refine .bind (number_twin ho left) fun x => .bind (number_twin ho right) fun y => ?_
  rw [P.tokens.kind ho]
  split
  · exact .ite (.fail _ (.some ho)) (.pure _)
  · split
    · exact .pure _
    · exact .fail _ (.some ho)

theorem binaryOp_twin (left right : Value) :
    Twin P (binaryOp operator left right) (binaryOp operator' left right) := by
  refine .get_bind fun m m' hm => ?_
  dsimp only
  rw [P.tokens.kind ho, hm.store.equal, hm.store.render]
  split
  · exact .pure _
  · exact .pure _
  · exact .ite (.pure _) (numericOp_twin ho left right)
  · exact numericOp_twin ho left right

theorem decides_twin (left : Value) : Twin P (decides operator left) (decides operator' left) := by
  unfold decides
  rw [P.tokens.kind ho]
  split
  · exact .pure _
  · exact .pure _
  · exact .fail _ (.some ho)

end Operators

theorem superMethod_twin {keyword keyword' : Option Token} {method method' : Token}
    (hk : P.tokens.SameIfAny keyword keyword') (hn : P.tokens.Same method method') :
    Twin P (superMethod keyword method) (superMethod keyword' method') := by
  refine .bind (lookup_twin superName hk) fun s => ?_
  cases s with
  | cls superclass =>
    refine .bind (lookup_twin thisName hk) fun t => ?_
    cases t with
    | object id cls =>
      refine .get_bind fun m m' hm => ?_
      rw [hm.store.findMethod?, P.tokens.lexeme hn]
      exact boundMethod_twin _ _
    | _ => exact unexpected_twin _ _ hk
  | _ => exact unexpected_twin _ _ hk

theorem defineReceiver_twin {f f' : Function} (hf : f.Like P.tokens f') :
    Twin P (defineReceiver f) (defineReceiver f') := by
  unfold defineReceiver
  rw [hf.isBound]
  refine .ite (.get_bind fun m m' hm => ?_) (.pure _)
  rw [hm.heap, hf.this, hm.store.superclassOf? hf]
  cases m.heap.ref? f.this with
  | none => exact .fail _ .none
  | some this =>
    refine .bind (define_twin thisName this) fun _ => ?_
    cases m.store.superclassOf? f with
    | none => exact .pure _
    | some superclass => exact define_twin superName _

theorem declareClass_twin {name name' : Token} {superclass superclass' : Option Token}
    {methods methods' : List (Option FunDecl)} (hn : P.tokens.Same name name')
    (hs : P.tokens.SameIfAny superclass superclass') (hm : LikeMethods P.tokens methods methods') :
    Twin P (declareClass name superclass methods) (declareClass name' superclass' methods') := by
  unfold declareClass
  rw [P.tokens.lexeme hn]
  refine .bind (define_twin _ _) fun _ => .bind ?_ fun parent =>
    .required hm.all fun hd => .bind (newClass_twin _ _ hd) fun id => assign_twin hn _
  cases hs with
  | none => exact .pure _
  | some ht =>
    dsimp only
    rw [P.tokens.lexeme ht]
    refine .bind (lookup_twin _ (.some ht)) fun v => ?_
    cases v with
    | cls id => exact .pure _
    | _ => exact unexpected_twin _ _ (.some ht)

/-- A frame is put on and taken off in the same way. -/
theorem withFrame_twin (name : Text) {act act' : Eval α} (h : Twin P act act') :
    Twin P (withFrame name act) (withFrame name act') := by
  have hframe : ∀ act : Eval α, withFrame name act = fun m =>
      mapEnd id id (fun m => { m with frames := m.frames.pop })
        (act { m with frames := m.frames.push name }) := by
    intro act
    funext m
    unfold withFrame
    cases act { m with frames := m.frames.push name } <;> rfl
  rw [hframe act, hframe act']
  exact .around (fun m => { m with frames := m.frames.push name }) _ id id h
    (fun hm => { hm with frames := congrArg (Frames.push · name) hm.frames })
    (fun hm => { hm with frames := congrArg Frames.pop hm.frames }) (fun hs => hs) fun _ => rfl

/-- A call is counted and uncounted in the same way. -/
theorem call_twin {token token' : Option Token} (ht : P.tokens.SameIfAny token token')
    {act act' : Eval α} (h : Twin P act act') :
    Twin P (attributed token (counted act)) (attributed token' (counted act')) := by
  rw [funext (attributed_counted token act), funext (attributed_counted token' act')]
  exact .around (fun m => { m with depth := m.depth + 1 }) _ _ _ h
    (fun hm => { hm with depth := congrArg (· + 1) hm.depth })
    (fun hm => { hm with depth := congrArg (· - 1) hm.depth }) (fun hs => hs.attributedTo ht)
    fun stop => stop.callDepth?_attributedTo token

/-! ## The whole evaluator -/

/-- With fuel `n`, evaluation of trees that are alike ends alike. -/
structure Parallel (P : Pairing) (n : Nat) : Prop where
  expr : ∀ {e e'}, Expr.Like P.tokens e e' → Twin P (eval n e) (eval n e')
  exprs : ∀ {es es'}, LikeExprs P.tokens es es' → Twin P (evalAll n es) (evalAll n es')
  call : ∀ id args {token token'}, P.tokens.SameIfAny token token' →
    Twin P (invoke n id args token) (invoke n id args token')
  code : ∀ {f f' : Function} args, f.Like P.tokens f' →
    Twin P (runFunction n f args) (runFunction n f' args)
  construct : ∀ cls args {token token'}, P.tokens.SameIfAny token token' →
    Twin P (instantiate n cls args token) (instantiate n cls args token')
  stmt : ∀ {s s'}, Stmt.Like P.tokens s s' → Twin P (exec n s) (exec n s')
  stmts : ∀ {ss ss'}, LikeStmts P.tokens ss ss' → Twin P (execAll n ss) (execAll n ss')
  loop : ∀ {condition condition' body body'}, Expr.Like P.tokens condition condition' →
    Stmt.Like P.tokens body body' →
    Twin P (execLoop n condition body) (execLoop n condition' body')

variable {n : Nat}

theorem eval_twin (h : Parallel P n) {e e' : Expr} (he : e.Like P.tokens e') :
    Twin P (eval (n + 1) e) (eval (n + 1) e') := by
  cases he with
  | absent => exact .fail _ .none
  | assign hn hv => exact .bind (h.expr hv) fun v => .bind (assign_twin hn v) fun _ => .pure v
  | binary hl ho hr =>
    exact .bind (h.expr hl) fun l => .bind (h.expr hr) fun r => binaryOp_twin ho l r
  | call hc hp ha =>
    refine .bind (h.expr hc) fun f => .bind (h.exprs ha) fun args => ?_
    cases f with
    | function id => exact h.call id args hp
    | cls id => exact h.construct id args hp
    | _ => exact .fail _ hp
  | get ho hn =>
    refine .bind (h.expr ho) fun o => ?_
    cases o with
    | object id cls =>
      refine .required hn fun hx => ?_
      rw [P.tokens.lexeme hx]
      exact property_twin id cls _
    | _ => exact unexpected_twin _ _ hn
  | group hi => exact h.expr hi
  | @literal value =>
    cases value with
    | foreign n => exact .fail _ .none
    | _ => exact .pure _
  | logical hl ho hr =>
    refine .bind (h.expr hl) fun l => .bind (decides_twin ho l) fun decided => ?_
    exact .ite (.pure l) (h.expr hr)
  | set ho hn hv =>
    refine .bind (h.expr ho) fun o => ?_
    cases o with
    | object id cls =>
      exact .bind (h.expr hv) fun v => .required hn fun hx =>
        .bind (setField_twin id hx v) fun _ => .pure v
    | _ => exact unexpected_twin _ _ hn
  | superMethod hk hm => exact superMethod_twin hk hm
  | receiver hk => exact lookup_twin thisName hk
  | unary ho hr => exact .bind (h.expr hr) fun r => unaryOp_twin ho r
  | @name name name' hn =>
    show Twin P (lookup name.lexeme (some name)) (lookup name'.lexeme (some name'))
    rw [P.tokens.lexeme hn]
    exact lookup_twin _ (.some hn)

theorem evalAll_twin (h : Parallel P n) {es es' : List Expr} (hes : LikeExprs P.tokens es es') :
    Twin P (evalAll (n + 1) es) (evalAll (n + 1) es') := by
  cases hes with
  | nil => exact .pure _
  | cons he hrest => exact .bind (h.expr he) fun v => .bind (h.exprs hrest) fun vs => .pure _

/-- Only here the limits matter: a call refused by the wider limit is refused by the narrower
one. -/
theorem invoke_twin (h : Parallel P n) (id : FunctionId) (args : List Value)
    {token token' : Option Token} (ht : P.tokens.SameIfAny token token') :
    Twin P (invoke (n + 1) id args token) (invoke (n + 1) id args token') := by
  refine .get_bind fun m m' hm => ?_
  have hf := hm.store.functions id
  generalize m.store.function? id = found at hf
  generalize m'.store.function? id = found' at hf
  cases hf with
  | none => exact .fail _ ht
  | @some f f' hf =>
    dsimp only
    rw [hf.arity, hm.depth, hm.limit, hm.limit']
    refine .ite (.fail _ ht) ?_
    have hwider := P.wider
    by_cases hdeep : (decide (0 < P.limit) && decide (P.limit ≤ m.depth)) = true
    · rw [if_pos hdeep]
      by_cases hlimit : P.limit' = P.limit
      · rw [hlimit, if_pos hdeep]
        exact .fail _ ht
      · exact fun _ _ _ => .refused (Option.some_ne_none _) hlimit
    · have hroom : ¬ (decide (0 < P.limit') && decide (P.limit' ≤ m.depth)) = true := by
        simp only [Bool.and_eq_true, decide_eq_true_eq] at hdeep ⊢
        omega
      rw [if_neg hdeep, if_neg hroom]
      exact call_twin ht (h.code args hf)

theorem runFunction_twin (h : Parallel P n) {f f' : Function} (args : List Value)
    (hf : f.Like P.tokens f') :
    Twin P (runFunction (n + 1) f args) (runFunction (n + 1) f' args) := by
  have hreceiver := defineReceiver_twin hf
  obtain ⟨name, params, code, this, owner⟩ := f
  obtain ⟨name', params', code', this', owner'⟩ := f'
  obtain ⟨hname, hparams, hcode, -, -⟩ := hf
  dsimp only at hname hparams hcode
  subst hname hparams
  cases hcode with
  | print =>
    cases args with
    | nil => exact .throw .missingArgument
    | cons v rest =>
      refine .get_bind fun m m' hm => ?_
      rw [hm.store.render]
      exact .bind (write_twin _) fun _ => .pure _
  | declared hbody =>
    cases hbody with
    | block hbody =>
      refine .bind (withFrame_twin _ (.bind hreceiver fun _ =>
        .bind (defineAll_twin _ _) fun _ => h.stmts hbody)) fun flow => ?_
      cases flow with
      | returned v => exact .pure v
      | normal => exact .pure _
    | _ => exact .fail _ .none

theorem instantiate_twin (h : Parallel P n) (cls : ClassId) (args : List Value)
    {token token' : Option Token} (ht : P.tokens.SameIfAny token token') :
    Twin P (instantiate (n + 1) cls args token) (instantiate (n + 1) cls args token') := by
  refine .bind (newInstance_twin cls) fun id => .get_bind fun m m' hm => ?_
  rw [hm.store.findMethod?]
  refine .bind (boundMethod_twin _ _) fun v => ?_
  cases v with
  | function initializer => exact .bind (h.call initializer args ht) fun _ => .pure _
  | _ => exact .pure _

theorem exec_twin (h : Parallel P n) {s s' : Stmt} (hs : s.Like P.tokens s') :
    Twin P (exec (n + 1) s) (exec (n + 1) s') := by
  cases hs with
  | absent => exact .fail _ .none
  | block hb => exact withFrame_twin _ (h.stmts hb)
  | classDecl hn hs hm => exact .bind (declareClass_twin hn hs hm) fun _ => .pure _
  | expr he => exact .bind (h.expr he) fun _ => .pure _
  | @funDecl d d' hd =>
    have hname : d'.name.lexeme = d.name.lexeme := (Function.Like.ofDecl hd).name
    unfold exec
    rw [hname]
    exact .bind (newFunction_twin (.ofDecl hd)) fun id => .bind (define_twin _ _) fun _ => .pure _
  | choice hc hy hn =>
    refine .bind (h.expr hc) fun c => .ite (h.stmt hy) ?_
    cases hn with
    | absent => exact .pure _
    | _ => exact h.stmt (by constructor <;> assumption)
  | ret hk hv =>
    cases hv with
    | absent => exact .pure _
    | _ => exact .bind (h.expr (by constructor <;> assumption)) fun v => .pure _
  | varDecl hn hi =>
    unfold exec
    rw [P.tokens.lexeme hn]
    refine .bind ?_ fun v => .bind (define_twin _ _) fun _ => .pure _
    cases hi with
    | absent => exact .pure _
    | _ => exact h.expr (by constructor <;> assumption)
  | loop hc hb => exact h.loop hc hb

theorem execAll_twin (h : Parallel P n) {ss ss' : List Stmt} (hss : LikeStmts P.tokens ss ss') :
    Twin P (execAll (n + 1) ss) (execAll (n + 1) ss') := by
  cases hss with
  | nil => exact .pure _
  | cons hs hrest =>
    refine .bind (h.stmt hs) fun flow => ?_
    cases flow with
    | normal => exact h.stmts hrest
    | returned v => exact .pure _

theorem execLoop_twin (h : Parallel P n) {condition condition' : Expr} {body body' : Stmt}
    (hc : condition.Like P.tokens condition') (hb : body.Like P.tokens body') :
    Twin P (execLoop (n + 1) condition body) (execLoop (n + 1) condition' body') := by
  refine .bind (h.expr hc) fun c => .ite (.bind (h.stmt hb) fun flow => ?_) (.pure _)
  cases flow with
  | normal => exact h.loop hc hb
  | returned v => exact .pure _

/-- **Side by side.** With every amount of fuel, evaluation of trees that are alike ends alike. -/
theorem parallel (P : Pairing) (n : Nat) : Parallel P n := by
  induction n with
  | zero =>
    have hcut : ∀ {α : Type}, Twin P (throw .outOfFuel : Eval α) (throw .outOfFuel) :=
      .throw .outOfFuel
    exact ⟨fun _ => hcut, fun _ => hcut, fun _ _ _ _ _ => hcut, fun _ _ => hcut,
      fun _ _ _ _ _ => hcut, fun _ => hcut, fun _ => hcut, fun _ _ => hcut⟩
  | succ n ih =>
    exact ⟨eval_twin ih, evalAll_twin ih, fun id args _ _ => invoke_twin ih id args,
      runFunction_twin ih, fun cls args _ _ => instantiate_twin ih cls args, exec_twin ih,
      execAll_twin ih, execLoop_twin ih⟩

/-- Programs that are alike end alike. -/
theorem interpret_twin (fuel : Nat) {program program' : List Stmt}
    (h : LikeStmts P.tokens program program') (last : Held) :
    Twin P (interpret fuel program last) (interpret fuel program' last) := by
  induction h generalizing last with
  | nil => exact .pure _
  | @cons s s' rest rest' hs _ ih =>
    unfold interpret
    cases hs with
    | expr he => exact .bind ((parallel P fuel).expr he) fun v => ih (some v)
    | _ =>
      refine .bind ((parallel P fuel).stmt (by constructor <;> assumption)) fun flow => ?_
      cases flow with
      | normal => exact ih last
      | returned v => exact .pure _

end Eval

end Dynascope
