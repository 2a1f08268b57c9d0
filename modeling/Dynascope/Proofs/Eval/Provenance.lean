import Dynascope.Proofs.Eval.ObjectStore
import Dynascope.Proofs.Eval.Roles
import Dynascope.Proofs.Tree.Mentions

/-!
# Where code comes from

All code that runs stems from the programs that were loaded: evaluation takes trees apart, but it
makes none. So what all programs mention says which names are ever bound and which declarations
function objects are made from.

* `Mention.Admitted D`: what programs may mention: ordinary names and the declarations of `D`.
* `Function.Stems D`: a function object made from a declaration of `D`, or `print`.
* `Machine.Stems D`: all function objects are such ones, and the global frame is plain.
* `KeepsStems`: what all operations of the machine do: they keep this, and the roles of frames too.
* `StepStems`: what a step does to roles, and that its code stems from admitted trees;
  `Task.begin_stems` and `Pending.resume_stems` go through all steps.
-/

namespace Dynascope

open Eval

/-! ## Admitted code -/

/-- An ordinary name, or one of the declarations. -/
def Mention.Admitted (D : FunDecl → Prop) : Mention → Prop
  | .name x => Ordinary x
  | .decl d => D d

/-- All that is mentioned is admitted. -/
def Admits (D : FunDecl → Prop) (xs : List Mention) : Prop :=
  ∀ x ∈ xs, x.Admitted D

section Admits

variable {D : FunDecl → Prop}

theorem admits_nil : Admits D [] :=
  nofun

theorem admits_append {xs ys : List Mention} :
    Admits D (xs ++ ys) ↔ Admits D xs ∧ Admits D ys :=
  List.forall_mem_append

theorem admits_name {x : Text} {xs : List Mention} :
    Admits D (.name x :: xs) ↔ Ordinary x ∧ Admits D xs :=
  List.forall_mem_cons

theorem Admits.mono {D' : FunDecl → Prop} {xs : List Mention} (h : Admits D xs)
    (hD : ∀ d, D d → D' d) : Admits D' xs := by
  intro x hx
  have hadmitted := h x hx
  cases x with
  | name x => exact hadmitted
  | decl d => exact hD d hadmitted

end Admits

/-- A function object without its receiver and its owner. -/
def Function.detached (f : Function) : Function :=
  { f with this := 0, owner := none }

/-- The function is `print`, or it is made from a declaration that mentions only what is
admitted. -/
def Function.Stems (D : FunDecl → Prop) (f : Function) : Prop :=
  f.detached = Machine.printFunction ∨
    ∃ d : FunDecl, f.detached = .ofDecl d none ∧ Admits D d.mentions

namespace Function.Stems

variable {D : FunDecl → Prop} {f : Function}

/-- Receiver and owner do not matter. -/
theorem of_detached {g : Function} (h : f.Stems D) (heq : g.detached = f.detached) : g.Stems D := by
  unfold Function.Stems at h ⊢
  rwa [heq]

theorem mono {D' : FunDecl → Prop} (h : f.Stems D) (hD : ∀ d, D d → D' d) : f.Stems D' :=
  h.imp_right fun ⟨d, hd, hadmits⟩ => ⟨d, hd, hadmits.mono hD⟩

theorem ofDecl {d : FunDecl} (h : Admits D d.mentions) (owner : Option ClassId) :
    (Function.ofDecl d owner).Stems D :=
  .inr ⟨d, rfl, h⟩

theorem params (h : f.Stems D) : ∀ x ∈ f.params, Ordinary x := by
  obtain hprint | ⟨d, hd, hadmits⟩ := h
  · have hparams : f.params = [("text" : Text)] := congrArg Function.params hprint
    rw [hparams]
    exact List.forall_mem_singleton.mpr ⟨by decide, by decide⟩
  · have hparams : f.params = d.params.map Token.lexeme := congrArg Function.params hd
    obtain ⟨site, name, params, body⟩ := d
    rw [hparams]
    intro x hx
    obtain ⟨t, ht, rfl⟩ := List.mem_map.mp hx
    have hname : .name t.lexeme ∈ namesOf (name :: params) :=
      List.mem_map_of_mem (List.mem_cons_of_mem _ ht)
    exact hadmits (.name t.lexeme) (List.mem_cons_of_mem _ (List.mem_append_left _ hname))

/-- A body that can be run mentions only what is admitted. -/
theorem body (h : f.Stems D) {site : Nat} {body : List Stmt}
    (hcode : f.code = .declared site (.block body)) : Admits D (Stmt.allMentions body) := by
  obtain hprint | ⟨d, hd, hadmits⟩ := h
  · have hprint : f.code = .print := congrArg Function.code hprint
    rw [hcode] at hprint
    cases hprint
  · have hdecl : f.code = .declared d.site d.body := congrArg Function.code hd
    obtain ⟨dsite, name, params, dbody⟩ := d
    rw [hcode] at hdecl
    obtain rfl : Stmt.block body = dbody := (Code.declared.inj hdecl).2
    exact (admits_append.mp (List.forall_mem_cons.mp hadmits).2).2

end Function.Stems

/-- All function objects stem from admitted declarations, all of which are numbered, and the global
frame binds neither the receiver nor the superclass. -/
structure Machine.Stems (D : FunDecl → Prop) (m : Machine) : Prop where
  functions : ∀ {id f}, m.store.function? id = some f → f.Stems D
  sites : ∀ d, D d → d.site < m.nextSite
  globals : m.frames.globals.role = .plain

/-- From a machine with admitted code, to one with admitted code and the same roles. -/
def Machine.KeepsStems (D : FunDecl → Prop) (m m' : Machine) : Prop :=
  m.Stems D → m'.Stems D ∧ m'.frames.roles = m.frames.roles

namespace Machine

variable {D : FunDecl → Prop}

instance : Std.Refl (KeepsStems D) :=
  ⟨fun _ h => ⟨h, rfl⟩⟩

instance : Trans (KeepsStems D) (KeepsStems D) (KeepsStems D) where
  trans h k hm := by
    obtain ⟨hm', hroles⟩ := h hm
    obtain ⟨hm'', hroles'⟩ := k hm'
    exact ⟨hm'', hroles'.trans hroles⟩

/-- A change of other parts of the machine. -/
theorem KeepsStems.of_eq {m m' : Machine} (hstore : m'.store = m.store)
    (hframes : m'.frames = m.frames) (hnext : m'.nextSite = m.nextSite) : KeepsStems D m m' := by
  intro h
  refine ⟨⟨?_, ?_, ?_⟩, ?_⟩
  · rw [hstore]
    exact h.functions
  · rw [hnext]
    exact h.sites
  · rw [hframes]
    exact h.globals
  · rw [hframes]

/-- New function objects. -/
theorem KeepsStems.of_store {m : Machine} {store : Store}
    (h : ∀ id f, store.function? id = some f → m.store.function? id = some f ∨ f.Stems D) :
    KeepsStems D m { m with store := store } := by
  refine fun hm => ⟨⟨fun {id f} hf => ?_, hm.sites, hm.globals⟩, rfl⟩
  rcases h id f hf with hold | hnew
  · exact hm.functions hold
  · exact hnew

end Machine

/-! ## The operations of the machine -/

namespace Eval

open Machine

variable {α : Type} {D : FunDecl → Prop}

/-- A computation that only reads the machine keeps whatever is to be kept. -/
theorem along_of_reads {R : Machine → Machine → Prop} [Std.Refl R] {act : Eval α}
    (h : Along Eq act) : Along R act :=
  Along.of_same fun m => (h m).symm

theorem lookup_reads (name : Text) (token : Option Token) : Along Eq (lookup name token) := by
  refine Along.get_bind fun m => ?_
  split
  · exact Along.pure _
  · exact Along.throw _

theorem number_reads (operator : Token) (value : Value) : Along Eq (number operator value) := by
  unfold number
  split
  · exact Along.pure _
  · exact Along.throw _

theorem unaryOp_reads (operator : Token) (right : Value) : Along Eq (unaryOp operator right) := by
  unfold unaryOp
  split
  · exact Along.pure _
  · exact Along.bind (number_reads _ _) fun _ => Along.pure _
  · exact Along.throw _

theorem numericOp_reads (operator : Token) (left right : Value) :
    Along Eq (numericOp operator left right) := by
  refine Along.bind (number_reads _ _) fun x => Along.bind (number_reads _ _) fun y => ?_
  split
  · split
    · exact Along.throw _
    · exact Along.pure _
  · split
    · exact Along.pure _
    · exact Along.throw _

theorem binaryOp_reads (operator : Token) (left right : Value) :
    Along Eq (binaryOp operator left right) := by
  refine Along.get_bind fun m => ?_
  split
  · exact Along.pure _
  · exact Along.pure _
  · split
    · exact Along.pure _
    · exact numericOp_reads _ _ _
  · exact numericOp_reads _ _ _

theorem decides_reads (operator : Token) (left : Value) : Along Eq (decides operator left) := by
  unfold decides
  split
  · exact Along.pure _
  · exact Along.pure _
  · exact Along.throw _

theorem define_stems {name : Text} (hname : Ordinary name) (value : Value) :
    Along (KeepsStems D) (define name value) := by
  intro m
  unfold define
  split
  next frames hd =>
    obtain ⟨hroles, hglobals⟩ := Frames.roles_define? hd hname
    exact fun hm => ⟨⟨hm.functions, hm.sites, hglobals.trans hm.globals⟩, hroles⟩
  next => exact Std.Refl.refl m

theorem assign_stems {name : Token} (hname : Ordinary name.lexeme) (value : Value) :
    Along (KeepsStems D) (assign name value) := by
  intro m
  unfold assign
  split
  next frames ha =>
    obtain ⟨hroles, hglobals⟩ := Frames.roles_assign? ha hname
    exact fun hm => ⟨⟨hm.functions, hm.sites, hglobals.trans hm.globals⟩, hroles⟩
  next => exact Std.Refl.refl m

theorem newFunction_stems {f : Function} (hf : f.Stems D) :
    Along (KeepsStems D) (newFunction f) := by
  refine fun m => KeepsStems.of_store fun id g hg => ?_
  rcases Store.function?_of_addFunction hg with rfl | hold
  · exact .inr hf
  · exact .inl hold

/-- The machine is read first, and what is read may be used. -/
theorem along_get_bind {R : Machine → Machine → Prop} {f : Machine → Eval α}
    (h : ∀ m, R m (finalState (f m m))) : Along R (MonadState.get >>= f) :=
  h

/-- A bound copy stems from the declaration of the method. -/
theorem boundMethod_stems (method : Option FunctionId) (id : InstanceId) :
    Along (KeepsStems D) (boundMethod method id) := by
  refine along_get_bind fun m => ?_
  cases hf : method.bind m.store.function? with
  | none => exact Std.Refl.refl m
  | some f =>
    intro hm
    obtain ⟨fid, -, hf⟩ := Option.bind_eq_some_iff.mp hf
    have hbound : (f.bind id).Stems D := (hm.functions hf).of_detached rfl
    exact Along.bind (newFunction_stems hbound) (fun _ => Along.pure _) m hm

theorem required_stems (x : Option α) : Along (KeepsStems D) (required x) := by
  cases x with
  | none => exact Along.throw _
  | some a => exact Along.pure a

theorem property_stems (id : InstanceId) (cls : Option ClassId) (name : Text) :
    Along (KeepsStems D) (property id cls name) := by
  refine Along.get_bind fun m => ?_
  split
  · exact Along.pure _
  · exact boundMethod_stems _ _

theorem superMethod_stems (keyword : Option Token) (method : Token) :
    Along (KeepsStems D) (superMethod keyword method) := by
  refine Along.bind (along_of_reads (lookup_reads _ _)) fun s => ?_
  split
  · refine Along.bind (along_of_reads (lookup_reads _ _)) fun t => ?_
    split
    · exact Along.get_bind fun _ => boundMethod_stems _ _
    · exact Along.throw _
  · exact Along.throw _

/-- Methods stem from their declarations. -/
theorem newClass_stems (name : Text) (superclass : Option ClassId) {methods : List FunDecl}
    (h : Admits D (FunDecl.allMentions (methods.map some))) :
    Along (KeepsStems D) (newClass name superclass methods) := by
  refine fun m => KeepsStems.of_store fun id f hf => ?_
  rcases Store.function?_of_addDeclared hf with hold | ⟨g, hg, rfl⟩
  · exact .inl hold
  · obtain ⟨d, hd, rfl⟩ := List.mem_map.mp hg
    have hadmits : Admits D d.mentions := fun x hx => h x (FunDecl.mem_allMentions hd hx)
    exact .inr ((Function.Stems.ofDecl hadmits none).of_detached rfl)

theorem newInstance_stems (cls : ClassId) : Along (KeepsStems D) (newInstance cls) :=
  fun _ => KeepsStems.of_eq rfl rfl rfl

theorem setField_stems (id : InstanceId) (name : Token) (value : Value) :
    Along (KeepsStems D) (setField id name value) := by
  intro m
  unfold setField
  split <;> exact KeepsStems.of_eq rfl rfl rfl

theorem write_stems (text : Text) : Along (KeepsStems D) (write text) := by
  intro m
  unfold write
  split <;> exact KeepsStems.of_eq rfl rfl rfl

end Eval

/-! ## Steps -/

/-- What a task mentions. -/
def Task.mentions : Task → List Mention
  | .expr e => e.mentions
  | .exprs es => Expr.allMentions es
  | .receive _ _ body => Stmt.allMentions body
  | .enter _ _ body => Stmt.allMentions body
  | .stmt s => s.mentions
  | .build name _ methods => .name name.lexeme :: FunDecl.allMentions methods
  | .stmts ss => Stmt.allMentions ss
  | .loop condition body => condition.mentions ++ body.mentions
  | .program ss _ => Stmt.allMentions ss
  | .call .. | .code .. | .construct .. | .setUp .. => []

/-- What is mentioned by that which waits. -/
def Pending.mentions : Pending → List Mention
  | .assign name => [.name name.lexeme]
  | .rightOperand _ right => right.mentions
  | .arguments _ es => Expr.allMentions es
  | .furtherArguments rest => Expr.allMentions rest
  | .decision _ right => right.mentions
  | .fieldValue _ value => value.mentions
  | .branches yes no => yes.mentions ++ no.mentions
  | .define name => [.name name]
  | .superclass name _ methods => .name name.lexeme :: FunDecl.allMentions methods
  | .following rest | .keep rest | .next rest _ => Stmt.allMentions rest
  | .test condition body | .again condition body => condition.mentions ++ body.mentions
  | _ => []

/-- What is mentioned by that which is turned to next. -/
def Control.mentions : Control → List Mention
  | .task t => t.mentions
  | .ending _ => []

/-- The code that is turned to next is admitted. -/
structure Control.Stems (D : FunDecl → Prop) (c : Control) : Prop where
  code : Admits D c.mentions
  function : ∀ f, c.function? = some f → f.Stems D

/-- Whether it is the end of a block or a body, with its frame, that waits. -/
def Pending.endsFrame : Pending → Bool
  | .bodyEnd | .blockEnd => true
  | _ => false

/-- Whether a call is about to define its receiver and its parameters. -/
def Control.isPrologue : Control → Bool
  | .task (.receive ..) | .task (.enter ..) => true
  | _ => false

/-- What a step leads to from a machine, when what is resumed takes `off` frames off: its code is
admitted, there is a frame without a role for each end that waits from then on, and a call begins
with a frame for its body. -/
structure NextStems (D : FunDecl → Prop) (off : Nat) (m : Machine) (next : Control × List Pending)
    (m' : Machine) : Prop where
  machine : m'.Stems D
  roles : m'.frames.roles =
    List.replicate (next.2.countP Pending.endsFrame) .plain ++ m.frames.roles.drop off
  control : next.1.Stems D
  waiting : Admits D (next.2.flatMap Pending.mentions)
  prologue : next.1.isPrologue = true →
    next.2 = [.bodyEnd] ∧ ∃ f args body, next.1 = .task (.receive f args body)

/-- What a step does to code and roles, however it ends. -/
def StepStems (D : FunDecl → Prop) (off : Nat) (first : Eval (Control × List Pending)) : Prop :=
  ∀ m, m.Stems D → Ends first m (NextStems D off m)
    (fun _ m' => m'.Stems D ∧ m'.frames.roles = m.frames.roles.drop off)

open Eval Machine

namespace StepStems

variable {α : Type} {D : FunDecl → Prop} {off : Nat} {c : Control} {new : List Pending}

/-- A step that only turns to something else. -/
theorem turn (hc : Admits D c.mentions)
    (hnew : Admits D (new.flatMap Pending.mentions) := by exact admits_nil)
    (hf : c.function? = none := by rfl) (hp : c.isPrologue = false := by rfl)
    (hcount : new.countP Pending.endsFrame = 0 := by rfl) : StepStems D 0 (pure (c, new)) := by
  intro m hm
  refine ⟨hm, ?_, ⟨hc, fun f hsome => ?_⟩, hnew, fun hsome => ?_⟩
  · show m.frames.roles = List.replicate (new.countP Pending.endsFrame) Role.plain ++ _
    rw [hcount]
    rfl
  · rw [hf] at hsome
    cases hsome
  · exact absurd (hp.symm.trans hsome) Bool.false_ne_true

theorem throw (stop : Stop) : StepStems D 0 (MonadExcept.throw stop) :=
  fun _ hm => ⟨hm, rfl⟩

/-- An operation of the machine comes first. -/
theorem bind {act : Eval α} {f : α → Eval (Control × List Pending)}
    (h : Along (KeepsStems D) act) (hf : ∀ a, StepStems D 0 (f a)) :
    StepStems D 0 (act >>= f) := by
  intro m hm
  have hact := h m hm
  unfold Ends
  cases hr : act m with
  | ok a m' =>
    rw [hr] at hact
    obtain ⟨hm', hroles⟩ := hact
    have hroles : m'.frames.roles = m.frames.roles := hroles
    rw [ok_bind hr]
    refine Ends.imp (hf a m' hm') (fun next m'' hnext => ?_) (fun stop m'' hstop => ?_)
    · exact ⟨hnext.machine, hroles ▸ hnext.roles, hnext.control, hnext.waiting, hnext.prologue⟩
    · exact ⟨hstop.1, hroles ▸ hstop.2⟩
  | error stop m' =>
    rw [hr] at hact
    rw [error_bind hr]
    exact hact

theorem ite {b : Prop} [Decidable b] {yes no : Eval (Control × List Pending)}
    (hyes : StepStems D 0 yes) (hno : StepStems D 0 no) :
    StepStems D 0 (if b then yes else no) := by
  split
  · exact hyes
  · exact hno

/-- A computation whose value is the ending. -/
theorem done {act : Eval Value} (h : Along (KeepsStems D) act) :
    StepStems D 0 (act >>= fun v => pure (.ending (.value v), [])) :=
  bind h fun _ => turn admits_nil

/-- A frame is put on top for a block or a body. -/
theorem push {name : Text} {p : Pending} (hp : p.endsFrame = true) (hc : c.Stems D)
    (hprologue : c.isPrologue = true →
      p = .bodyEnd ∧ ∃ f args body, c = .task (.receive f args body)) :
    StepStems D 0 (modify (fun m => { m with frames := m.frames.push name }) >>=
      fun _ => pure (c, [p])) := by
  intro m hm
  refine ⟨⟨hm.functions, hm.sites, hm.globals⟩, ?_, hc, ?_, fun h => ?_⟩
  · show (m.frames.push name).roles = _
    simp [Frames.roles_push, hp]
  · cases p <;> first | exact admits_nil | cases hp
  · obtain ⟨rfl, hreceive⟩ := hprologue h
    exact ⟨rfl, hreceive⟩

/-- A frame is taken off first. -/
theorem pop {first : Eval (Control × List Pending)} (h : StepStems D 0 first) :
    StepStems D 1 (modify (fun m => { m with frames := m.frames.pop }) >>= fun _ => first) := by
  intro m hm
  have hpopped : Machine.Stems D { m with frames := m.frames.pop } :=
    ⟨hm.functions, hm.sites, hm.globals⟩
  refine Ends.imp (h _ hpopped) (fun next m' hnext => ?_) (fun stop m' hstop => ?_)
  · have hroles := hnext.roles
    rw [Frames.roles_pop] at hroles
    exact ⟨hnext.machine, hroles, hnext.control, hnext.waiting, hnext.prologue⟩
  · have hroles := hstop.2
    rw [Frames.roles_pop] at hroles
    exact ⟨hstop.1, hroles⟩

end StepStems

variable {D : FunDecl → Prop}

theorem expr_stems {e : Expr} (h : Admits D e.mentions) : StepStems D 0 (Task.expr e).begin := by
  cases e with
  | absent => exact .throw _
  | assign name value =>
    obtain ⟨hname, hvalue⟩ := admits_name.mp h
    exact .turn hvalue (admits_name.mpr ⟨hname, admits_nil⟩)
  | literal value =>
    cases value with
    | foreign n => exact .throw _
    | _ => exact .turn admits_nil
  | superMethod keyword method => exact .done (superMethod_stems _ _)
  | receiver keyword => exact .done (along_of_reads (lookup_reads _ _))
  | name name => exact .done (along_of_reads (lookup_reads _ _))
  | get object name => exact .turn h
  | group inner => exact .turn h
  | unary operator right => exact .turn h
  | binary left operator right | logical left operator right | set left name right
  | call left paren right =>
    obtain ⟨hleft, hright⟩ := admits_append.mp h
    exact .turn hleft (admits_append.mpr ⟨hright, admits_nil⟩)

theorem call_stems (id : FunctionId) (args : List Value) (token : Option Token) :
    StepStems D 0 (Task.call id args token).begin := by
  refine fun m hm => Ends.get_bind ?_
  cases hf : m.store.function? id with
  | none => exact ⟨hm, rfl⟩
  | some f =>
    dsimp only
    split
    · exact ⟨hm, rfl⟩
    split
    · exact ⟨hm, rfl⟩
    · refine ⟨⟨hm.functions, hm.sites, hm.globals⟩, rfl, ⟨admits_nil, ?_⟩, admits_nil, nofun⟩
      exact fun g hg => Option.some.inj hg ▸ hm.functions hf

theorem code_stems {f : Function} (hf : f.Stems D) (args : List Value) :
    StepStems D 0 (Task.code f args).begin := by
  obtain ⟨name, params, code, this, owner⟩ := f
  cases code with
  | print =>
    cases args with
    | nil => exact .throw _
    | cons v rest =>
      exact .bind (Along.of_same fun _ => rfl) fun m => .bind (write_stems _) fun _ =>
        .turn admits_nil
  | declared site body =>
    cases body with
    | block body =>
      exact .push rfl ⟨hf.body rfl, fun g hg => Option.some.inj hg ▸ hf⟩
        fun _ => ⟨rfl, _, _, _, rfl⟩
    | _ => exact .throw _

theorem stmt_stems {s : Stmt} (h : Admits D s.mentions) : StepStems D 0 (Task.stmt s).begin := by
  cases s with
  | absent => exact .throw _
  | block body => exact .push rfl ⟨h, nofun⟩ nofun
  | classDecl name superclass methods =>
    obtain ⟨hnames, hmethods⟩ := admits_append.mp h
    obtain ⟨hname, hsuper⟩ := admits_name.mp hnames
    have hbuild : Admits D (.name name.lexeme :: FunDecl.allMentions methods) :=
      admits_name.mpr ⟨hname, hmethods⟩
    refine .bind (define_stems hname _) fun _ => ?_
    cases superclass with
    | none => exact .turn hbuild
    | some t => exact .turn hsuper (admits_append.mpr ⟨hbuild, admits_nil⟩)
  | expr e => exact .turn h
  | funDecl decl =>
    obtain ⟨site, name, params, body⟩ := decl
    have hname := (admits_name.mp (admits_append.mp (List.forall_mem_cons.mp h).2).1).1
    refine .bind (newFunction_stems (.ofDecl h none)) fun id => ?_
    exact .turn admits_nil (admits_name.mpr ⟨hname, admits_nil⟩)
  | choice condition yes no =>
    obtain ⟨hcondition, hbranches⟩ := admits_append.mp h
    exact .turn hcondition (admits_append.mpr ⟨hbranches, admits_nil⟩)
  | ret keyword value =>
    cases value with
    | absent => exact .turn admits_nil
    | _ => exact .turn h
  | varDecl name initial =>
    obtain ⟨hname, hinitial⟩ := admits_name.mp h
    have hdefine := admits_name.mpr ⟨hname, admits_nil (D := D)⟩
    cases initial with
    | absent => exact .turn admits_nil hdefine
    | _ => exact .turn hinitial hdefine
  | loop condition body => exact .turn h

/-- What the beginning of a task leads to, unless it is the prologue of a call. -/
theorem Task.begin_stems (t : Task) (h : (Control.task t).Stems D)
    (hp : (Control.task t).isPrologue = false) : StepStems D 0 t.begin := by
  obtain ⟨hcode, hfunction⟩ := h
  cases t with
  | expr e => exact expr_stems hcode
  | exprs es =>
    cases es with
    | nil => exact .turn admits_nil
    | cons e rest =>
      obtain ⟨he, hrest⟩ := admits_append.mp hcode
      exact .turn he (admits_append.mpr ⟨hrest, admits_nil⟩)
  | call id args token => exact call_stems id args token
  | code f args => exact code_stems (hfunction f rfl) args
  | receive f args body => cases hp
  | enter names values body => cases hp
  | construct cls args token =>
    exact .bind (newInstance_stems cls) fun _ => .turn admits_nil
  | setUp id cls args token =>
    refine .bind (Along.of_same fun _ => rfl) fun m => .bind (boundMethod_stems _ _) fun f => ?_
    cases f <;> exact .turn admits_nil
  | stmt s => exact stmt_stems hcode
  | build name superclass methods =>
    obtain ⟨hname, hmethods⟩ := admits_name.mp hcode
    cases hall : methods.mapM id with
    | none =>
      rw [Task.begin, hall]
      exact .throw _
    | some ds =>
      obtain rfl := mapM_id_eq_some.mp hall
      rw [Task.begin, hall, required, pure_bind]
      refine .bind (newClass_stems _ _ hmethods) fun id => ?_
      exact .turn admits_nil (admits_name.mpr ⟨hname, admits_nil⟩)
  | stmts ss =>
    cases ss with
    | nil => exact .turn admits_nil
    | cons s rest =>
      obtain ⟨hs, hrest⟩ := admits_append.mp hcode
      exact .turn hs (admits_append.mpr ⟨hrest, admits_nil⟩)
  | loop condition body =>
    exact .turn (admits_append.mp hcode).1 (admits_append.mpr ⟨hcode, admits_nil⟩)
  | program ss last =>
    cases ss with
    | nil => exact .turn admits_nil
    | cons s rest =>
      obtain ⟨hs, hrest⟩ := admits_append.mp hcode
      have hwaiting := admits_append.mpr ⟨hrest, admits_nil (D := D)⟩
      cases s <;> exact .turn hs hwaiting

/-- How many frames are taken off when an outcome is handed to what waits. -/
def Pending.off (p : Pending) : Nat :=
  if p.endsFrame then 1 else 0

/-- What waits for something else passes an ending on. -/
theorem pass_stems (o : Ending) : StepStems D 0 (pure (.ending o, [])) :=
  .turn admits_nil

/-- What becomes of what waits. -/
theorem Pending.resume_stems (p : Pending) (hp : Admits D p.mentions) (o : Ending) :
    StepStems D p.off (p.resume o) := by
  cases p with
  | bodyEnd =>
    refine .pop ?_
    cases o with
    | flow flow => cases flow <;> exact .turn admits_nil
    | _ => exact pass_stems _
  | blockEnd => exact .pop (pass_stems o)
  | active token =>
    refine .bind (fun _ => KeepsStems.of_eq rfl rfl rfl) fun _ => ?_
    cases o <;> exact .turn admits_nil
  | assign name =>
    cases o with
    | value v => exact .bind (assign_stems (admits_name.mp hp).1 v) fun _ => pass_stems _
    | _ => exact pass_stems _
  | rightOperand operator right =>
    cases o with
    | value l => exact .turn hp
    | _ => exact pass_stems _
  | operation l operator =>
    cases o with
    | value r => exact .done (along_of_reads (binaryOp_reads _ _ _))
    | _ => exact pass_stems _
  | arguments paren es =>
    cases o with
    | value f => exact .turn hp
    | _ => exact pass_stems _
  | application f paren =>
    cases o with
    | values args =>
      cases f with
      | function id => exact .turn admits_nil
      | cls id => exact .turn admits_nil
      | _ => exact .throw _
    | _ => exact pass_stems _
  | furtherArguments rest =>
    cases o with
    | value v => exact .turn hp
    | _ => exact pass_stems _
  | firstArgument v => cases o <;> exact .turn admits_nil
  | property name =>
    cases o with
    | value v =>
      cases v with
      | object id cls => exact .bind (required_stems _) fun x => .done (property_stems _ _ _)
      | _ => exact .throw _
    | _ => exact pass_stems _
  | decision operator right =>
    cases o with
    | value l =>
      refine .bind (along_of_reads (decides_reads _ _)) fun decided => ?_
      exact .ite (.turn admits_nil) (.turn hp)
    | _ => exact pass_stems _
  | fieldValue name value =>
    cases o with
    | value v =>
      cases v with
      | object id cls => exact .turn hp
      | _ => exact .throw _
    | _ => exact pass_stems _
  | field id cls name =>
    cases o with
    | value v =>
      exact .bind (required_stems _) fun x => .bind (setField_stems _ _ _) fun _ => pass_stems _
    | _ => exact pass_stems _
  | operand operator =>
    cases o with
    | value r => exact .done (along_of_reads (unaryOp_reads _ _))
    | _ => exact pass_stems _
  | constructed id cls => cases o <;> exact .turn admits_nil
  | discard => cases o <;> exact .turn admits_nil
  | branches yes no =>
    obtain ⟨hyes, hno⟩ := admits_append.mp hp
    cases o with
    | value c =>
      refine .ite (.turn hyes) ?_
      cases no <;> first | exact .turn admits_nil | exact .turn hno
    | _ => exact pass_stems _
  | ret => cases o <;> exact .turn admits_nil
  | define name =>
    cases o with
    | value v => exact .bind (define_stems (admits_name.mp hp).1 v) fun _ => .turn admits_nil
    | _ => exact pass_stems _
  | superclass name parent methods =>
    cases o with
    | value v =>
      cases v with
      | cls id => exact .turn hp
      | _ => exact .throw _
    | _ => exact pass_stems _
  | following rest =>
    cases o with
    | flow flow =>
      cases flow with
      | normal => exact .turn hp
      | returned v => exact pass_stems _
    | _ => exact pass_stems _
  | test condition body =>
    cases o with
    | value c =>
      refine .ite (.turn (admits_append.mp hp).2 ?_) (.turn admits_nil)
      exact admits_append.mpr ⟨hp, admits_nil⟩
    | _ => exact pass_stems _
  | again condition body =>
    cases o with
    | flow flow =>
      cases flow with
      | normal => exact .turn hp
      | returned v => exact pass_stems _
    | _ => exact pass_stems _
  | keep rest =>
    cases o with
    | value v => exact .turn hp
    | _ => exact pass_stems _
  | next rest last =>
    cases o with
    | flow flow =>
      cases flow with
      | normal => exact .turn hp
      | returned v => exact .turn admits_nil
    | _ => exact pass_stems _

end Dynascope
