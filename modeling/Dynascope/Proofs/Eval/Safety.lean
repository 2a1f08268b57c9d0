import Dynascope.Proofs.Eval.History
import Dynascope.Proofs.Eval.Sound

/-!
# Sources run safely

Nothing in a source leads evaluation astray: the scanner makes tokens with texts and values, the
parser makes trees with all their parts, and evaluation of such trees keeps the machine sound.

* `Guarded n`: with fuel `n`, evaluation of trees with all their parts is safe.
* `guarded`: this holds of every fuel.
* `Machine.Sound.interpretWith`, `Machine.Sound.perform`: programs with all their parts and turns
  that run sources keep a machine sound.
* `Machine.sources_safe`: the errors of sources, for every history of a machine.
-/

namespace Dynascope

/-- The value that a statement returns, if it does, refers to nothing outside the extent. -/
def Flow.Within (x : Extent) : Flow → Prop
  | .normal => True
  | .returned v => v.Within x

namespace Eval

open Machine

/-- With fuel `n`, evaluation of trees with all their parts is safe, and so are calls of functions
that exist. -/
structure Guarded (n : Nat) : Prop where
  expr : ∀ {m e}, e.Proper → Safe (eval n e) m Known
  exprs : ∀ {m es}, ProperAll es → Safe (evalAll n es) m fun vs x => ∀ v ∈ vs, v.Within x
  call : ∀ {m : Machine} {id args token}, id < m.extent.functions →
    (∀ v ∈ args, v.Within m.extent) → token.isSome → Safe (invoke n id args token) m Known
  code : ∀ {m : Machine} {f args}, f.Sound m.extent → args.length = f.arity →
    (∀ v ∈ args, v.Within m.extent) → Safe (runFunction n f args) m Known
  construct : ∀ {m : Machine} {cls args token}, (∀ v ∈ args, v.Within m.extent) →
    token.isSome → Safe (instantiate n cls args token) m Known
  stmt : ∀ {m s}, s.Proper → Safe (exec n s) m fun flow x => flow.Within x
  stmts : ∀ {m ss}, ProperBlock ss → Safe (execAll n ss) m fun flow x => flow.Within x
  loop : ∀ {m condition body}, condition.Proper → body.Proper →
    Safe (execLoop n condition body) m fun flow x => flow.Within x

variable {n : Nat} {m : Machine}

/-! ## Expressions -/

theorem withinAll_mono {x y : Extent} {vs : List Value} (h : ∀ v ∈ vs, v.Within x)
    (hxy : x.Le y) : ∀ v ∈ vs, v.Within y :=
  fun v hv => (h v hv).mono hxy

theorem ofLiteral?_within {value : Literal} {v : Value} {x : Extent}
    (h : Value.ofLiteral? value = some v) : v.Within x := by
  cases value with
  | foreign _ => cases h
  | _ => cases h; trivial

theorem eval_safe (h : Guarded n) {e : Expr} (he : e.Proper) :
    Safe (eval (n + 1) e) m Known := by
  cases e with
  | absent => exact he.elim
  | assign name value =>
    refine Safe.bind (h.expr he.2) fun v m' _ hv => ?_
    exact Safe.bind (assign_safe hv) fun _ _ hle _ => Safe.pure (hv.mono hle)
  | binary left operator right =>
    obtain ⟨hop, hl, hr⟩ := he
    exact Safe.bind (h.expr hl) fun _ _ _ _ => Safe.bind (h.expr hr) fun _ _ _ _ =>
      binaryOp_safe hop
  | call callee paren arguments =>
    obtain ⟨hp, hc, ha⟩ := he
    refine Safe.bind (h.expr hc) fun f m' _ hf => ?_
    refine Safe.bind (h.exprs ha) fun args m'' hle hargs => ?_
    split
    · exact h.call (hf.mono hle) hargs hp
    · exact h.construct hargs hp
    · exact Safe.fail rfl hp
  | get object name =>
    obtain ⟨⟨x, rfl, hx⟩, ho⟩ := he
    refine Safe.bind (h.expr ho) fun o m' _ ho => ?_
    split
    · exact property_safe ho
    · exact Safe.unexpected rfl
  | group inner => exact h.expr he
  | literal value =>
    obtain ⟨v, hv⟩ := Option.isSome_iff_exists.mp he
    unfold eval
    rw [hv]
    exact Safe.pure (ofLiteral?_within hv)
  | logical left operator right =>
    obtain ⟨hop, hl, hr⟩ := he
    refine Safe.bind (h.expr hl) fun l m' _ hv => ?_
    refine Safe.bind (decides_safe hop) fun decided m'' hle _ => ?_
    split
    · exact Safe.pure (hv.mono hle)
    · exact h.expr hr
  | set object name value =>
    obtain ⟨⟨x, rfl, hn⟩, ho, hv⟩ := he
    refine Safe.bind (h.expr ho) fun o m' _ hobject => ?_
    split
    · refine Safe.bind (h.expr hv) fun v m'' hle hwithin => ?_
      show Safe (setField _ x v >>= fun _ => Pure.pure v) m'' Known
      refine Safe.bind (setField_safe (hobject.mono hle) hn hwithin) fun _ _ hle' _ => ?_
      exact Safe.pure (hwithin.mono hle')
    · exact Safe.unexpected rfl
  | superMethod keyword method => exact superMethod_safe he.1
  | receiver keyword => exact lookup_safe he
  | unary operator right =>
    exact Safe.bind (h.expr he.2) fun _ _ _ _ => unaryOp_safe he.1
  | name name => exact lookup_safe rfl

theorem evalAll_safe (h : Guarded n) {es : List Expr} (hes : ProperAll es) :
    Safe (evalAll (n + 1) es) m fun vs x => ∀ v ∈ vs, v.Within x := by
  cases es with
  | nil => exact Safe.pure nofun
  | cons e rest =>
    refine Safe.bind (h.expr hes.1) fun v m' _ hv => ?_
    refine Safe.bind (h.exprs hes.2) fun vs m'' hle hvs => ?_
    exact Safe.pure (List.forall_mem_cons.mpr ⟨hv.mono hle, hvs⟩)

/-! ## Calls -/

/-- The function exists and has as many parameters as there are arguments when its code runs. -/
theorem invoke_safe (h : Guarded n) {id : FunctionId} {args : List Value} {token : Option Token}
    (hid : id < m.extent.functions) (hargs : ∀ v ∈ args, v.Within m.extent) (ht : token.isSome) :
    Safe (invoke (n + 1) id args token) m Known := by
  refine Safe.get_bind (Safe.of_sound fun hm => ?_)
  obtain ⟨f, hf⟩ : ∃ f, m.store.function? id = some f := ⟨_, Array.getElem?_eq_getElem hid⟩
  simp only [hf]
  split
  · exact Safe.fail rfl ht
  next hcount =>
    split
    · exact Safe.fail rfl ht
    · have hsound := hm.functions id f hf
      exact Safe.attributed (Safe.counted (h.code hsound (Decidable.not_not.mp hcount) hargs))

theorem runFunction_safe (h : Guarded n) {f : Function} {args : List Value}
    (hf : f.Sound m.extent) (hcount : args.length = f.arity)
    (hargs : ∀ v ∈ args, v.Within m.extent) : Safe (runFunction (n + 1) f args) m Known := by
  have hcode := hf.code
  have hlength : f.params.length = args.length := hcount.symm
  unfold runFunction
  split
  next hprint =>
    -- `print` has a parameter, so there is an argument for it.
    rw [hprint] at hcode
    exact absurd (List.eq_nil_of_length_eq_zero hlength) hcode
  next => exact Safe.get_bind (Safe.bind write_safe fun _ _ _ _ => Safe.pure trivial)
  next body hbody =>
    rw [hbody] at hcode
    refine Safe.bind (Safe.withFrame (Q := fun flow x => Flow.Within x flow) ?_)
      fun flow m' _ hflow => ?_
    · refine Safe.bind (defineReceiver_safe hf) fun _ m' hle _ => ?_
      refine Safe.bind (defineAll_safe hf.params (withinAll_mono hargs hle)
        (Nat.le_of_eq hlength)) fun _ m'' _ _ => ?_
      exact h.stmts hcode
    · split
      · exact Safe.pure hflow
      · exact Safe.pure trivial
  next body hother hbody =>
    rw [hbody] at hcode
    obtain ⟨ss, rfl⟩ := hcode.eq_block
    exact (hother ss rfl).elim

theorem instantiate_safe (h : Guarded n) {cls : ClassId} {args : List Value}
    {token : Option Token} (hargs : ∀ v ∈ args, v.Within m.extent) (ht : token.isSome) :
    Safe (instantiate (n + 1) cls args token) m Known := by
  refine Safe.bind newInstance_safe fun id m' hle hid => Safe.get_bind ?_
  refine Safe.bind (boundMethod_safe hid) fun f m'' hle' hf => ?_
  split
  · have hargs'' := withinAll_mono hargs (hle.trans hle')
    refine Safe.bind (h.call hf hargs'' ht) fun _ _ hle'' _ => ?_
    exact Safe.pure (hid.mono (hle'.trans hle''))
  · exact Safe.pure (hid.mono hle')

/-! ## Statements -/

theorem exec_safe (h : Guarded n) {s : Stmt} (hs : s.Proper) :
    Safe (exec (n + 1) s) m fun flow x => flow.Within x := by
  cases s with
  | absent => exact hs.elim
  | block body => exact Safe.withFrame (h.stmts hs)
  | classDecl name superclass methods =>
    exact Safe.bind (declareClass_safe hs.1 hs.2) fun _ _ _ _ => Safe.pure trivial
  | expr e => exact Safe.bind (h.expr hs) fun _ _ _ _ => Safe.pure trivial
  | funDecl decl =>
    have hname : decl.name.lexeme ≠ [] := by
      obtain ⟨site, name, params, body⟩ := decl
      exact hs.1
    refine Safe.bind (newFunction_safe (sound_ofDecl hs none)) fun id m' _ hid => ?_
    exact Safe.bind (define_safe hname hid) fun _ _ _ _ => Safe.pure trivial
  | choice condition yes no =>
    obtain ⟨hc, hy, hn⟩ := hs
    refine Safe.bind (h.expr hc) fun c m' _ _ => ?_
    split
    · exact h.stmt hy
    · split
      · exact Safe.pure trivial
      next hne => exact h.stmt (hn.resolve_left hne)
  | ret keyword value =>
    unfold exec
    split
    · exact Safe.pure trivial
    next hne =>
      exact Safe.bind (h.expr (hs.resolve_left hne)) fun v _ _ hv => Safe.pure hv
  | varDecl name initial =>
    obtain ⟨hn, hi⟩ := hs
    refine Safe.bind (Q := fun v x => v.Within x) ?_ fun v m' _ hv => ?_
    · split
      · exact Safe.pure trivial
      next hne => exact h.expr (hi.resolve_left hne)
    · exact Safe.bind (define_safe hn hv) fun _ _ _ _ => Safe.pure trivial
  | loop condition body => exact h.loop hs.1 hs.2

theorem execAll_safe (h : Guarded n) {ss : List Stmt} (hss : ProperBlock ss) :
    Safe (execAll (n + 1) ss) m fun flow x => flow.Within x := by
  cases ss with
  | nil => exact Safe.pure trivial
  | cons s rest =>
    refine Safe.bind (h.stmt hss.1) fun flow m' _ hflow => ?_
    split
    · exact h.stmts hss.2
    · exact Safe.pure hflow

theorem execLoop_safe (h : Guarded n) {condition : Expr} {body : Stmt} (hc : condition.Proper)
    (hb : body.Proper) : Safe (execLoop (n + 1) condition body) m fun flow x => flow.Within x := by
  refine Safe.bind (h.expr hc) fun c m' _ _ => ?_
  split
  · refine Safe.bind (h.stmt hb) fun flow m'' _ hflow => ?_
    split
    · exact h.loop hc hb
    · exact Safe.pure hflow
  · exact Safe.pure trivial

/-! ## Programs -/

theorem guarded_zero : Guarded 0 where
  expr _ := Safe.throw trivial
  exprs _ := Safe.throw trivial
  call _ _ _ := Safe.throw trivial
  code _ _ _ := Safe.throw trivial
  construct _ _ := Safe.throw trivial
  stmt _ := Safe.throw trivial
  stmts _ := Safe.throw trivial
  loop _ _ := Safe.throw trivial

/-- Evaluation is safe with every amount of fuel. -/
theorem guarded (n : Nat) : Guarded n := by
  induction n with
  | zero => exact guarded_zero
  | succ n ih =>
    exact ⟨eval_safe ih, evalAll_safe ih, invoke_safe ih, runFunction_safe ih,
      instantiate_safe ih, exec_safe ih, execAll_safe ih, execLoop_safe ih⟩

/-- A program with all its parts is safe. -/
theorem interpret_safe {fuel : Nat} {program : List Stmt} {last : Held} (h : ProperBlock program) :
    Safe (interpret fuel program last) m fun _ _ => True := by
  induction program generalizing m last with
  | nil => exact Safe.pure trivial
  | cons s rest ih =>
    unfold interpret
    split
    · exact Safe.bind ((guarded fuel).expr h.1) fun _ _ _ _ => ih h.2
    · refine Safe.bind ((guarded fuel).stmt h.1) fun flow m' _ _ => ?_
      split
      · exact ih h.2
      · exact Safe.pure trivial

end Eval

/-! ## Histories -/

/-- The turn runs a source or changes the output. -/
def Turn.isSource : Turn → Bool
  | .run _ _ => true
  | .interpret _ _ => false
  | .output _ => true

theorem properBlock_of_forall {ss : List Stmt} (h : ∀ s ∈ ss, s.Proper) : ProperBlock ss := by
  induction ss with
  | nil => trivial
  | cons s ss ih =>
    rw [List.forall_mem_cons] at h
    exact ⟨h.1, ih h.2⟩

/-- Nothing but the source, the output or the fuel is to blame if the run failed. -/
def Report.Proper (r : Report) : Prop :=
  match r.error with
  | some (.stop stop) => stop.Proper
  | _ => True

theorem Report.proper_of_ne {r : Report} (h : ∀ stop, r.error ≠ some (.stop stop)) : r.Proper := by
  unfold Report.Proper
  split
  next stop hs => exact absurd hs (h stop)
  next => trivial

/-- The error of the program that a report names. -/
def Report.fault? (r : Report) : Option RuntimeError :=
  match r.error with
  | some (.stop (.fault e)) => some e
  | _ => none

theorem Report.error_of_fault? {r : Report} {e : RuntimeError} (h : r.fault? = some e) :
    r.error = some (.stop (.fault e)) := by
  unfold Report.fault? at h
  split at h
  next he => rw [he, Option.some.inj h]
  next => cases h

namespace Machine

/-- A program with all its parts keeps a machine sound and has a proper report. -/
theorem Sound.interpretWith {m : Machine} (hm : m.Sound) (fuel : Nat) {program : List Stmt}
    (h : ProperBlock program) (diagnostics : List ParseError) :
    (m.interpretWith fuel program diagnostics).2.Sound ∧
      (m.interpretWith fuel program diagnostics).1.Proper := by
  have hnumbered : ProperBlock (m.load program).1 := proper_numberedAll program m.nextSite h
  have hloaded : (m.load program).2.Sound := ⟨hm.frames, hm.fields, hm.functions⟩
  have hend : Ends (Eval.interpret fuel (m.load program).1 none) _ _ _ :=
    Eval.interpret_safe hnumbered hloaded
  unfold Ends at hend
  unfold Machine.interpretWith
  simp only
  split
  next value m' hr =>
    rw [hr] at hend
    exact ⟨hend.1.sound, trivial⟩
  next stop m' hr =>
    rw [hr] at hend
    exact ⟨hend.1.sound, hend.2⟩

/-- A source keeps a machine sound and has a proper report. -/
theorem Sound.runWith {m : Machine} (hm : m.Sound) (fuel : Nat) (source : Text) :
    (m.runWith fuel source).2.Sound ∧ (m.runWith fuel source).1.Proper := by
  rcases runWith_cases fuel m source with ⟨report, hr, hstop⟩ | hr
  · rw [hr]
    exact ⟨hm, Report.proper_of_ne hstop⟩
  · rw [hr]
    exact hm.interpretWith fuel (properBlock_of_forall fun _ => proper_of_source) _

theorem Sound.perform {m : Machine} (hm : m.Sound) {turn : Turn} (h : turn.isSource) :
    (m.perform turn).Sound := by
  cases turn with
  | run fuel source => exact (hm.runWith fuel source).1
  | interpret fuel program => cases h
  | output writesLeft => exact ⟨hm.frames, hm.fields, hm.functions⟩

theorem Sound.after {m : Machine} (hm : m.Sound) {turns : List Turn}
    (h : ∀ turn ∈ turns, turn.isSource) : (m.after turns).Sound := by
  induction turns generalizing m with
  | nil => exact hm
  | cons turn rest ih =>
    rw [List.forall_mem_cons] at h
    exact ih (hm.perform h.1) h.2

/-- A new machine is sound: it holds `print` and nothing else. -/
theorem sound_new : new.Sound where
  frames := by
    have hprint : Value.Within new.extent (.function 0) := Nat.zero_lt_one
    exact Frames.each_mk.mpr ⟨nofun, Bindings.Each.set .empty hprint⟩
  fields := nofun
  functions := by
    have hprint : printFunction.Sound new.extent := ⟨by decide, List.cons_ne_nil _ _, nofun⟩
    exact Store.Callable.addFunction (s := Store.empty) nofun hprint

theorem sound_configured (limits : List Int) : (configured limits).Sound := by
  obtain ⟨maxDepth, hc⟩ := configured_eq limits
  rw [hc]
  exact ⟨sound_new.frames, sound_new.fields, sound_new.functions⟩

/-- **Sources run safely.** On a machine with any limits that has run any sources with any output,
a source ends with a value, with an error of the program that stands at a token, or with a write
that failed: no name is empty, no argument is missing, no tree lacks a part and no reference leads
nowhere. And every parse error of a source stands at one of its tokens. -/
theorem sources_safe (limits : List Int) (turns : List Turn) (h : ∀ turn ∈ turns, turn.isSource)
    (fuel : Nat) (source : Text) :
    (((configured limits).after turns).runWith fuel source).1.Proper ∧
      ∀ e ∈ (parseProgram (tokenize source).1).errors, e.Located (tokenize source).1 := by
  have hm := (sound_configured limits).after h
  exact ⟨(hm.runWith fuel source).2, fun _ => located_of_source⟩

/-- A variable of an earlier run is called that holds no function. -/
theorem sources_safe_notCallable :
    ∃ e, (((configured [2]).after [.run 9 "var a;"]).runWith 9 "a();").1.error =
      some (.stop (.fault e)) ∧ e.fault.isInternal = false ∧ e.token.isSome := by
  have hsafe := (sources_safe [2] [.run 9 "var a;"] (by decide) 9 "a();").1
  have hfault : (((configured [2]).after [.run 9 "var a;"]).runWith 9 "a();").1.fault?.isSome := by
    decide +kernel
  obtain ⟨e, he⟩ := Option.isSome_iff_exists.mp hfault
  have herror := Report.error_of_fault? he
  unfold Report.Proper at hsafe
  rw [herror] at hsafe
  exact ⟨e, herror, hsafe⟩

end Machine

end Dynascope
