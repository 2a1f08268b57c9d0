import Dynascope.Proofs.Eval.Framed

/-!
# Functions that are the same

Functions are equal if name, body and receiver are. A body belongs to one declaration, so equal
functions differ at most in their owners, and a call asks for the owner only to find the superclass
of a bound method.

* `Function.Stems.detached_eq`: equal functions are the same up to receiver and owner.
* `invoke_of_detached`: what a call of a function depends on.
* `Machine.invoke_same`: calls of equal functions over whole histories.
* `Machine.invoke_differs`: equal methods of classes with different superclasses.
-/

namespace Dynascope

open Eval Machine

variable {D : FunDecl → Prop} {f g : Function}

/-- A function of a catalogue has its site. -/
theorem Function.Stems.site? (hD : Catalogue D) (h : f.Stems D) :
    f.detached = printFunction ∧ f.code.site? = none ∨
      ∃ d, D d ∧ f.detached = .ofDecl d none ∧ f.code.site? = some d.site := by
  obtain hprint | ⟨d, hd, hadmits⟩ := h
  · have hcode : f.code = .print := congrArg Function.code hprint
    exact .inl ⟨hprint, by rw [hcode]; rfl⟩
  · have hcode : f.code = .declared d.site d.body := congrArg Function.code hd
    have hmem : D d := by
      obtain ⟨site, name, params, body⟩ := d
      exact (List.forall_mem_cons.mp hadmits).1
    obtain ⟨body, hbody⟩ := hD.block d hmem
    exact .inr ⟨d, hmem, hd, by rw [hcode, hbody]; rfl⟩

/-- Equal functions are made from one declaration. -/
theorem Function.Stems.detached_eq (hD : Catalogue D) (hf : f.Stems D) (hg : g.Stems D)
    (hsite : f.code.site? = g.code.site?) : f.detached = g.detached := by
  rcases hf.site? hD with ⟨hf, hfsite⟩ | ⟨d, hd, hf, hfsite⟩
  · rcases hg.site? hD with ⟨hg, -⟩ | ⟨d', -, -, hgsite⟩
    · rw [hf, hg]
    · rw [hfsite, hgsite] at hsite
      cases hsite
  · rcases hg.site? hD with ⟨-, hgsite⟩ | ⟨d', hd', hg, hgsite⟩
    · rw [hfsite, hgsite] at hsite
      cases hsite
    · rw [hfsite, hgsite] at hsite
      rw [hf, hg, hD.distinct d d' hd hd' (Option.some.inj hsite)]

namespace Eval

variable {m : Machine}

/-- The owner matters only for the superclass of a bound function. -/
theorem defineReceiver_congr (hthis : f.this = g.this)
    (hsuper : f.isBound = true → m.store.superclassOf? f = m.store.superclassOf? g) :
    defineReceiver f m = defineReceiver g m := by
  have hbound : g.isBound = f.isBound := by rw [Function.isBound, Function.isBound, hthis]
  unfold defineReceiver
  rw [hbound, ← hthis]
  cases hb : f.isBound with
  | false => rfl
  | true =>
    simp only [if_true, get_bind_apply, hsuper hb]

theorem withFrame_congr {α : Type} {act act' : Eval α} {name : Text}
    (h : act { m with frames := m.frames.push name } =
      act' { m with frames := m.frames.push name }) :
    withFrame name act m = withFrame name act' m := by
  unfold withFrame
  rw [h]

/-- The run of a function depends on its declaration, its receiver and, if it is bound, its
superclass. -/
theorem runFunction_congr (hd : f.detached = g.detached) (hthis : f.this = g.this)
    (hsuper : f.isBound = true → m.store.superclassOf? f = m.store.superclassOf? g) (fuel : Nat)
    (args : List Value) : runFunction fuel f args m = runFunction fuel g args m := by
  have hname : f.name = g.name := (congrArg Function.name hd :)
  have hparams : f.params = g.params := (congrArg Function.params hd :)
  have hcode : f.code = g.code := (congrArg Function.code hd :)
  cases fuel with
  | zero => rfl
  | succ n =>
    unfold runFunction
    rw [← hcode, ← hname, ← hparams]
    generalize f.code = code
    cases code with
    | print => cases args <;> rfl
    | declared site body =>
      cases body with
      | block body =>
        refine bind_congr_first (withFrame_congr ?_) _
        exact bind_congr_first
          (defineReceiver_congr (m := { m with frames := m.frames.push f.name }) hthis hsuper) _
      | _ => rfl

/-- The call of a function depends on the same. -/
theorem invoke_of_detached {id id' : FunctionId} (hf : m.store.function? id = some f)
    (hg : m.store.function? id' = some g) (hd : f.detached = g.detached) (hthis : f.this = g.this)
    (hsuper : f.isBound = true → m.store.superclassOf? f = m.store.superclassOf? g) (fuel : Nat)
    (args : List Value) (token : Option Token) :
    invoke fuel id args token m = invoke fuel id' args token m := by
  have harity : f.arity = g.arity := congrArg (·.params.length) hd
  cases fuel with
  | zero => rfl
  | succ n =>
    have hrun : attributed token (counted (runFunction n f args)) m =
        attributed token (counted (runFunction n g args)) m := by
      have := runFunction_congr (m := { m with depth := m.depth + 1 }) hd hthis hsuper n args
      simp only [attributed, counted, this]
    simp only [invoke, get_bind_apply, hf, hg, harity]
    split
    · rfl
    · split
      · rfl
      · exact hrun

end Eval

namespace Store

/-- Equal functions are one object, or two that agree in body and receiver. -/
theorem equal_function {s : Store} {id id' : FunctionId}
    (h : s.equal (.function id) (.function id') = true) :
    id = id' ∨ ∃ f g, s.function? id = some f ∧ s.function? id' = some g ∧
      f.code.site? = g.code.site? ∧ f.this = g.this := by
  simp only [equal] at h
  split at h
  next f g hf hg =>
    simp only [Function.same, Bool.and_eq_true, decide_eq_true_eq] at h
    exact .inr ⟨f, g, hf, hg, h.1.2, h.2⟩
  next => exact .inl (eq_of_beq h)

end Store

namespace Machine

/-- **Equal functions are the same.** On a machine with any limits that has run any sources with any
output, at every moment of the run of a source: calls of two equal functions with the same
arguments do the same, unless they are bound methods of classes with different superclasses. -/
theorem invoke_same (limits : List Int) (turns : List Turn)
    (hturns : ∀ turn ∈ turns, turn.isSource) (source : Text) (c : Moment)
    (h : Moment.Reaches (.opening ((configured limits).after turns)
      (parseProgram (tokenize source).1).statements) c) (id id' : FunctionId)
    (hequal : c.machine.store.equal (.function id) (.function id') = true)
    (hsuper : ∀ f g, c.machine.store.function? id = some f →
      c.machine.store.function? id' = some g → f.isBound = true →
      c.machine.store.superclassOf? f = c.machine.store.superclassOf? g)
    (fuel : Nat) (args : List Value) (token : Option Token) :
    invoke fuel id args token c.machine = invoke fuel id' args token c.machine := by
  obtain rfl | ⟨f, g, hf, hg, hsite, hthis⟩ := Store.equal_function hequal
  · rfl
  · obtain ⟨D, hD, hopening⟩ := (known_after (known_configured limits) hturns).exists_framed source
    have hstems := (hopening.reaches h).machine
    have hd := (hstems.functions hf).detached_eq hD (hstems.functions hg) hsite
    exact invoke_of_detached hf hg hd hthis (hsuper f g hf hg) fuel args token

/-- Two lookups of one method give two objects, and to call them is the same. -/
theorem invoke_same_lookups :
    let c := Moment.opening ((configured []).after [.run 40
      "class A \x7bm(x) \x7breturn x;\x7d\x7d var a = A(); var f = a.m; var g = a.m;"])
      (parseProgram (tokenize "f == g;").1).statements
    c.machine.frames.get? "f" = some (.function 2) ∧
      c.machine.frames.get? "g" = some (.function 3) ∧
      ∀ fuel args token,
        invoke fuel 2 args token c.machine = invoke fuel 3 args token c.machine := by
  intro c
  have hnames : c.machine.frames.get? "f" = some (.function 2) ∧
      c.machine.frames.get? "g" = some (.function 3) := by decide +kernel
  have hsame : c.machine.store.equal (.function 2) (.function 3) = true := by decide +kernel
  have hclass : (c.machine.store.function? 2).map c.machine.store.superclassOf? =
      (c.machine.store.function? 3).map c.machine.store.superclassOf? := by decide +kernel
  have hcalls := invoke_same [] _ (by decide) _ c .refl 2 3 hsame
  clear_value c
  refine ⟨hnames.1, hnames.2, hcalls fun f g hf hg _ => ?_⟩
  rw [hf, hg] at hclass
  exact Option.some.inj hclass

/-- The methods of two classes that one declaration made, with different superclasses: bound to one
instance they are equal, but to call them is not the same. -/
theorem invoke_differs :
    let m := (configured []).after [.run 40
      "class A \x7bm() \x7breturn \"A\";\x7d\x7d
       fun make() \x7b
         class B < P \x7bm() \x7breturn \"B\" + super.m();\x7d up() \x7breturn super.m;\x7d\x7d
         return B;
       \x7d
       var P = A; P = make(); P = make(); var i = P(); var f = i.m; var g = i.up();"]
    m.frames.get? "f" = some (.function 7) ∧ m.frames.get? "g" = some (.function 9) ∧
      m.store.equal (.function 7) (.function 9) = true ∧
      (invoke 20 7 [] none).run' m = some (.string "BBA") ∧
      (invoke 20 9 [] none).run' m = some (.string "BA") := by
  decide +kernel

end Machine

end Dynascope
