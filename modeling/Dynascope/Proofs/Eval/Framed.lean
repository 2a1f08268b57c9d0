import Dynascope.Proofs.Eval.Provenance
import Dynascope.Proofs.Eval.Safety
import Mathlib.Data.List.Forall2

/-!
# Frames and what waits for their ends

At every moment of a run there is one frame for each end of a block or a body that waits, in the
same order. The frames of blocks, and the global one, bind neither the receiver nor the superclass;
the frames of bodies bind them, if at all, to an instance and to a class.

* `Suits`, `Role.Typed`, `Pending.Fits`: the values that go with the two names, and the roles that
  go with an end.
* `Moment.Framed`: the invariant of a moment, with the code of the moment.
* `Moment.Next`: what a step does to the stack and the roles, unless it belongs to the prologue of a
  call; `Framed.step_prologue` is about the other steps.
* `Framed.reaches`: whole runs keep the invariant.
* `Catalogue`, `Machine.Known`: sources never make two declarations with one site;
  `known_after` and `exists_framed` lead from histories to the invariant.
-/

namespace Dynascope

open Eval

/-! ## Roles that go with ends -/

/-- The value of the receiver is an instance, that of the superclass a class. -/
structure Suits (name : Text) (value : Value) : Prop where
  this : name = thisName → ∃ id cls, value = .object id (some cls)
  superclass : name = superName → ∃ id, value = .cls id

theorem Ordinary.suits {name : Text} (h : Ordinary name) (value : Value) : Suits name value :=
  ⟨fun hthis => absurd hthis h.ne_this, fun hsuper => absurd hsuper h.ne_super⟩

/-- The receiver is an instance, the superclass a class. -/
structure Role.Typed (r : Role) : Prop where
  this : ∀ v, r.this = some v → ∃ id cls, v = .object id (some cls)
  superclass : ∀ v, r.superclass = some v → ∃ id, v = .cls id

theorem Role.typed_plain : Role.plain.Typed :=
  ⟨nofun, nofun⟩

theorem Role.Typed.set {r : Role} (h : r.Typed) {name : Text} {value : Value}
    (hv : Suits name value) : (r.set name value).Typed := by
  unfold Role.set
  split
  next hthis => exact ⟨fun v hsome => Option.some.inj hsome ▸ hv.this hthis, h.superclass⟩
  next =>
    split
    next hsuper => exact ⟨h.this, fun v hsome => Option.some.inj hsome ▸ hv.superclass hsuper⟩
    next => exact h

/-- The role of a frame that goes with the end of a block or a body. -/
def Pending.Fits : Pending → Role → Prop
  | .blockEnd, r => r = .plain
  | _, r => r.Typed

theorem Pending.Fits.typed {p : Pending} {r : Role} (h : p.Fits r) : r.Typed := by
  cases p with
  | blockEnd => exact h ▸ Role.typed_plain
  | _ => exact h

theorem Pending.fits_plain (p : Pending) : p.Fits .plain := by
  cases p <;> first | exact rfl | exact Role.typed_plain

/-- The ends of blocks and bodies. -/
def frameEnds (stack : List Pending) : List Pending :=
  stack.filter Pending.endsFrame

theorem length_frameEnds (stack : List Pending) :
    (frameEnds stack).length = stack.countP Pending.endsFrame :=
  List.countP_eq_length_filter.symm

theorem frameEnds_append (new stack : List Pending) :
    frameEnds (new ++ stack) = frameEnds new ++ frameEnds stack :=
  List.filter_append ..

/-- Every role goes with one of the ends. -/
theorem exists_fits {ends : List Pending} {roles : List Role}
    (h : List.Forall₂ Pending.Fits ends roles) {r : Role} (hr : r ∈ roles) :
    ∃ p ∈ ends, p.Fits r := by
  induction h with
  | nil => cases hr
  | @cons p r' ends roles hfits _ ih =>
    rcases List.mem_cons.mp hr with rfl | hr
    · exact ⟨p, List.mem_cons_self, hfits⟩
    · obtain ⟨q, hq, hfits⟩ := ih hr
      exact ⟨q, List.mem_cons_of_mem _ hq, hfits⟩

/-- New frames have no role. -/
theorem fits_replicate (new : List Pending) :
    List.Forall₂ Pending.Fits (frameEnds new)
      (List.replicate (new.countP Pending.endsFrame) .plain) := by
  rw [← length_frameEnds]
  induction frameEnds new with
  | nil => exact .nil
  | cons p ps ih => exact .cons p.fits_plain ih

/-! ## The invariant -/

namespace Moment

variable {D : FunDecl → Prop} {c c' : Moment}

/-- The code of the moment is admitted. -/
structure Stems (D : FunDecl → Prop) (c : Moment) : Prop where
  machine : c.machine.Stems D
  control : c.control.Stems D
  waiting : Admits D (c.stack.flatMap Pending.mentions)

/-- The roles of the frames above the global one. -/
def roles (c : Moment) : List Role :=
  c.machine.frames.roles

/-- What is resumed in the next step. -/
def resumed (c : Moment) : List Pending :=
  match c.control with
  | .task _ => []
  | .ending _ => c.stack.take 1

/-- What waits besides. -/
def waiting (c : Moment) : List Pending :=
  match c.control with
  | .task _ => c.stack
  | .ending _ => c.stack.drop 1

theorem resumed_append_waiting (c : Moment) : c.resumed ++ c.waiting = c.stack := by
  unfold resumed waiting
  cases c.control with
  | task t => rfl
  | ending o => exact List.take_append_drop 1 c.stack

/-- What a step does to the stack and to the roles: what is resumed takes its frame off, each end
that waits from then on has a frame without a role, and a call begins with the frame of its body. -/
structure Next (c c' : Moment) (new : List Pending) : Prop where
  stack : c'.stack = new ++ c.waiting
  roles : c'.roles = List.replicate (new.countP Pending.endsFrame) .plain ++
    c.roles.drop (c.resumed.countP Pending.endsFrame)
  prologue : c'.control.isPrologue = true →
    new = [.bodyEnd] ∧ ∃ f args body, c'.control = .task (.receive f args body)

/-- The code is admitted, the frames fit the ends that wait, and a call that defines its receiver
and its parameters does so in the frame of its body, with values that suit the names. -/
structure Framed (D : FunDecl → Prop) (c : Moment) : Prop extends c.Stems D where
  layout : List.Forall₂ Pending.Fits (frameEnds c.stack) c.roles
  prologue : c.control.isPrologue = true → ∃ rest, c.stack = .bodyEnd :: rest
  bindings : ∀ names values body, c.control = .task (.enter names values body) →
    ∀ e ∈ names.zip values, Suits e.1 e.2

/-- A step begun on a machine with admitted code. -/
theorem stems_ofStep {first : Eval (Control × List Pending)} {stack : List Pending} {m : Machine}
    {off : Nat} (hm : m.Stems D) (h : StepStems D off first)
    (hstack : Admits D (stack.flatMap Pending.mentions)) :
    (ofStep stack (first m)).Stems D ∧ ∃ new, (ofStep stack (first m)).stack = new ++ stack ∧
      (ofStep stack (first m)).roles =
        List.replicate (new.countP Pending.endsFrame) .plain ++ m.frames.roles.drop off ∧
      ((ofStep stack (first m)).control.isPrologue = true → new = [.bodyEnd] ∧
        ∃ f args body, (ofStep stack (first m)).control = .task (.receive f args body)) := by
  have hstep := h m hm
  unfold Ends at hstep
  cases hr : first m with
  | ok next m' =>
    rw [hr] at hstep
    obtain ⟨control, new⟩ := next
    refine ⟨⟨hstep.machine, hstep.control, ?_⟩, new, rfl, hstep.roles, hstep.prologue⟩
    show Admits D ((new ++ stack).flatMap Pending.mentions)
    rw [List.flatMap_append]
    exact admits_append.mpr ⟨hstep.waiting, hstack⟩
  | error stop m' =>
    rw [hr] at hstep
    exact ⟨⟨hstep.1, ⟨admits_nil, nofun⟩, hstack⟩, [], rfl, hstep.2, nofun⟩

/-- What a step does, unless it belongs to the prologue of a call. -/
theorem Stems.step (h : c.Stems D) (hp : c.control.isPrologue = false) :
    c.step.Stems D ∧ ∃ new, c.Next c.step new := by
  obtain ⟨control, stack, m⟩ := c
  obtain ⟨hm, hcontrol, hstack⟩ := h
  cases control with
  | task t =>
    obtain ⟨hstems, new, hnew⟩ := stems_ofStep hm (t.begin_stems hcontrol hp) hstack
    exact ⟨hstems, new, hnew.1, hnew.2.1, hnew.2.2⟩
  | ending o =>
    cases stack with
    | nil => exact ⟨⟨hm, hcontrol, hstack⟩, [], rfl, rfl, nofun⟩
    | cons p stack =>
      obtain ⟨hp, hrest⟩ := admits_append.mp hstack
      obtain ⟨hstems, new, hnew⟩ := stems_ofStep hm (p.resume_stems hp o) hrest
      refine ⟨hstems, new, hnew.1, ?_, hnew.2.2⟩
      have hoff : p.off = [p].countP Pending.endsFrame := by
        unfold Pending.off
        cases hends : p.endsFrame <;> simp [hends]
      exact hoff ▸ hnew.2.1

/-- The frames still fit. -/
theorem Next.layout {new : List Pending} (h : c.Next c' new)
    (hl : List.Forall₂ Pending.Fits (frameEnds c.stack) c.roles) :
    List.Forall₂ Pending.Fits (frameEnds c'.stack) c'.roles := by
  rw [h.stack, h.roles, frameEnds_append]
  refine List.rel_append (fits_replicate new) ?_
  rw [← c.resumed_append_waiting, frameEnds_append] at hl
  rw [← length_frameEnds]
  have hdrop := List.forall₂_drop (frameEnds c.resumed).length hl
  rwa [List.drop_left] at hdrop

/-! ## The prologue of a call -/

/-- What a call binds besides its parameters: the receiver and, if its owner has one, the
superclass. -/
def receiverBindings (m : Machine) (f : Function) (this : Value) : List (Text × Value) :=
  (thisName, this) :: (m.store.superclassOf? f).toList.map fun s => (superName, .cls s)

section Prologue

variable {f : Function} {args : List Value} {body : List Stmt} {stack : List Pending} {m : Machine}

theorem step_receive_unbound (hb : f.isBound = false) :
    step ⟨.task (.receive f args body), stack, m⟩ =
      ⟨.task (.enter f.params args body), stack, m⟩ := by
  rw [step, Task.begin, hb]
  rfl

theorem step_receive_bound (hb : f.isBound = true) {this : Value}
    (hthis : m.heap.ref? f.this = some this) :
    step ⟨.task (.receive f args body), stack, m⟩ =
      ⟨.task (.enter ((receiverBindings m f this).map Prod.fst ++ f.params)
        ((receiverBindings m f this).map Prod.snd ++ args) body), stack, m⟩ := by
  simp only [step, Task.begin, hb, if_true, receiverBindings, get_bind_apply, hthis]
  cases m.store.superclassOf? f <;> rfl

theorem step_receive_lost (hb : f.isBound = true) (hthis : m.heap.ref? f.this = none) :
    step ⟨.task (.receive f args body), stack, m⟩ =
      ⟨.ending (.stopped (.fault ⟨.unreachable, none⟩)), stack, m⟩ := by
  simp only [step, Task.begin, hb, if_true, get_bind_apply, hthis]
  rfl

variable {name : Text} {names : List Text} {value : Value} {values : List Value}

theorem step_enter {frames : Frames Value} (h : m.frames.define? name value = some frames) :
    step ⟨.task (.enter (name :: names) (value :: values) body), stack, m⟩ =
      ⟨.task (.enter names values body), stack, { m with frames := frames }⟩ := by
  simp only [step, Task.begin, bind, EStateM.bind, define, h]
  rfl

theorem step_enter_unnamed (h : m.frames.define? name value = none) :
    step ⟨.task (.enter (name :: names) (value :: values) body), stack, m⟩ =
      ⟨.ending (.stopped .emptyName), stack, m⟩ := by
  simp only [step, Task.begin, bind, EStateM.bind, define, h]
  rfl

theorem zip_receiverBindings (m : Machine) (f : Function) (this : Value) (args : List Value) :
    ((receiverBindings m f this).map Prod.fst ++ f.params).zip
      ((receiverBindings m f this).map Prod.snd ++ args) =
      receiverBindings m f this ++ f.params.zip args := by
  rw [List.zip_append (by rw [List.length_map, List.length_map]), ← List.unzip_fst,
    ← List.unzip_snd, List.zip_unzip]

/-- The values of the receiver and the superclass suit their names, and all values suit those of
parameters. -/
theorem suits_receiverBindings (hf : f.Stems D) {this : Value}
    (hthis : m.heap.ref? f.this = some this) :
    ∀ e ∈ receiverBindings m f this ++ f.params.zip args, Suits e.1 e.2 := by
  obtain ⟨cls, rfl, -⟩ := Heap.ref?_eq_some hthis
  refine List.forall_mem_append.mpr ⟨List.forall_mem_cons.mpr ⟨?_, fun e he => ?_⟩, fun e he => ?_⟩
  · exact ⟨fun _ => ⟨_, _, rfl⟩, fun h => absurd h thisName_ne_superName⟩
  · obtain ⟨s, -, rfl⟩ := List.mem_map.mp he
    exact ⟨fun h => absurd h.symm thisName_ne_superName, fun _ => ⟨s, rfl⟩⟩
  · exact (hf.params e.1 (List.of_mem_zip he).1).suits e.2

end Prologue

/-- A step of the prologue that leaves the machine alone. -/
theorem Framed.turn {control control' : Control} {stack : List Pending} {m : Machine}
    (h : Framed D ⟨control, stack, m⟩) (hp : control.isPrologue = true) (hc : control'.Stems D)
    (hbindings : ∀ names values body, control' = .task (.enter names values body) →
      ∀ e ∈ names.zip values, Suits e.1 e.2) : Framed D ⟨control', stack, m⟩ :=
  ⟨⟨h.machine, hc, h.waiting⟩, h.layout, fun _ => h.prologue hp, hbindings⟩

/-- A prologue that fails. -/
theorem Framed.stop {control : Control} {stack : List Pending} {m : Machine}
    (h : Framed D ⟨control, stack, m⟩) (stop : Stop) :
    Framed D ⟨.ending (.stopped stop), stack, m⟩ :=
  ⟨⟨h.machine, ⟨admits_nil, nofun⟩, h.waiting⟩, h.layout, nofun, nofun⟩

/-- During the prologue the frame of the body is on top. -/
theorem Framed.exists_role (h : c.Framed D) (hp : c.control.isPrologue = true) :
    ∃ r rest, c.roles = r :: rest ∧ r.Typed := by
  obtain ⟨stack, hstack⟩ := h.prologue hp
  have hlayout := h.layout
  rw [hstack] at hlayout
  obtain ⟨r, rest, hr, -, hroles⟩ := List.forall₂_cons_left_iff.mp hlayout
  exact ⟨r, rest, hroles, hr⟩

/-- A step of the prologue leaves the stack, and of the roles it changes at most that of the frame
on top. -/
theorem Framed.step_prologue (h : c.Framed D) (hp : c.control.isPrologue = true) :
    c.step.Framed D ∧ c.step.stack = c.stack ∧
      ∃ r r' rest, c.roles = r :: rest ∧ c.step.roles = r' :: rest := by
  obtain ⟨r, rest, hroles, hr⟩ := h.exists_role hp
  obtain ⟨control, stack, m⟩ := c
  cases control with
  | ending o => cases hp
  | task t =>
    cases t with
    | receive f args body =>
      have hf : f.Stems D := h.control.function f rfl
      have hbody : Admits D (Stmt.allMentions body) := h.control.code
      cases hb : f.isBound with
      | false =>
        rw [step_receive_unbound hb]
        refine ⟨h.turn hp ⟨hbody, nofun⟩ ?_, rfl, r, r, rest, hroles, hroles⟩
        rintro names values body' hc e he
        obtain ⟨rfl, rfl, rfl⟩ := Task.enter.inj (Control.task.inj hc)
        exact (hf.params e.1 (List.of_mem_zip he).1).suits e.2
      | true =>
        cases hthis : m.heap.ref? f.this with
        | none =>
          rw [step_receive_lost hb hthis]
          exact ⟨h.stop _, rfl, r, r, rest, hroles, hroles⟩
        | some this =>
          rw [step_receive_bound hb hthis]
          refine ⟨h.turn hp ⟨hbody, nofun⟩ ?_, rfl, r, r, rest, hroles, hroles⟩
          rintro names values body' hc
          obtain ⟨rfl, rfl, rfl⟩ := Task.enter.inj (Control.task.inj hc)
          rw [zip_receiverBindings]
          exact suits_receiverBindings hf hthis
    | enter names values body =>
      have hbody : Admits D (Stmt.allMentions body) := h.control.code
      have hsuits := h.bindings names values body rfl
      cases names with
      | nil =>
        have hbegun : Framed D ⟨.task (.stmts body), stack, m⟩ := h.turn hp ⟨hbody, nofun⟩ nofun
        exact ⟨hbegun, rfl, r, r, rest, hroles, hroles⟩
      | cons name names =>
        cases values with
        | nil => exact ⟨h.stop .missingArgument, rfl, r, r, rest, hroles, hroles⟩
        | cons value values =>
          obtain ⟨hvalue, hvalues⟩ := List.forall_mem_cons.mp hsuits
          cases hd : m.frames.define? name value with
          | none =>
            rw [step_enter_unnamed hd]
            exact ⟨h.stop _, rfl, r, r, rest, hroles, hroles⟩
          | some frames =>
            obtain ⟨hset, hglobals⟩ := Frames.roles_define?_cons hd hroles
            rw [step_enter hd]
            refine ⟨⟨⟨⟨h.machine.functions, h.machine.sites, ?_⟩, ⟨hbody, nofun⟩, h.waiting⟩, ?_,
              fun _ => h.prologue hp, ?_⟩, rfl, r, _, rest, hroles, hset⟩
            · exact hglobals ▸ h.machine.globals
            · obtain ⟨ends, hstack⟩ := h.prologue hp
              have hlayout := h.layout
              have hstack : stack = .bodyEnd :: ends := hstack
              subst hstack
              rw [hroles] at hlayout
              show List.Forall₂ Pending.Fits _ frames.roles
              rw [hset]
              obtain ⟨-, hbelow⟩ := List.forall₂_cons.mp hlayout
              exact .cons (hr.set hvalue) hbelow
            · rintro names' values' body' hc
              obtain ⟨rfl, rfl, rfl⟩ := Task.enter.inj (Control.task.inj hc)
              exact hvalues
    | _ => cases hp

/-! ## Runs -/

theorem Framed.step (h : c.Framed D) : c.step.Framed D := by
  cases hp : c.control.isPrologue with
  | true => exact (h.step_prologue hp).1
  | false =>
    obtain ⟨hstems, new, hnext⟩ := h.toStems.step hp
    refine ⟨hstems, hnext.layout h.layout, fun hprologue => ?_, fun names values body hc => ?_⟩
    · obtain ⟨rfl, -⟩ := hnext.prologue hprologue
      exact ⟨c.waiting, hnext.stack⟩
    · have hprologue : c.step.control.isPrologue = true := by rw [hc]; rfl
      obtain ⟨-, f, args, body', hreceive⟩ := hnext.prologue hprologue
      rw [hc] at hreceive
      cases hreceive

theorem Framed.moves (h : c.Framed D) (hmove : Moves c c') : c'.Framed D := by
  cases hmove with
  | step => exact h.step
  | cutOff t stack m => exact h.stop _

/-- Whole runs keep frames and ends together. -/
theorem Framed.reaches (h : c.Framed D) (hreach : Reaches c c') : c'.Framed D := by
  induction hreach with
  | refl => exact h
  | tail _ hmove ih => exact ih.moves hmove

end Moment

/-! ## Histories -/

/-- Functions that can be called, no two with the same site. -/
structure Catalogue (D : FunDecl → Prop) : Prop where
  block : ∀ d, D d → ∃ body, d.body = .block body
  distinct : ∀ d d', D d → D d' → d.site = d'.site → d = d'

/-- No keyword is the name of the receiver or the superclass. -/
theorem ordinary_of_keyword? {x : Text} (h : Kind.keyword? x = none) : Ordinary x := by
  constructor
  · rintro rfl
    exact absurd h (by decide)
  · rintro rfl
    exact absurd h (by decide)

namespace Machine

/-- Between runs all function objects stem from declarations of a catalogue, and only the global
frame is there. -/
def Known (m : Machine) : Prop :=
  ∃ D, Catalogue D ∧ m.Stems D ∧ m.frames.roles = []

theorem known_configured (limits : List Int) : (configured limits).Known := by
  obtain ⟨maxDepth, hc⟩ := configured_eq limits
  refine ⟨fun _ => False, ⟨nofun, nofun⟩, ?_, by rw [hc]; rfl⟩
  rw [hc]
  refine ⟨fun {id f} hf => ?_, nofun, ?_⟩
  · rcases Store.function?_of_addFunction (s := .empty) hf with rfl | hnone
    · exact .inl rfl
    · cases hnone
  · exact (Frame.role_set _ _ _).trans (Role.set_ordinary ⟨by decide, by decide⟩ _ _)

/-- The run of a source begins with the code of a larger catalogue: its declarations get new
sites. -/
theorem Known.exists_framed {m : Machine} (h : m.Known) (source : Text) :
    ∃ D, Catalogue D ∧
      (Moment.opening m (parseProgram (tokenize source).1).statements).Framed D := by
  obtain ⟨D, hD, hm, hroles⟩ := h
  have hnumbered := renumbers_numberedAll (parseProgram (tokenize source).1).statements m.nextSite
  have hread := hnumbered.read (mentions_of_source source)
  generalize hp : numberedAll (parseProgram (tokenize source).1).statements m.nextSite = p
    at hnumbered hread
  refine ⟨fun d => D d ∨ .decl d ∈ Stmt.allMentions p.1, ⟨?_, ?_⟩, ?_⟩
  · rintro d (hd | hd)
    · exact hD.block d hd
    · exact hread _ hd
  · -- A new site is none of the old ones.
    have hfresh : ∀ d d', D d → .decl d' ∈ Stmt.allMentions p.1 → d.site ≠ d'.site :=
      fun d d' hd hd' =>
        Nat.ne_of_lt (Nat.lt_of_lt_of_le (hm.sites d hd) (hnumbered.site_bounds hd').1)
    rintro d d' (hd | hd) (hd' | hd') hsite
    · exact hD.distinct d d' hd hd' hsite
    · exact absurd hsite (hfresh d d' hd hd')
    · exact absurd hsite.symm (hfresh d' d hd' hd)
    · exact hnumbered.eq_of_site hd hd' hsite
  · have hopening : Moment.opening m (parseProgram (tokenize source).1).statements =
        .start p.1 { m with nextSite := p.2 } := by
      rw [← hp]
      rfl
    rw [hopening]
    refine ⟨⟨⟨fun hf => (hm.functions hf).mono fun d => .inl, ?_, hm.globals⟩, ⟨?_, nofun⟩,
      admits_nil⟩, ?_, nofun, nofun⟩
    · rintro d (hd | hd)
      · exact Nat.lt_of_lt_of_le (hm.sites d hd) hnumbered.le
      · exact (hnumbered.site_bounds hd).2
    · intro x hx
      cases x with
      | name x => exact ordinary_of_keyword? (hread _ hx)
      | decl d => exact .inr hx
    · show List.Forall₂ Pending.Fits [] m.frames.roles
      rw [hroles]
      exact .nil

/-- After the run of a source again only the global frame is there. -/
theorem Known.runWith {m : Machine} (h : m.Known) (fuel : Nat) (source : Text) :
    (m.runWith fuel source).2.Known := by
  rcases runWith_cases fuel m source with ⟨report, hr, -⟩ | hr
  · rw [hr]
    exact h
  · obtain ⟨D, hD, hframed⟩ := h.exists_framed source
    rw [hr]
    generalize (parseProgram (tokenize source).1).statements = program at hframed
    have hend : ∀ c : Moment, Moment.Reaches (.opening m program) c → c.stack = [] →
        c.machine.Known := by
      intro c hreach hstack
      have hlast := hframed.reaches hreach
      have hlayout := hlast.layout
      rw [hstack] at hlayout
      exact ⟨D, hD, hlast.machine, List.forall₂_nil_left_iff.mp hlayout⟩
    have hreach := Eval.interpret_does fuel (m.load program).1 none [] (m.load program).2
    unfold interpretWith
    cases hrun : Eval.interpret fuel (m.load program).1 none (m.load program).2 with
    | ok value m' =>
      rw [hrun] at hreach
      simp only [hrun]
      exact hend _ hreach rfl
    | error stop m' =>
      rw [hrun] at hreach
      simp only [hrun]
      exact hend _ hreach rfl

theorem known_after {m : Machine} (h : m.Known) {turns : List Turn}
    (hturns : ∀ turn ∈ turns, turn.isSource) : (m.after turns).Known := by
  induction turns generalizing m with
  | nil => exact h
  | cons turn rest ih =>
    rw [List.forall_mem_cons] at hturns
    refine ih ?_ hturns.2
    cases turn with
    | run fuel source => exact h.runWith fuel source
    | interpret fuel program => cases hturns.1
    | output writesLeft =>
      obtain ⟨D, hD, hm, hroles⟩ := h
      exact ⟨D, hD, ⟨hm.functions, hm.sites, hm.globals⟩, hroles⟩

end Machine

end Dynascope
