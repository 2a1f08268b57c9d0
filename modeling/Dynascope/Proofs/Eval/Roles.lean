import Dynascope.Eval.Operators
import Dynascope.Proofs.Scope.Shape

/-!
# The receiver and the superclass in frames

A method finds its receiver and the superclass under two names that no program can bind. Only the
call of a bound method defines them, in the frame of its body.

* `Ordinary`: the names that programs bind.
* `Role`: what a frame binds to the two other names; `Role.plain` is the role of most frames.
* `Frames.roles`: the roles of the frames above the global one, from the current one down.
* `Frames.roles_define?`, `Frames.roles_assign?`: ordinary names do not matter to roles.
* `Frames.get?_of_roles`: the value of one of the two names is that of the topmost role with one.
-/

namespace Dynascope

open Eval

theorem thisName_ne_superName : thisName ≠ superName := by
  decide

/-- A name other than those of the receiver and the superclass. -/
structure Ordinary (name : Text) : Prop where
  ne_this : name ≠ thisName
  ne_super : name ≠ superName

/-- What a frame binds to the names of the receiver and the superclass. -/
structure Role where
  this : Option Value
  superclass : Option Value

namespace Role

/-- Neither name is bound. -/
def plain : Role :=
  ⟨none, none⟩

/-- The role of a frame after a definition. -/
def set (r : Role) (name : Text) (value : Value) : Role :=
  if name = thisName then { r with this := some value }
  else if name = superName then { r with superclass := some value }
  else r

theorem set_this (r : Role) (value : Value) :
    r.set thisName value = { r with this := some value } :=
  if_pos rfl

theorem set_super (r : Role) (value : Value) :
    r.set superName value = { r with superclass := some value } := by
  rw [set, if_neg thisName_ne_superName.symm, if_pos rfl]

theorem set_ordinary {name : Text} (h : Ordinary name) (r : Role) (value : Value) :
    r.set name value = r := by
  rw [set, if_neg h.ne_this, if_neg h.ne_super]

end Role

/-- The role of a frame. -/
def Frame.role (f : Frame Value) : Role :=
  ⟨f.vars.get? thisName, f.vars.get? superName⟩

theorem Frame.role_set (f : Frame Value) (name : Text) (value : Value) :
    (f.set name value).role = f.role.set name value := by
  unfold Frame.role Frame.set Role.set
  simp only [Bindings.get?_set]
  have hne := thisName_ne_superName
  by_cases hthis : name = thisName
  · subst hthis
    simp [hne.symm]
  · by_cases hsuper : name = superName
    · subst hsuper
      simp [hne, hne.symm]
    · simp [hthis, hsuper, Ne.symm hthis, Ne.symm hsuper]

namespace Frames

/-- The roles of the frames above the global one, from the current one down. -/
def roles (fs : Frames Value) : List Role :=
  fs.inner.map Frame.role

variable {fs gs : Frames Value} {name : Text} {value : Value}

theorem roles_push (fs : Frames Value) (name : Text) : (fs.push name).roles = .plain :: fs.roles :=
  rfl

theorem roles_pop (fs : Frames Value) : fs.pop.roles = fs.roles.drop 1 := by
  rw [List.drop_one]
  exact List.map_tail

/-- A definition in a frame that is not global. -/
theorem roles_define?_cons {r : Role} {rest : List Role} (h : fs.define? name value = some gs)
    (hroles : fs.roles = r :: rest) :
    gs.roles = r.set name value :: rest ∧ gs.globals = fs.globals := by
  obtain ⟨inner, globals⟩ := fs
  cases inner with
  | nil => cases hroles
  | cons f inner =>
    obtain ⟨rfl, rfl⟩ := List.cons.inj hroles
    unfold define? at h
    split at h
    · cases h
    · obtain rfl := Option.some.inj h
      exact ⟨congrArg (· :: _) (f.role_set name value), rfl⟩

theorem roles_define? (h : fs.define? name value = some gs) (hname : Ordinary name) :
    gs.roles = fs.roles ∧ gs.globals.role = fs.globals.role := by
  obtain ⟨inner, globals⟩ := fs
  cases inner with
  | nil =>
    unfold define? at h
    split at h
    · cases h
    · obtain rfl := Option.some.inj h
      exact ⟨rfl, by rw [Frame.role_set, Role.set_ordinary hname]⟩
  | cons f inner =>
    obtain ⟨hroles, hglobals⟩ := roles_define?_cons h rfl
    rw [Role.set_ordinary hname] at hroles
    exact ⟨hroles, by rw [hglobals]⟩

theorem map_role_assignInner? {inner inner' : List (Frame Value)} (hname : Ordinary name)
    (h : assignInner? name value inner = some inner') :
    inner'.map Frame.role = inner.map Frame.role := by
  induction inner generalizing inner' with
  | nil => cases h
  | cons f rest ih =>
    unfold assignInner? at h
    split at h
    · obtain rfl := Option.some.inj h
      rw [List.map_cons, List.map_cons, Frame.role_set, Role.set_ordinary hname]
    · obtain ⟨rest', hr, rfl⟩ := Option.map_eq_some_iff.mp h
      rw [List.map_cons, List.map_cons, ih hr]

theorem roles_assign? (h : fs.assign? name value = some gs) (hname : Ordinary name) :
    gs.roles = fs.roles ∧ gs.globals.role = fs.globals.role := by
  obtain ⟨inner, globals⟩ := fs
  unfold assign? at h
  split at h
  next inner' hi =>
    obtain rfl := Option.some.inj h
    exact ⟨map_role_assignInner? hname hi, rfl⟩
  next =>
    split at h
    · obtain rfl := Option.some.inj h
      exact ⟨rfl, by rw [Frame.role_set, Role.set_ordinary hname]⟩
    · cases h

/-- The value of a name that roles tell of is that of the topmost role with one. -/
theorem get?_of_roles (part : Role → Option Value)
    (hpart : ∀ f : Frame Value, part f.role = f.vars.get? name) {above below : List Role} {r : Role}
    (h : fs.roles = above ++ r :: below) (habove : ∀ r ∈ above, part r = none)
    (hr : part r = some value) : fs.get? name = some value := by
  obtain ⟨inner, globals⟩ := fs
  induction above generalizing inner with
  | nil =>
    cases inner with
    | nil => cases h
    | cons f inner =>
      obtain ⟨rfl, -⟩ := List.cons.inj h
      have hsome : f.vars.get? name = some value := (hpart f).symm.trans hr
      simp [get?, toList, hsome]
  | cons r' above ih =>
    cases inner with
    | nil => cases h
    | cons f inner =>
      obtain ⟨rfl, hrest⟩ := List.cons.inj h
      rw [List.forall_mem_cons] at habove
      have hnone : f.vars.get? name = none := (hpart f).symm.trans habove.1
      have hget : get? ⟨f :: inner, globals⟩ name = get? ⟨inner, globals⟩ name := by
        simp [get?, toList, hnone]
      rw [hget]
      exact ih habove.2 inner hrest

end Frames

end Dynascope
