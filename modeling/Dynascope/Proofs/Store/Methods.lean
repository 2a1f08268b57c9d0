import Dynascope.Proofs.Scope.Shape
import Dynascope.Proofs.Store.Lineage

/-!
# Methods and their owners

Objects are only added to a store: a class that is made becomes the owner of its methods before
anything can refer to them.

* `Store.Extends`: a store with all objects of an earlier one, unchanged.
* `Store.Owned`: the methods of every class belong to it, under their names.
* `Function.Placed`: a function that has an owner is one of its methods, bound or not.
* `Store.addDeclared`: a class is added together with its methods; `extends_addDeclared`,
  `Owned.addDeclared` and `Descends.addDeclared` say what becomes of the store.
-/

namespace Dynascope

/-- The function, without the instance it is bound to, is in the table of its owner under its
name. -/
def Function.Placed (s : Store) (f : Function) : Prop :=
  ∀ owner, f.owner = some owner → ∃ c method, s.class? owner = some c ∧
    c.methods.get? f.name = some method ∧ s.function? method = some (f.bind 0)

namespace Store

/-- The second store has all objects of the first. -/
structure Extends (s s' : Store) : Prop where
  functions : ∀ {id f}, s.function? id = some f → s'.function? id = some f
  classes : ∀ {id c}, s.class? id = some c → s'.class? id = some c

/-- Every method of a class belongs to it, has the name it stands under and is not bound. -/
def Owned (s : Store) : Prop :=
  ∀ id c name method, s.class? id = some c → c.methods.get? name = some method →
    ∃ f, s.function? method = some f ∧ f.name = name ∧ f.owner = some id ∧ f.this = 0

variable {s s' : Store}

theorem Extends.refl (s : Store) : s.Extends s :=
  ⟨id, id⟩

theorem Extends.trans {s'' : Store} (h : s.Extends s') (k : s'.Extends s'') : s.Extends s'' :=
  ⟨fun hf => k.functions (h.functions hf), fun hc => k.classes (h.classes hc)⟩

theorem Extends.placed (h : s.Extends s') {f : Function} (hf : f.Placed s) : f.Placed s' := by
  intro owner howner
  obtain ⟨c, method, hc, hget, hmethod⟩ := hf owner howner
  exact ⟨c, method, h.classes hc, hget, h.functions hmethod⟩

/-- A method that is found can be bound to an instance. -/
theorem Owned.placed_bind (h : s.Owned) {id : ClassId} {name : Text} {method : FunctionId}
    {f : Function} (hfound : s.findMethod? id name = some method)
    (hf : s.function? method = some f) (this : InstanceId) : (f.bind this).Placed s := by
  obtain ⟨owner, c, hc, hget⟩ := exists_of_findMethod? hfound
  obtain ⟨g, hg, hname, howner, hthis⟩ := h owner c name method hc hget
  obtain rfl : f = g := Option.some.inj (hf.symm.trans hg)
  intro owner' howner'
  obtain rfl : owner' = owner := Option.some.inj (howner'.symm.trans howner)
  refine ⟨c, method, hc, ?_, ?_⟩
  · show c.methods.get? f.name = some method
    rw [hname, hget]
  · rw [hf]
    show some f = some { f with this := 0 }
    rw [← hthis]

/-! ## Adding a function -/

theorem function?_addFunction (s : Store) (f : Function) :
    (s.addFunction f).2.function? (s.addFunction f).1 = some f :=
  Array.getElem?_push_size

theorem function?_of_addFunction {f g : Function} {id : FunctionId}
    (h : (s.addFunction f).2.function? id = some g) : g = f ∨ s.function? id = some g := by
  have h : (s.functions.push f)[id]? = some g := h
  rw [Array.getElem?_push] at h
  split at h
  · exact .inl (Option.some.inj h).symm
  · exact .inr h

theorem extends_addFunction (s : Store) (f : Function) : s.Extends (s.addFunction f).2 := by
  refine ⟨fun {id g} hg => ?_, id⟩
  have hid : id < s.functions.size := (Array.getElem?_eq_some_iff.mp hg).1
  show (s.functions.push f)[id]? = some g
  rw [Array.getElem?_push, if_neg (Nat.ne_of_lt hid)]
  exact hg

/-! ## Adding a class with its methods -/

/-- Adds a class together with its methods. -/
def addDeclared (s : Store) (name : Text) (superclass : Option ClassId) (methods : List Function) :
    ClassId × Store :=
  (s.addFunctions methods).2.addClass name superclass (s.addFunctions methods).1

/-- Function objects are numbered in the order in which they are added. -/
theorem addFunctions_eq (s : Store) (fs : List Function) :
    s.addFunctions fs =
      (List.range' s.functions.size fs.length,
        { s with functions := s.functions ++ fs.toArray }) := by
  induction fs generalizing s with
  | nil => simp [addFunctions]
  | cons f fs ih =>
    simp [addFunctions, ih, addFunction, List.range'_succ]

/-- A class becomes the owner of some functions and of no others. -/
theorem function?_ownAll (s : Store) (owner : ClassId) (ids : List FunctionId) (j : FunctionId) :
    (ids.foldl (fun s m => s.own owner m) s).function? j =
      if j ∈ ids then (s.function? j).map fun f => { f with owner := some owner }
      else s.function? j := by
  induction ids generalizing s with
  | nil => rfl
  | cons id ids ih =>
    have hone : (s.own owner id).function? j =
        if id = j then (s.function? j).map fun f => { f with owner := some owner }
        else s.function? j := Array.getElem?_modify
    rw [List.foldl_cons, ih, hone]
    by_cases hj : id = j
    · subst hj
      cases s.function? id <;> simp
    · have hmem : j ∈ id :: ids ↔ j ∈ ids := by simp [Ne.symm hj]
      simp only [hj, hmem, if_false]

theorem classes_ownAll (s : Store) (owner : ClassId) (ids : List FunctionId) :
    (ids.foldl (fun s m => s.own owner m) s).classes = s.classes := by
  induction ids generalizing s with
  | nil => rfl
  | cons id ids ih =>
    rw [List.foldl_cons, ih]
    rfl

/-- A table holds only methods it was made from, each under its name. -/
theorem mem_table {nameOf : FunctionId → Text} {ids : List FunctionId} {t : Bindings FunctionId}
    {e : Text × FunctionId} (h : e ∈ (ids.foldl (fun t m => t.set (nameOf m) m) t).entries) :
    e ∈ t.entries ∨ e.2 ∈ ids ∧ nameOf e.2 = e.1 := by
  induction ids generalizing t with
  | nil => exact .inl h
  | cons id ids ih =>
    rcases ih h with hset | ⟨hmem, hname⟩
    · rcases Bindings.eq_or_mem_of_mem_insert hset with rfl | hold
      · exact .inr ⟨List.mem_cons_self .., rfl⟩
      · exact .inl hold
    · exact .inr ⟨List.mem_cons_of_mem _ hmem, hname⟩

section Declared

variable (s : Store) (name : Text) (superclass : Option ClassId) (methods : List Function)

/-- The function objects after a class is added: the old ones, and the methods, which the class
owns. -/
theorem function?_addDeclared (j : Nat) :
    (s.addDeclared name superclass methods).2.function? j =
      (s.function? j).or ((methods[j - s.functions.size]?).map fun f =>
        { f with owner := some s.classes.size }) := by
  have hown := function?_ownAll (s.addFunctions methods).2 (s.addFunctions methods).2.classes.size
    (s.addFunctions methods).1 j
  have hadded : (s.addDeclared name superclass methods).2.function? j =
      if j ∈ List.range' s.functions.size methods.length then
        ((s.functions ++ methods.toArray)[j]?).map fun f => { f with owner := some s.classes.size }
      else (s.functions ++ methods.toArray)[j]? := by
    rw [addFunctions_eq] at hown
    unfold addDeclared
    rw [addFunctions_eq]
    exact hown
  rw [hadded]
  simp only [List.mem_range'_1]
  by_cases hj : j < s.functions.size
  · have hold : s.function? j = some s.functions[j] := Array.getElem?_eq_getElem hj
    rw [if_neg (by omega), Array.getElem?_append_left hj, hold]
    exact Array.getElem?_eq_getElem hj
  · have hnone : s.function? j = none := Array.getElem?_eq_none (by omega)
    rw [Array.getElem?_append_right (by omega), hnone, Option.none_or, List.getElem?_toArray]
    split
    · rfl
    · rw [List.getElem?_eq_none (by omega)]
      rfl

/-- The classes after a class is added. Its table holds only its methods. -/
theorem classes_addDeclared : ∃ table : Bindings FunctionId,
    (s.addDeclared name superclass methods).2.classes =
      s.classes.push ⟨name, superclass, table⟩ ∧
    ∀ n method, table.get? n = some method →
      ∃ f, methods[method - s.functions.size]? = some f ∧ s.functions.size ≤ method ∧
        f.name = n := by
  refine ⟨(s.addFunctions methods).1.foldl
    (fun t m => t.set ((s.addFunctions methods).2.functionName m) m) .empty, ?_, ?_⟩
  · show (List.foldl _ (s.addFunctions methods).2 _).classes.push _ = _
    rw [classes_ownAll]
    rw [show (s.addFunctions methods).2.classes = s.classes by rw [addFunctions_eq]]
  · intro n method hget
    rcases mem_table (Bindings.mem_of_lookup hget) with hnone | ⟨hmem, hname⟩
    · cases hnone
    · rw [addFunctions_eq] at hmem hname
      rw [List.mem_range'_1] at hmem
      dsimp only at hmem hname
      have hlt : method - s.functions.size < methods.length :=
        Nat.sub_lt_left_of_lt_add hmem.1 hmem.2
      refine ⟨methods[method - s.functions.size], List.getElem?_eq_getElem hlt, hmem.1, ?_⟩
      rw [← hname]
      simp [functionName, function?, Array.getElem?_append_right hmem.1, hlt]

end Declared

theorem extends_addDeclared (s : Store) (name : Text) (superclass : Option ClassId)
    (methods : List Function) : s.Extends (s.addDeclared name superclass methods).2 := by
  constructor
  · intro id f hf
    rw [function?_addDeclared, hf]
    rfl
  · intro id c hc
    obtain ⟨table, hclasses, -⟩ := s.classes_addDeclared name superclass methods
    have hid : id < s.classes.size := (Array.getElem?_eq_some_iff.mp hc).1
    rw [class?, hclasses, Array.getElem?_push, if_neg (Nat.ne_of_lt hid)]
    exact hc

/-- The function objects that are new are methods. -/
theorem function?_of_addDeclared {name : Text} {superclass : Option ClassId}
    {methods : List Function} {id : FunctionId} {f : Function}
    (h : (s.addDeclared name superclass methods).2.function? id = some f) :
    s.function? id = some f ∨ ∃ g ∈ methods, f = { g with owner := some s.classes.size } := by
  rw [function?_addDeclared] at h
  rcases Option.or_eq_some_iff.mp h with hold | ⟨-, hnew⟩
  · exact .inl hold
  · obtain ⟨g, hg, rfl⟩ := Option.map_eq_some_iff.mp hnew
    exact .inr ⟨g, List.mem_of_getElem? hg, rfl⟩

/-- A class whose superclass is there already keeps the order. -/
theorem Descends.addDeclared (h : s.Descends) {superclass : Option ClassId}
    (hs : ∀ parent, superclass = some parent → parent < s.classes.size) (name : Text)
    (methods : List Function) : (s.addDeclared name superclass methods).2.Descends := by
  obtain ⟨table, hclasses, -⟩ := s.classes_addDeclared name superclass methods
  rintro id parent ⟨c, hc, hparent⟩
  rw [class?, hclasses, Array.getElem?_push] at hc
  split at hc
  next hid =>
    obtain rfl := Option.some.inj hc
    exact hid ▸ hs parent hparent
  next => exact h id parent ⟨c, hc, hparent⟩

/-- A class with its methods keeps all methods owned. -/
theorem Owned.addDeclared (h : s.Owned) (name : Text) (superclass : Option ClassId)
    {methods : List Function} (hm : ∀ f ∈ methods, f.this = 0) :
    (s.addDeclared name superclass methods).2.Owned := by
  obtain ⟨table, hclasses, htable⟩ := s.classes_addDeclared name superclass methods
  intro id c n method hc hget
  rw [class?, hclasses, Array.getElem?_push] at hc
  split at hc
  next hid =>
    obtain rfl := Option.some.inj hc
    obtain ⟨f, hf, hle, hname⟩ := htable n method hget
    have hnone : s.function? method = none := Array.getElem?_eq_none hle
    refine ⟨{ f with owner := some s.classes.size }, ?_, hname, congrArg some hid.symm,
      hm f (List.mem_of_getElem? hf)⟩
    rw [function?_addDeclared, hnone, hf]
    rfl
  next =>
    obtain ⟨f, hf, hfacts⟩ := h id c n method hc hget
    exact ⟨f, (s.extends_addDeclared name superclass methods).functions hf, hfacts⟩

end Store

end Dynascope
