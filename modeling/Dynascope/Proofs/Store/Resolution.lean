import Dynascope.Proofs.Store.Methods
import Mathlib.Data.List.Induction

/-!
# Which method is meant

* `Store.Nearest name id owner method`: of the class `id` and its ancestors, `owner` is the nearest
  one that has a method of the name.
* `Store.Descends.findMethod?_cases`: the search for a method finds that of the nearest class, and
  nothing only if no class has one.
* `lastNamed`, `Store.HasDeclared`: a class with the last declaration of each name as its method;
  `hasDeclared_addDeclared` says that a class that is added is of this kind.
-/

namespace Dynascope

namespace Store

/-- Of a class and its ancestors, `owner` is the nearest one that has a method of the name. -/
inductive Nearest (s : Store) (name : Text) : ClassId → ClassId → FunctionId → Prop where
  | own {id : ClassId} {method : FunctionId} (h : s.ownMethod? name id = some method) :
    Nearest s name id id method
  | inherited {id parent owner : ClassId} {method : FunctionId}
      (hnone : s.ownMethod? name id = none) (hparent : s.Inherits id parent)
      (h : Nearest s name parent owner method) : Nearest s name id owner method

variable {s : Store} {name : Text}

theorem Nearest.ownMethod? {id owner : ClassId} {method : FunctionId}
    (h : s.Nearest name id owner method) : s.ownMethod? name owner = some method := by
  induction h with
  | own h => exact h
  | inherited _ _ _ ih => exact ih

theorem ownMethod?_eq {id : ClassId} {c : Class} (hc : s.class? id = some c) :
    s.ownMethod? name id = c.methods.get? name := by
  rw [Store.ownMethod?, hc]
  rfl

theorem findMethod?_of_none {id : ClassId} (h : s.class? id = none) :
    s.findMethod? id name = none := by
  have hlineage : s.lineage id = [] := by
    unfold lineage
    cases s.classes.size with
    | zero => rfl
    | succ n => rw [lineageUpTo, h]
  rw [findMethod?, hlineage]
  rfl

/-- The search for a method finds that of the nearest class, and nothing only if neither the class
nor an ancestor has one. -/
theorem Descends.findMethod?_cases (h : s.Descends) (name : Text) (id : ClassId) :
    (∃ owner method, s.Nearest name id owner method ∧ s.findMethod? id name = some method) ∨
      ((∀ owner, Relation.ReflTransGen s.Inherits id owner → s.ownMethod? name owner = none) ∧
        s.findMethod? id name = none) := by
  induction id using Nat.strongRecOn with
  | ind id ih =>
    -- Without an own method all depends on the superclass.
    have hself : s.ownMethod? name id = none →
        (∀ parent, s.Inherits id parent → ∀ owner,
          Relation.ReflTransGen s.Inherits parent owner → s.ownMethod? name owner = none) →
        ∀ owner, Relation.ReflTransGen s.Inherits id owner → s.ownMethod? name owner = none := by
      intro hnone hparents owner hreach
      rcases hreach.cases_head with rfl | ⟨parent, hparent, hrest⟩
      · exact hnone
      · exact hparents parent hparent owner hrest
    cases hc : s.class? id with
    | none =>
      have hnone : s.ownMethod? name id = none := by rw [Store.ownMethod?, hc]; rfl
      refine .inr ⟨hself hnone ?_, findMethod?_of_none hc⟩
      rintro parent ⟨c, hsome, -⟩
      rw [hc] at hsome
      cases hsome
    | some c =>
      rw [h.findMethod?_eq hc name]
      cases hget : c.methods.get? name with
      | some method => exact .inl ⟨id, method, .own ((ownMethod?_eq hc).trans hget), rfl⟩
      | none =>
        have hnone : s.ownMethod? name id = none := (ownMethod?_eq hc).trans hget
        have hinherits : ∀ parent, s.Inherits id parent → c.superclass = some parent := by
          rintro parent ⟨c', hc', hparent⟩
          rw [Option.some.inj (hc.symm.trans hc')]
          exact hparent
        cases hp : c.superclass with
        | none =>
          refine .inr ⟨hself hnone fun parent hparent => ?_, rfl⟩
          cases hp.symm.trans (hinherits parent hparent)
        | some parent =>
          rcases ih parent (h id parent ⟨c, hc, hp⟩) with
            ⟨owner, method, hnear, hfind⟩ | ⟨hall, hfind⟩
          · exact .inl ⟨owner, method, .inherited hnone ⟨c, hc, hp⟩ hnear, hfind⟩
          · refine .inr ⟨hself hnone fun parent' hparent => ?_, hfind⟩
            obtain rfl := Option.some.inj (hp.symm.trans (hinherits parent' hparent))
            exact hall

/-! ## The methods of a declaration -/

/-- A table has only the functions that it is made from. -/
theorem mem_of_get?_table {nameOf : FunctionId → Text} {ids : List FunctionId} {x : Text}
    {id : FunctionId} (h : (ids.foldl (fun t m => t.set (nameOf m) m)
      (.empty : Bindings FunctionId)).get? x = some id) : id ∈ ids :=
  ((mem_table (Bindings.mem_of_lookup h)).resolve_left List.not_mem_nil).1

/-- A table made from numbered functions has, under each name, the last one of that name. -/
theorem get?_table {nameOf : FunctionId → Text} {n : Nat} (fs : List Function)
    (hname : ∀ i f, fs[i]? = some f → nameOf (n + i) = f.name) (x : Text) :
    (((List.range' n fs.length).foldl (fun t m => t.set (nameOf m) m)
      (.empty : Bindings FunctionId)).get? x).bind (fun j => fs[j - n]?) =
      fs.reverse.find? fun f => f.name = x := by
  induction fs using List.reverseRecOn with
  | nil => rfl
  | append_singleton fs f ih =>
    have hlast : nameOf (n + fs.length) = f.name := hname fs.length f (by simp)
    have hbefore := ih fun i g hg => hname i g (by
      rw [List.getElem?_append_left (List.getElem?_eq_some_iff.mp hg).1, hg])
    rw [List.length_append, List.length_singleton, List.range'_1_concat, List.foldl_append,
      List.reverse_append]
    show ((Bindings.set _ (nameOf (n + fs.length)) (n + fs.length)).get? x).bind _ =
      (f :: fs.reverse).find? _
    rw [Bindings.get?_set, hlast, List.find?_cons]
    by_cases hx : x = f.name
    · subst hx
      simp
    · rw [if_neg hx, ← hbefore]
      simp only [Ne.symm hx, decide_false]
      cases hget : Bindings.get? _ x with
      | none => rfl
      | some j =>
        have hmem := List.mem_range'_1.mp (mem_of_get?_table hget)
        exact List.getElem?_append_left (by omega)

end Store

/-- The last declaration of a name. -/
def lastNamed (ds : List FunDecl) (x : Text) : Option FunDecl :=
  ds.reverse.find? fun d => d.name.lexeme = x

namespace Store

/-- The class that is added, with its table. -/
theorem class?_addDeclared (s : Store) (name : Text) (superclass : Option ClassId)
    (methods : List Function) :
    (s.addDeclared name superclass methods).2.class? s.classes.size =
      some ⟨name, superclass, (List.range' s.functions.size methods.length).foldl
        (fun t m => t.set ((s.addFunctions methods).2.functionName m) m) .empty⟩ := by
  have hids : (s.addFunctions methods).1 = List.range' s.functions.size methods.length := by
    rw [addFunctions_eq]
  have hsize : (List.foldl (fun s' m => s'.own (s.addFunctions methods).2.classes.size m)
      (s.addFunctions methods).2 (s.addFunctions methods).1).classes.size = s.classes.size := by
    rw [classes_ownAll, addFunctions_eq]
  rw [← hids, ← hsize]
  exact Array.getElem?_push_size

/-- The class has the methods that are declared, and owns them; of several with one name it has the
last one. -/
def HasDeclared (s : Store) (id : ClassId) (ds : List FunDecl) : Prop :=
  ∃ c, s.class? id = some c ∧ ∀ x, (c.methods.get? x).map s.function? =
    (lastNamed ds x).map fun d => some (.ofDecl d (some id))

/-- A class keeps its methods. -/
theorem Extends.hasDeclared {s s' : Store} (h : s.Extends s') {id : ClassId} {ds : List FunDecl}
    (hd : s.HasDeclared id ds) : s'.HasDeclared id ds := by
  obtain ⟨c, hc, hmethods⟩ := hd
  refine ⟨c, h.classes hc, fun x => ?_⟩
  have hx := hmethods x
  cases hget : c.methods.get? x with
  | none =>
    rw [hget] at hx
    exact hx
  | some method =>
    rw [hget] at hx
    obtain ⟨d, hlast, hf⟩ := Option.map_eq_some_iff.mp hx.symm
    rw [hlast]
    exact congrArg some (h.functions hf.symm)

/-- A class that is added has the methods that are declared. -/
theorem hasDeclared_addDeclared (s : Store) (name : Text) (superclass : Option ClassId)
    (ds : List FunDecl) :
    (s.addDeclared name superclass (ds.map fun d => .ofDecl d none)).2.HasDeclared
      s.classes.size ds := by
  let methods : List Function := ds.map fun d => .ofDecl d none
  refine ⟨_, s.class?_addDeclared name superclass methods, fun x => ?_⟩
  have hname : ∀ i f, methods[i]? = some f →
      (s.addFunctions methods).2.functionName (s.functions.size + i) = f.name := by
    intro i f hf
    have hadded : (s.functions ++ methods.toArray)[s.functions.size + i]? = some f := by
      rw [Array.getElem?_append_right (Nat.le_add_right _ _), Nat.add_sub_cancel_left,
        List.getElem?_toArray, hf]
    simp [functionName, function?, addFunctions_eq, hadded]
  have htable := get?_table methods hname x
  have hlast : (methods.reverse.find? fun f => f.name = x) =
      (lastNamed ds x).map fun d => .ofDecl d none := by
    rw [lastNamed, ← List.map_reverse, List.find?_map]
    rfl
  rw [hlast] at htable
  dsimp only
  generalize hget : Bindings.get? _ x = found at htable ⊢
  cases found with
  | none =>
    rw [Option.map_eq_none_iff.mp htable.symm]
    rfl
  | some j =>
    obtain ⟨hle, hlt⟩ := List.mem_range'_1.mp (mem_of_get?_table hget)
    have hnew := s.function?_addDeclared name superclass methods j
    have hold : s.function? j = none := Array.getElem?_eq_none hle
    have hmethod : methods[j - s.functions.size]? = some methods[j - s.functions.size] :=
      List.getElem?_eq_getElem (by omega)
    rw [Option.bind_some, hmethod] at htable
    obtain ⟨d, hd, hf⟩ := Option.map_eq_some_iff.mp htable.symm
    rw [hold, Option.none_or, hmethod, ← hf] at hnew
    rw [hd]
    exact congrArg some hnew

end Store

end Dynascope
