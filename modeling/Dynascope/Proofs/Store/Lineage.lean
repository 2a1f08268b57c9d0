import Dynascope.Store.Basic
import Mathlib.Logic.Relation

/-!
# Ancestors

A class is made after its superclass, so its ancestors come to an end and the search for a method
never gives up early.

* `Store.Inherits`: from a class to its superclass.
* `Store.Descends`: every superclass has a smaller number than the class.
* `Store.Descends.wellFounded`, `Store.Descends.not_ancestor`: no class is its own ancestor.
* `Store.Descends.findMethod?_eq`: the method of a class is its own or else that of its superclass.
* `Store.exists_of_findMethod?`: a method that is found stands in the table of some class.
-/

namespace Dynascope.Store

variable {s : Store}

/-- The second class is the superclass of the first. -/
def Inherits (s : Store) (id parent : ClassId) : Prop :=
  ∃ c, s.class? id = some c ∧ c.superclass = some parent

/-- Every superclass has a smaller number than the class. -/
def Descends (s : Store) : Prop :=
  ∀ id parent, s.Inherits id parent → parent < id

namespace Descends

/-- Ancestors have smaller numbers. -/
theorem ancestor_lt (h : s.Descends) {id ancestor : ClassId}
    (ha : Relation.TransGen s.Inherits id ancestor) : ancestor < id := by
  induction ha with
  | single hone => exact h _ _ hone
  | tail _ hlast ih => exact Nat.lt_trans (h _ _ hlast) ih

/-- No class is its own ancestor. -/
theorem not_ancestor (h : s.Descends) (id : ClassId) : ¬ Relation.TransGen s.Inherits id id :=
  fun ha => Nat.lt_irrefl id (h.ancestor_lt ha)

/-- The way from a class to its superclass comes to an end. -/
theorem wellFounded (h : s.Descends) : WellFounded (flip s.Inherits) :=
  Subrelation.wf (fun hone => h _ _ hone) Nat.lt_wfRel.wf

/-- A class and its ancestors are all there once there is room for all smaller numbers. -/
theorem lineageUpTo_eq (h : s.Descends) {n k id : Nat} (hn : id < n) (hk : id < k) :
    s.lineageUpTo n id = s.lineageUpTo k id := by
  induction n generalizing k id with
  | zero => omega
  | succ n ih =>
    obtain ⟨k, rfl⟩ : ∃ j, k = j + 1 := ⟨k - 1, by omega⟩
    rw [lineageUpTo, lineageUpTo]
    cases hc : s.class? id with
    | none => rfl
    | some c =>
      cases hp : c.superclass with
      | none => simp only [hp, Option.map_none]
      | some parent =>
        have hlt : parent < id := h id parent ⟨c, hc, hp⟩
        have hn' : parent < n := Nat.lt_of_lt_of_le hlt (Nat.le_of_lt_succ hn)
        have hk' : parent < k := Nat.lt_of_lt_of_le hlt (Nat.le_of_lt_succ hk)
        simp only [hp, Option.map_some]
        rw [ih hn' hk']

theorem lineage_eq (h : s.Descends) {id : ClassId} {c : Class} (hc : s.class? id = some c) :
    s.lineage id = id :: (c.superclass.map s.lineage).getD [] := by
  have hid : id < s.classes.size := (Array.getElem?_eq_some_iff.mp hc).1
  calc s.lineage id
    _ = s.lineageUpTo (s.classes.size + 1) id := h.lineageUpTo_eq hid (Nat.lt_succ_of_lt hid)
    _ = id :: (c.superclass.map s.lineage).getD [] := by rw [lineageUpTo, hc]; rfl

/-- The method of a class is its own or else that of its superclass. -/
theorem findMethod?_eq (h : s.Descends) {id : ClassId} {c : Class} (hc : s.class? id = some c)
    (name : Text) :
    s.findMethod? id name =
      (c.methods.get? name).or (c.superclass.bind fun parent => s.findMethod? parent name) := by
  have hown : s.ownMethod? name id = c.methods.get? name := by
    rw [ownMethod?, hc]
    rfl
  rw [findMethod?, h.lineage_eq hc, List.findSome?_cons, hown]
  cases c.methods.get? name with
  | some f => rfl
  | none => cases c.superclass <;> rfl

end Descends

/-- A method that is found stands in the table of some class. -/
theorem exists_of_findMethod? {id : ClassId} {name : Text} {method : FunctionId}
    (h : s.findMethod? id name = some method) :
    ∃ owner c, s.class? owner = some c ∧ c.methods.get? name = some method := by
  obtain ⟨owner, -, hown⟩ := List.exists_of_findSome?_eq_some h
  obtain ⟨c, hc, hget⟩ := Option.bind_eq_some_iff.mp hown
  exact ⟨owner, c, hc, hget⟩

end Dynascope.Store
