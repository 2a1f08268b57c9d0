import Dynascope.Display.Forest
import Dynascope.Proofs.Tree.Proper
import Dynascope.Proofs.Tree.ReadBack

/-!
# Levels tell trees

A program is displayed from a list of labels with levels, each node before the nodes below it. The
levels alone tell which node stands below which, so the forest of the program is found again.

* `Part.label`, `Part.children`: what is written of a part itself, and the parts directly below it.
  Empty places are left out, but that of a missing method is not.
* `Part.branch?`: the labels of a part and of all that stands below it, if all of them have one;
  `Part.branch?_eq_none_iff` says that otherwise there is no such tree.
* `Part.map_branch_outline`: the labels of a part are those of its outline.
* `Outline.listItems`: the labels of outlines with their levels.
* `Branch.ofItems_listItems`: the forest of such a list is that of the outlines.
* `ofItems_programItems`: so it is for programs, unless something in their trees has no label.
* `programItems_missing_method`: a class with a missing method has no display, although the class
  without it has one.
* `exists_programItems`: the programs of sources have one.
-/

namespace Dynascope

/-! ## Lists of optional results -/

theorem mapM_eq_none_iff {α β : Type} {f : α → Option β} {xs : List α} :
    xs.mapM f = none ↔ ∃ x ∈ xs, f x = none := by
  induction xs with
  | nil => simp
  | cons x xs ih =>
    rw [List.mapM_cons, List.exists_mem_cons_iff, ← ih]
    cases f x <;> cases xs.mapM f <;> simp

theorem map_mapM_eq {α β γ : Type} {f : α → Option β} {g : β → γ} {f' : α → Option γ}
    {xs : List α} (h : ∀ x ∈ xs, (f x).map g = f' x) :
    (xs.mapM f).map (List.map g) = xs.mapM f' := by
  induction xs with
  | nil => rfl
  | cons x xs ih =>
    obtain ⟨hx, hxs⟩ := List.forall_mem_cons.mp h
    rw [List.mapM_cons, List.mapM_cons, ← hx, ← ih hxs]
    cases f x <;> cases xs.mapM f <;> rfl

/-! ## The labels of a tree -/

namespace Part

/-- Whether a part is an empty place. That of a missing method does not count as one. -/
def isAbsent : Part → Bool
  | .expr .absent => true
  | .stmt .absent => true
  | _ => false

/-- The place of a method. -/
def ofMethod : Option FunDecl → Part
  | some f => .stmt (.funDecl f)
  | none => .missing

/-- The places directly below a part, in the order of the source. -/
def places : Part → List Part
  | .expr (.assign _ value) => [.expr value]
  | .expr (.binary left _ right) => [.expr left, .expr right]
  | .expr (.call callee _ arguments) => .expr callee :: arguments.map .expr
  | .expr (.get object _) => [.expr object]
  | .expr (.group inner) => [.expr inner]
  | .expr (.logical left _ right) => [.expr left, .expr right]
  | .expr (.set object _ value) => [.expr object, .expr value]
  | .expr (.unary _ right) => [.expr right]
  | .expr _ => []
  | .stmt .absent => []
  | .stmt (.block body) => body.map .stmt
  | .stmt (.classDecl _ _ methods) => methods.map ofMethod
  | .stmt (.expr e) => [.expr e]
  | .stmt (.funDecl decl) => [.stmt decl.body]
  | .stmt (.choice condition yes no) => [.expr condition, .stmt yes, .stmt no]
  | .stmt (.ret _ value) => [.expr value]
  | .stmt (.varDecl _ initial) => [.expr initial]
  | .stmt (.loop condition body) => [.expr condition, .stmt body]
  | .missing => []

/-- The places that are not left out. -/
def present (ps : List Part) : List Part :=
  ps.filter fun p => !p.isAbsent

/-- The parts directly below a part. -/
def children (p : Part) : List Part :=
  present p.places

/-- What is written of a part itself. A missing method has no label. -/
def label : Part → Option Text
  | .expr e => e.label
  | .stmt s => some s.label
  | .missing => none

theorem label_eq_none_iff {p : Part} : p.label = none ↔
    p = .missing ∨ (∃ object, p = .expr (.get object none)) ∨
      ∃ object value, p = .expr (.set object none value) := by
  cases p with
  | expr e => cases e <;> simp [label, Expr.label]
  | stmt s => simp [label]
  | missing => simp [label]

theorem sizeOf_lt_of_mem_map {α : Type} [SizeOf α] {f : α → Part} {as : List α} {n : Nat}
    (hf : ∀ a, sizeOf (f a) ≤ sizeOf a + n) {q : Part} (h : q ∈ as.map f) :
    sizeOf q < sizeOf as + n := by
  obtain ⟨a, ha, rfl⟩ := List.mem_map.mp h
  have hlt := List.sizeOf_lt_of_mem ha
  have hle := hf a
  omega

/-- What stands below a part is smaller. -/
theorem sizeOf_lt_of_mem_places {p q : Part} (h : q ∈ p.places) : sizeOf q < sizeOf p := by
  cases p with
  | expr e =>
    cases e with
    | call callee paren arguments =>
      rcases List.mem_cons.mp h with rfl | h
      · simp
        omega
      · have hlt := sizeOf_lt_of_mem_map (n := 1) (by simp [Nat.add_comm]) h
        simp
        omega
    | binary | logical | set =>
      simp only [places, List.mem_cons, List.not_mem_nil, or_false] at h
      rcases h with rfl | rfl
      · simp
        omega
      · simp
    | assign | group | unary =>
      obtain rfl := List.mem_singleton.mp h
      simp
    | get =>
      obtain rfl := List.mem_singleton.mp h
      simp
      omega
    | absent | literal | superMethod | receiver | name => cases h
  | stmt s =>
    cases s with
    | block body =>
      have hlt := sizeOf_lt_of_mem_map (n := 1) (by simp [Nat.add_comm]) h
      simp
      omega
    | classDecl name superclass methods =>
      have hmethod : ∀ m, sizeOf (ofMethod m) ≤ sizeOf m + 1 := by
        intro m
        cases m <;> simp [ofMethod]
        omega
      have hlt := sizeOf_lt_of_mem_map hmethod h
      simp
      omega
    | funDecl decl =>
      obtain ⟨site, name, params, body⟩ := decl
      obtain rfl := List.mem_singleton.mp h
      simp
      omega
    | choice | loop =>
      simp only [places, List.mem_cons, List.not_mem_nil, or_false] at h
      rcases h with rfl | rfl | rfl <;> simp <;> omega
    | expr | ret | varDecl =>
      obtain rfl := List.mem_singleton.mp h
      simp
    | absent => cases h
  | missing => cases h

theorem mem_places_of_mem_children {p q : Part} (h : q ∈ p.children) : q ∈ p.places :=
  List.mem_of_mem_filter h

/-- The labels of a part and of all that stands below it, if all of them have one. -/
def branch? (p : Part) : Option Branch := do
  return .node (← p.label) (← p.children.attach.mapM fun q => q.1.branch?)
termination_by p
decreasing_by exact sizeOf_lt_of_mem_places (mem_places_of_mem_children q.2)

theorem branch?_eq (p : Part) :
    p.branch? = do return .node (← p.label) (← p.children.mapM branch?) := by
  rw [branch?, List.mapM_subtype fun _ _ => rfl, List.unattach_attach]

/-- From a part to one that stands below it, at any depth, or to itself. -/
abbrev Reaches : Part → Part → Prop :=
  Relation.ReflTransGen fun p q => q ∈ p.children

/-- Only something without a label keeps a part from having a tree of labels. -/
theorem branch?_eq_none_iff (p : Part) : p.branch? = none ↔ ∃ q, p.Reaches q ∧ q.label = none := by
  induction p using branch?.induct with
  | case1 p ih =>
    have hbelow : p.branch? = none ↔
        p.label = none ∨ ∃ q ∈ p.children, ∃ r, Reaches q r ∧ r.label = none := by
      have hchildren : ∀ q, (q ∈ p.children ∧ ∃ r, Reaches q r ∧ r.label = none) ↔
          q ∈ p.children ∧ q.branch? = none :=
        fun q => and_congr_right fun hq => (ih ⟨q, hq⟩).symm
      rw [exists_congr hchildren, ← mapM_eq_none_iff, branch?_eq]
      cases p.label <;> cases p.children.mapM branch? <;> simp
    rw [hbelow]
    constructor
    · rintro (hlabel | ⟨q, hq, r, hr, hlabel⟩)
      · exact ⟨p, .refl, hlabel⟩
      · exact ⟨r, .head hq hr, hlabel⟩
    · rintro ⟨r, hr, hlabel⟩
      rcases hr.cases_head with rfl | ⟨q, hq, hqr⟩
      · exact .inl hlabel
      · exact .inr ⟨q, hq, r, hqr, hlabel⟩

/-! ### The outline of a part -/

/-- The outline of a part; an empty place is labelled too. -/
def outline : Part → Option Outline
  | .expr e => e.outline
  | .stmt s => s.outline
  | .missing => none

/-- The outline of a part, or nothing for an empty place. -/
def outlines : Part → Option (List Outline)
  | .expr e => e.outlines
  | .stmt s => s.outlines
  | .missing => none

/-- A list of one outline, if there is a list, is told by its head. -/
theorem eq_map_head {outlines : Option (List Outline)}
    (h : ∀ os, outlines = some os → ∃ o, os = [o]) :
    outlines = (outlines.map fun os => os.head?.getD .empty).map fun o => [o] := by
  cases outlines with
  | none => rfl
  | some os =>
    obtain ⟨o, rfl⟩ := h os rfl
    rfl

/-- Something that is there has one outline. -/
theorem outlines_eq {p : Part} (h : p.isAbsent = false) :
    p.outlines = p.outline.map fun o => [o] := by
  cases p with
  | expr e =>
    have he : e ≠ .absent := by rintro rfl; cases h
    exact eq_map_head fun _ => e.outlines_eq_some he
  | stmt s =>
    have hs : s ≠ .absent := by rintro rfl; cases h
    exact eq_map_head fun _ => s.outlines_eq_some hs
  | missing => rfl

theorem both_nil (os : Option (List Outline)) :
    Outline.both (some []) os = os ∧ Outline.both os (some []) = os := by
  cases os <;> simp [Outline.both]

theorem mapM_outline_present (p : Part) (ps : List Part) :
    (present (p :: ps)).mapM outline = Outline.both p.outlines ((present ps).mapM outline) := by
  cases h : p.isAbsent with
  | true =>
    have hnone : p.outlines = some [] := by
      cases p with
      | expr e => cases e <;> first | rfl | cases h
      | stmt s => cases s <;> first | rfl | cases h
      | missing => cases h
    rw [present, List.filter_cons_of_neg (by simp [h]), hnone, (both_nil _).1, present]
  | false =>
    rw [present, List.filter_cons_of_pos (by simp [h]), List.mapM_cons, outlines_eq h, ← present]
    cases p.outline <;> cases (present ps).mapM outline <;> rfl

/-- The outlines of a list of places, for a function that gives them one by one. -/
theorem mapM_outline_map {α : Type} {f : α → Part} (outlinesOf : List α → Option (List Outline))
    (hnil : outlinesOf [] = some [])
    (hcons : ∀ a as, outlinesOf (a :: as) = Outline.both (f a).outlines (outlinesOf as))
    (as : List α) : (present (as.map f)).mapM outline = outlinesOf as := by
  induction as with
  | nil => exact hnil.symm
  | cons a as ih => rw [List.map_cons, mapM_outline_present, ih, hcons]

theorem mapM_outline_exprs (es : List Expr) :
    (present (es.map .expr)).mapM outline = outlinesAll es :=
  mapM_outline_map outlinesAll rfl (fun _ _ => rfl) es

theorem mapM_outline_stmts (ss : List Stmt) :
    (present (ss.map .stmt)).mapM outline = blockOutlines ss :=
  mapM_outline_map blockOutlines rfl (fun _ _ => rfl) ss

theorem mapM_outline_methods (ms : List (Option FunDecl)) :
    (present (ms.map ofMethod)).mapM outline = methodOutlines ms :=
  mapM_outline_map methodOutlines rfl (fun m _ => by cases m <;> rfl) ms

theorem outline_above {label : Option Text} {below below' : Option (List Outline)}
    (h : below' = below) : (Outline.above label below).map (fun os => os.head?.getD .empty) = do
      return .node (← label) false (← below') := by
  subst h
  cases label <;> cases below' <;> rfl

/-- The outline of a part has its label, and below it the outlines of its children. -/
theorem outline_eq (p : Part) : ∃ bare,
    p.outline = do return .node (← p.label) bare (← p.children.mapM outline) := by
  have hnil : (present []).mapM outline = some [] := rfl
  cases p with
  | expr e =>
    cases e with
    | absent | literal | superMethod | receiver | name => exact ⟨true, rfl⟩
    | call | binary | logical | set | assign | get | group | unary =>
      refine ⟨false, outline_above ?_⟩
      simp only [children, places, mapM_outline_present, mapM_outline_exprs, hnil,
        (both_nil _).2, outlines]
  | stmt s =>
    cases s with
    | absent => exact ⟨true, rfl⟩
    | funDecl decl =>
      cases decl
      refine ⟨false, outline_above ?_⟩
      simp only [children, places, mapM_outline_present, hnil, (both_nil _).2, outlines]
    | _ =>
      refine ⟨false, outline_above ?_⟩
      simp only [children, places, mapM_outline_present, mapM_outline_stmts, mapM_outline_methods,
        hnil, (both_nil _).2, outlines]
  | missing => exact ⟨true, rfl⟩

end Part

/-! ## Outlines as branches -/

mutual

/-- The labels of an outline. -/
def Outline.branch : Outline → Branch
  | .node label _ children => .node label (branches children)

/-- The labels of outlines, one after the other. -/
def branches : List Outline → List Branch
  | [] => []
  | o :: rest => o.branch :: branches rest

end

theorem branches_eq_map (os : List Outline) : branches os = os.map Outline.branch := by
  induction os with
  | nil => rfl
  | cons o os ih => rw [branches, ih, List.map_cons]

/-- The labels of a part are those of its outline. -/
theorem Part.map_branch_outline (p : Part) : p.outline.map Outline.branch = p.branch? := by
  induction p using Part.branch?.induct with
  | case1 p ih =>
    have hchildren : (p.children.mapM outline).map (List.map Outline.branch) =
        p.children.mapM branch? := map_mapM_eq fun q hq => ih ⟨q, hq⟩
    obtain ⟨bare, hp⟩ := p.outline_eq
    rw [hp, branch?_eq, ← hchildren, ← funext branches_eq_map]
    cases p.label <;> cases p.children.mapM outline <;> rfl

/-! ## Items with levels -/

namespace Outline

variable {level : Nat}

/-- The items of outlines of one level, one outline after the other. -/
def listItems (level : Nat) (os : List Outline) : List (Nat × Text) :=
  listItemsOnto level os []

mutual

theorem itemsOnto_eq (level : Nat) (after : List (Nat × Text)) :
    ∀ o : Outline, o.itemsOnto level after = o.items level ++ after
  | .node label bare children => by
    rw [items, itemsOnto, itemsOnto, listItemsOnto_eq (level + 1) after children,
      List.cons_append, listItems]

/-- What follows the items of outlines does not change them. -/
theorem listItemsOnto_eq (level : Nat) (after : List (Nat × Text)) :
    ∀ os : List Outline, listItemsOnto level os after = listItems level os ++ after
  | [] => rfl
  | o :: rest => by
    rw [listItems, listItemsOnto, listItemsOnto, itemsOnto_eq level _ o,
      itemsOnto_eq level _ o, listItemsOnto_eq level after rest, ← List.append_assoc, listItems]

end

@[simp] theorem listItems_nil : listItems level [] = [] :=
  rfl

/-- A label comes first, then what stands below it, one level higher, and then the next outlines. -/
theorem listItems_cons (label : Text) (bare : Bool) (children rest : List Outline) :
    listItems level (.node label bare children :: rest) =
      (level, label) :: (listItems (level + 1) children ++ listItems level rest) := by
  rw [listItems, listItemsOnto, itemsOnto, listItemsOnto_eq]
  rfl

/-- No level is lower than that of the outlines. -/
theorem le_of_mem_listItems : ∀ {os : List Outline} {level : Nat} {x : Nat × Text},
    x ∈ listItems level os → level ≤ x.1
  | .node label bare children :: rest, level, x, h => by
    rw [listItems_cons, List.mem_cons, List.mem_append] at h
    rcases h with rfl | h | h
    · exact Nat.le_refl level
    · exact Nat.le_of_succ_le (le_of_mem_listItems h)
    · exact le_of_mem_listItems h

/-- The first item has the level of the outlines. -/
theorem level_of_head?_listItems {os : List Outline} {x : Nat × Text}
    (h : (listItems level os).head? = some x) : x.1 = level := by
  cases os with
  | nil => cases h
  | cons o rest =>
    obtain ⟨label, bare, children⟩ := o
    rw [listItems_cons] at h
    obtain rfl := Option.some.inj h
    rfl

/-- From one item to the next, the level rises by one at most. -/
theorem isChain_listItems : ∀ (os : List Outline) (level : Nat),
    (listItems level os).IsChain fun x y => y.1 ≤ x.1 + 1
  | [], _ => .nil
  | .node label bare children :: rest, level => by
    rw [listItems_cons, List.isChain_cons, List.isChain_append]
    refine ⟨fun y hy => ?_, isChain_listItems children (level + 1), isChain_listItems rest level,
      fun x hx y hy => ?_⟩
    · rw [List.head?_append, Option.mem_def, Option.or_eq_some_iff] at hy
      rcases hy with hy | ⟨-, hy⟩
      · exact Nat.le_of_eq (level_of_head?_listItems hy)
      · exact Nat.le_succ_of_le (Nat.le_of_eq (level_of_head?_listItems hy))
    · have hlow := le_of_mem_listItems (List.mem_of_mem_getLast? hx)
      have hhead := level_of_head?_listItems hy
      omega

end Outline

/-! ## Branches from items -/

namespace Branch

open Outline

mutual

/-- The number of texts in a branch. -/
def size : Branch → Nat
  | .node _ children => sizeAll children + 1

/-- The number of texts in a forest. -/
def sizeAll : List Branch → Nat
  | [] => 0
  | b :: rest => b.size + sizeAll rest

end

/-- There is one item for each text. -/
theorem length_listItems : ∀ (os : List Outline) (level : Nat),
    (listItems level os).length = sizeAll (branches os)
  | [], _ => rfl
  | .node label bare children :: rest, level => by
    rw [listItems_cons, List.length_cons, List.length_append, length_listItems children (level + 1),
      length_listItems rest level, branches, sizeAll, Outline.branch, size]
    omega

/-- Outlines of a level do not begin with a higher one. -/
theorem split_listItems (os : List Outline) (level : Nat) :
    (listItems level os).takeWhile (fun x => level < x.1) = [] ∧
      (listItems level os).dropWhile (fun x => level < x.1) = listItems level os := by
  cases os with
  | nil => exact ⟨rfl, rfl⟩
  | cons o rest =>
    obtain ⟨label, bare, children⟩ := o
    have hlevel : ¬ decide (level < (level, label).1) = true := by simp
    rw [listItems_cons]
    exact ⟨List.takeWhile_cons_of_neg hlevel, List.dropWhile_cons_of_neg hlevel⟩

/-- **Levels tell trees.** The items that follow a label with higher levels are those below it. -/
theorem ofItems_listItems : ∀ (os : List Outline) (level : Nat),
    ofItems (listItems level os) = branches os
  | [], _ => by rw [listItems_nil, ofItems, branches]
  | .node label bare children :: rest, level => by
    have hbelow : ∀ x ∈ listItems (level + 1) children, decide (level < x.1) = true :=
      fun x hx => decide_eq_true (le_of_mem_listItems hx)
    obtain ⟨htake, hdrop⟩ := split_listItems rest level
    rw [listItems_cons, ofItems, List.takeWhile_append_of_pos hbelow,
      List.dropWhile_append_of_pos hbelow, htake, hdrop, List.append_nil,
      ofItems_listItems children (level + 1), ofItems_listItems rest level, branches,
      Outline.branch]

end Branch

/-- **The display of a program.** From the labels of a program with their levels, the forest of its
statements is found again: its nodes are the statements and, below each part, the parts that are its
children. Empty places are left out, so there is such a list unless a method is missing somewhere in
the program, or the name of a property. The list has one item for each node, begins with level zero,
and never rises by more than one level. -/
theorem ofItems_programItems (program : List Stmt) :
    (programItems program).map Branch.ofItems = program.mapM (fun s => (Part.stmt s).branch?) ∧
    (∀ p : Part, p.branch? = do return .node (← p.label) (← p.children.mapM Part.branch?)) ∧
    (programItems program = none ↔ ∃ s ∈ program, ∃ q, (Part.stmt s).Reaches q ∧ q.label = none) ∧
    (∀ q : Part, q.label = none ↔
      q = .missing ∨ (∃ object, q = .expr (.get object none)) ∨
        ∃ object value, q = .expr (.set object none value)) ∧
    ∀ items, programItems program = some items →
      items.length = Branch.sizeAll (Branch.ofItems items) ∧
      (∀ x, items.head? = some x → x.1 = 0) ∧ items.IsChain fun x y => y.1 ≤ x.1 + 1 := by
  have hforest : (programItems program).map Branch.ofItems =
      program.mapM fun s => (Part.stmt s).branch? := by
    rw [← map_mapM_eq fun s _ => Part.map_branch_outline (.stmt s), programItems, Option.map_map]
    refine congrArg (Option.map · _) (funext fun os => ?_)
    exact (Branch.ofItems_listItems os 0).trans (branches_eq_map os)
  refine ⟨hforest, Part.branch?_eq, ?_, fun q => q.label_eq_none_iff, fun items hitems => ?_⟩
  · rw [← Option.map_eq_none_iff, hforest, mapM_eq_none_iff]
    exact exists_congr fun s => and_congr_right fun _ => Part.branch?_eq_none_iff _
  · obtain ⟨os, -, rfl⟩ := Option.map_eq_some_iff.mp hitems
    refine ⟨?_, fun _ => Outline.level_of_head?_listItems, Outline.isChain_listItems _ 0⟩
    have hforest : Branch.ofItems (Outline.listItemsOnto 0 os []) = branches os :=
      Branch.ofItems_listItems os 0
    rw [hforest]
    exact Branch.length_listItems os 0

/-- A program with empty places, one of them a statement of its own. -/
def sparse : List Stmt :=
  [.block [.expr .absent, .absent, .ret none (.unary ⟨.minus, "-", none, .start⟩ .absent)], .absent]

theorem ofItems_programItems_sparse :
    ∃ items, programItems sparse = some items ∧ items.length = 5 ∧
      (∃ x, items.head? = some x ∧ x.1 = 0) ∧ Branch.ofItems items =
        [.node "block" [.node "expr" [], .node "return" [.node "-" []]], .node "nil" []] := by
  obtain ⟨hforest, -, -, -, hlist⟩ := ofItems_programItems sparse
  obtain ⟨hlength, hfirst, -⟩ := hlist _ rfl
  have hbranches : sparse.mapM (fun s => (Part.stmt s).branch?) = some
      [.node "block" [.node "expr" [], .node "return" [.node "-" []]], .node "nil" []] := by
    simp only [sparse, Part.branch?_eq, Part.children, Part.present, Part.places, List.map,
      List.filter, Part.isAbsent, Bool.not_true, Bool.not_false, List.mapM_cons, List.mapM_nil]
    rfl
  have hitems := Option.some.inj (hforest.trans hbranches)
  rw [hitems] at hlength
  exact ⟨_, rfl, hlength, ⟨_, rfl, hfirst _ rfl⟩, hitems⟩

/-- A class without a superclass. -/
def classOf (methods : List (Option FunDecl)) : Stmt :=
  .classDecl ⟨.identifier, "A", none, .start⟩ none methods

/-- **Missing methods.** A class has no display if its only method is missing. Left out like an
empty place, the method would leave the class alone. -/
theorem programItems_missing_method : programItems [classOf [none]] = none ∧
    (programItems [classOf []]).map Branch.ofItems = some [.node "class A" []] := by
  have hitems : programItems [classOf []] = some [(0, Text.ofString "class A")] := by decide
  refine ⟨rfl, ?_⟩
  rw [hitems, Option.map_some, Branch.ofItems]
  simp [Branch.ofItems]

/-- The programs of sources have a display. -/
theorem exists_programItems (source : Text) :
    ∃ items, programItems (parseProgram (tokenize source).1).statements = some items := by
  refine Option.ne_none_iff_exists'.mp fun hnone => ?_
  obtain ⟨s, hs, hlabel⟩ := mapM_eq_none_iff.mp (Option.map_eq_none_iff.mp hnone)
  have hsome := s.isSome_outlines (proper_of_source hs)
  rw [Option.map_eq_none_iff.mp hlabel] at hsome
  cases hsome

end Dynascope
