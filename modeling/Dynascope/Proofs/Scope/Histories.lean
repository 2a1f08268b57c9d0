import Dynascope.Scope.Frames
import Mathlib.Data.List.Induction

/-!
# Histories of frames

What may be done to frames, and what can be said of it without looking at the frames themselves: a
history is a list of operations, a moment of it is the number of operations before.

* `FrameOp`: an operation; `Frames.perform`: what it gives and what it leaves.
* `Frames.after`: the frames after a history.
* `FrameId`: which frame; `FrameHistory.live`: the frames on the stack, from the current one down.
* `FrameHistory.Defines`, `FrameHistory.LastDefine`: which operations define a name in a frame.
* `FrameHistory.Innermost`: the frame that a name is found in.
* `FrameHistory.Gives`, `FrameHistory.LastGives`: which operations give a value to a definition.
* `FrameHistory.Holds`: the value that a name has in a frame, going by the history.
* `FrameHistory.Matches`: a push and the pop that takes its frame off.
-/

namespace Dynascope

variable {V : Type}

/-- An operation on frames. The empty name is never defined. -/
inductive FrameOp (V : Type) where
  | push (name : Text)
  | pop
  | define (name : Text) (value : V) (named : name ≠ [])
  | assign (name : Text) (value : V)
  | get (name : Text)

/-- What an operation gives. -/
inductive FrameAnswer (V : Type) where
  /-- A frame was pushed or a name defined. -/
  | done
  /-- The current frame was taken off. -/
  | popped (frame : Frame V)
  /-- The operation cannot be done. -/
  | refused
  /-- Whether the name of an assignment was found. -/
  | assigned (found : Bool)
  /-- The value of a name, if there is one. -/
  | found (value : Option V)

/-- Whether a frame was taken off. -/
def FrameAnswer.isPopped : FrameAnswer V → Bool
  | .popped _ => true
  | _ => false

/-- Whether a frame is put on top. -/
def FrameOp.isPush : FrameOp V → Bool
  | .push _ => true
  | _ => false

namespace Frames

/-- Does one operation: what it gives, and the frames after it. -/
def perform (fs : Frames V) : FrameOp V → FrameAnswer V × Frames V
  | .push name => (.done, fs.push name)
  | .pop =>
    match fs.pop? with
    | some (f, rest) => (.popped f, rest)
    | none => (.refused, fs)
  | .define name value _ =>
    match fs.define? name value with
    | some gs => (.done, gs)
    | none => (.refused, fs)
  | .assign name value =>
    match fs.assign? name value with
    | some gs => (.assigned true, gs)
    | none => (.assigned false, fs)
  | .get name => (.found (fs.get? name), fs)

/-- The frames after a history. -/
def after (ops : List (FrameOp V)) : Frames V :=
  ops.foldl (fun fs op => (fs.perform op).2) .new

/-- What the operations of a history give, from some frames on. -/
def answers : Frames V → List (FrameOp V) → List (FrameAnswer V)
  | _, [] => []
  | fs, op :: rest => (fs.perform op).1 :: answers (fs.perform op).2 rest

theorem after_concat (ops : List (FrameOp V)) (op : FrameOp V) :
    after (ops ++ [op]) = ((after ops).perform op).2 := by
  rw [after, List.foldl_append]
  rfl

theorem answers_concat (fs : Frames V) (ops : List (FrameOp V)) (op : FrameOp V) :
    answers fs (ops ++ [op]) = answers fs ops ++
      [((ops.foldl (fun fs op => (fs.perform op).2) fs).perform op).1] := by
  induction ops generalizing fs with
  | nil => rfl
  | cons first ops ih => exact congrArg _ (ih _)

end Frames

/-- Which frame: the global one, or the one that the operation at a place of the history pushed. -/
inductive FrameId where
  | global
  | pushed (index : Nat)
  deriving Repr, DecidableEq

namespace FrameHistory

/-! ## The frames on the stack -/

/-- The live frames after one more operation, which stands at a place of the history. -/
def nextLive (index : Nat) : FrameOp V → List FrameId → List FrameId
  | .push _, frames => .pushed index :: frames
  | .pop, _ :: below :: rest => below :: rest
  | _, frames => frames

/-- The live frames after a history, from the current one down to the global one. -/
def live (ops : List (FrameOp V)) : List FrameId :=
  ops.zipIdx.foldl (fun frames x => nextLive x.2 x.1 frames) [.global]

variable {ops : List (FrameOp V)} {op : FrameOp V} {f g : FrameId} {n m : Text} {v w : V}
  {i j k : Nat}

theorem live_concat (ops : List (FrameOp V)) (op : FrameOp V) :
    live (ops ++ [op]) = nextLive ops.length op (live ops) := by
  rw [live, List.zipIdx_append, List.foldl_append, List.zipIdx_singleton, Nat.zero_add]
  rfl

/-- The global frame stays at the bottom. -/
theorem live_getLast? (ops : List (FrameOp V)) : (live ops).getLast? = some .global := by
  induction ops using List.reverseRecOn with
  | nil => rfl
  | append_singleton ops op ih =>
    rw [live_concat]
    unfold nextLive
    split
    · rw [List.getLast?_cons, ih]
      rfl
    · rename_i h
      rw [h, List.getLast?_cons_cons] at ih
      exact ih
    · exact ih

theorem live_ne_nil (ops : List (FrameOp V)) : live ops ≠ [] := by
  intro h
  have hlast := live_getLast? ops
  rw [h] at hlast
  cases hlast

/-- What an operation leaves on the stack was there before, unless it was pushed. -/
theorem mem_nextLive (h : f ∈ nextLive i op (live ops)) : f = .pushed i ∨ f ∈ live ops := by
  unfold nextLive at h
  split at h
  · exact List.mem_cons.mp h
  · rename_i hlive
    rw [hlive]
    exact .inr (List.mem_cons_of_mem _ h)
  · exact .inr h

/-- A frame was pushed before. -/
theorem lt_of_mem_live (h : .pushed i ∈ live ops) : i < ops.length := by
  induction ops using List.reverseRecOn with
  | nil => simp [live] at h
  | append_singleton ops op ih =>
    rw [live_concat] at h
    rw [List.length_append, List.length_singleton]
    rcases mem_nextLive h with h | h
    · rw [FrameId.pushed.inj h]
      exact Nat.lt_succ_self _
    · exact Nat.lt_succ_of_lt (ih h)

/-! ## Definitions -/

/-- The operation at a place defines the name in the frame, which was the current one. -/
def Defines (ops : List (FrameOp V)) (i : Nat) (f : FrameId) (n : Text) : Prop :=
  (∃ v h, ops[i]? = some (.define n v h)) ∧ (live (ops.take i)).head? = some f

/-- The operation at the place is the last one that defines the name in the frame. -/
def LastDefine (ops : List (FrameOp V)) (i : Nat) (f : FrameId) (n : Text) : Prop :=
  Defines ops i f n ∧ ∀ j, Defines ops j f n → j ≤ i

/-- The frame is the innermost live one that has defined the name. -/
def Innermost (ops : List (FrameOp V)) (f : FrameId) (n : Text) : Prop :=
  ∃ above below, live ops = above ++ f :: below ∧ (∀ g ∈ above, ∀ i, ¬ Defines ops i g n) ∧
    ∃ i, Defines ops i f n

/-- The operation at the place `j` gives the value to the definition of the name at the place `i`:
it is this definition, or a later assignment that resolves to it. -/
def Gives (ops : List (FrameOp V)) (i j : Nat) (n : Text) (v : V) : Prop :=
  (j = i ∧ ∃ h, ops[i]? = some (.define n v h)) ∨
    i < j ∧ ops[j]? = some (.assign n v) ∧
      ∃ f, Innermost (ops.take j) f n ∧ LastDefine (ops.take j) i f n

/-- The operation at the place `j` is the latest one that gives a value to the definition. -/
def LastGives (ops : List (FrameOp V)) (i j : Nat) (n : Text) (v : V) : Prop :=
  Gives ops i j n v ∧ ∀ k w, Gives ops i k n w → k ≤ j

/-- The name has the value in the frame: the last one that was given to its last definition. -/
def Holds (ops : List (FrameOp V)) (f : FrameId) (n : Text) (v : V) : Prop :=
  ∃ i j, LastDefine ops i f n ∧ LastGives ops i j n v

/-- The operation at the place `k` takes off the frame that the one at the place `i` pushed. -/
structure Matches (ops : List (FrameOp V)) (i k : Nat) : Prop where
  push : ∃ name, ops[i]? = some (.push name)
  pop : ops[k]? = some .pop
  later : i < k
  current : (live (ops.take k)).head? = some (.pushed i)

/-! ## One more operation -/

theorem getElem?_concat_eq_some {o : FrameOp V} :
    (ops ++ [op])[i]? = some o ↔ ops[i]? = some o ∨ i = ops.length ∧ op = o := by
  rcases Nat.lt_trichotomy i ops.length with h | rfl | h
  · rw [List.getElem?_append_left h]
    exact ⟨.inl, fun hor => hor.resolve_right fun hc => absurd hc.1 (Nat.ne_of_lt h)⟩
  · rw [List.getElem?_concat_length, List.getElem?_eq_none (Nat.le_refl _), Option.some.injEq]
    exact ⟨fun ho => .inr ⟨rfl, ho⟩, fun hor => hor.elim nofun And.right⟩
  · rw [List.getElem?_eq_none (by rwa [List.length_append, List.length_singleton]),
      List.getElem?_eq_none (Nat.le_of_lt h)]
    exact ⟨nofun, fun hor => hor.elim nofun fun hc => absurd hc.1 (Nat.ne_of_gt h)⟩

theorem lt_of_getElem? {o : FrameOp V} (h : ops[i]? = some o) : i < ops.length :=
  (List.getElem?_eq_some_iff.mp h).1

/-- Before its end, a history does not depend on what follows. -/
theorem take_concat (h : i ≤ ops.length) : (ops ++ [op]).take i = ops.take i :=
  List.take_append_of_le_length h

theorem Defines.lt (h : Defines ops i f n) : i < ops.length := by
  obtain ⟨⟨v, hn, h⟩, -⟩ := h
  exact lt_of_getElem? h

theorem Defines.frame_eq (h : Defines ops i f n) (h' : Defines ops i g m) : f = g :=
  Option.some.inj (h.2.symm.trans h'.2)

theorem defines_concat : Defines (ops ++ [op]) i f n ↔ Defines ops i f n ∨
    i = ops.length ∧ (∃ v h, op = .define n v h) ∧ (live ops).head? = some f := by
  unfold Defines
  constructor
  · rintro ⟨⟨v, hn, hop⟩, hlive⟩
    rcases getElem?_concat_eq_some.mp hop with hop | ⟨rfl, rfl⟩
    · rw [take_concat (Nat.le_of_lt (lt_of_getElem? hop))] at hlive
      exact .inl ⟨⟨v, hn, hop⟩, hlive⟩
    · rw [List.take_left] at hlive
      exact .inr ⟨rfl, ⟨v, hn, rfl⟩, hlive⟩
  · rintro (⟨⟨v, hn, hop⟩, hlive⟩ | ⟨rfl, ⟨v, hn, rfl⟩, hlive⟩)
    · refine ⟨⟨v, hn, getElem?_concat_eq_some.mpr (.inl hop)⟩, ?_⟩
      rwa [take_concat (Nat.le_of_lt (lt_of_getElem? hop))]
    · refine ⟨⟨v, hn, List.getElem?_concat_length⟩, ?_⟩
      rwa [List.take_left]

theorem gives_concat : Gives (ops ++ [op]) i j n v ↔ Gives ops i j n v ∨ j = ops.length ∧
    ((i = ops.length ∧ ∃ h, op = .define n v h) ∨
      op = .assign n v ∧ ∃ f, Innermost ops f n ∧ LastDefine ops i f n) := by
  unfold Gives
  constructor
  · rintro (⟨rfl, hn, hop⟩ | ⟨hij, hop, htarget⟩)
    · rcases getElem?_concat_eq_some.mp hop with hop | ⟨rfl, rfl⟩
      · exact .inl (.inl ⟨rfl, hn, hop⟩)
      · exact .inr ⟨rfl, .inl ⟨rfl, hn, rfl⟩⟩
    · rcases getElem?_concat_eq_some.mp hop with hop | ⟨rfl, rfl⟩
      · rw [take_concat (Nat.le_of_lt (lt_of_getElem? hop))] at htarget
        exact .inl (.inr ⟨hij, hop, htarget⟩)
      · rw [List.take_left] at htarget
        exact .inr ⟨rfl, .inr ⟨rfl, htarget⟩⟩
  · rintro ((⟨rfl, hn, hop⟩ | ⟨hij, hop, htarget⟩) |
      ⟨rfl, ⟨rfl, hn, rfl⟩ | ⟨rfl, f, htarget, hlast⟩⟩)
    · exact .inl ⟨rfl, hn, getElem?_concat_eq_some.mpr (.inl hop)⟩
    · refine .inr ⟨hij, getElem?_concat_eq_some.mpr (.inl hop), ?_⟩
      rwa [take_concat (Nat.le_of_lt (lt_of_getElem? hop))]
    · exact .inl ⟨rfl, hn, List.getElem?_concat_length⟩
    · refine .inr ⟨hlast.1.lt, List.getElem?_concat_length, f, ?_⟩
      rw [List.take_left]
      exact ⟨htarget, hlast⟩

theorem Gives.lt (h : Gives ops i j n v) : j < ops.length := by
  rcases h with ⟨rfl, hn, h⟩ | ⟨-, h, -⟩ <;> exact lt_of_getElem? h

theorem Defines.le_length (h : Defines (ops ++ [op]) i f n) : i ≤ ops.length := by
  have hlt := h.lt
  rw [List.length_append, List.length_singleton] at hlt
  exact Nat.le_of_lt_succ hlt

theorem Gives.le_length (h : Gives (ops ++ [op]) i j n v) : j ≤ ops.length := by
  have hlt := h.lt
  rw [List.length_append, List.length_singleton] at hlt
  exact Nat.le_of_lt_succ hlt

theorem Gives.le (h : Gives ops i j n v) : i ≤ j := by
  rcases h with ⟨rfl, -⟩ | ⟨h, -⟩
  · exact Nat.le_refl _
  · exact Nat.le_of_lt h

/-- If a frame has defined a name, one of the definitions is the last one. -/
theorem exists_lastDefine (h : ∃ i, Defines ops i f n) : ∃ i, LastDefine ops i f n := by
  induction ops using List.reverseRecOn with
  | nil =>
    obtain ⟨i, h⟩ := h
    exact absurd h.lt (Nat.not_lt_zero i)
  | append_singleton ops op ih =>
    by_cases hnew : (∃ v h, op = .define n v h) ∧ (live ops).head? = some f
    · exact ⟨ops.length, defines_concat.mpr (.inr ⟨rfl, hnew⟩), fun _ hj => hj.le_length⟩
    · have hsame : ∀ i, Defines (ops ++ [op]) i f n ↔ Defines ops i f n := fun i =>
        defines_concat.trans (or_iff_left fun hc => hnew hc.2)
      simp only [LastDefine, hsame] at h ih ⊢
      exact ih h

/-- What an operation leaves alone: it neither defines the name in the frame nor assigns to it
there. -/
theorem holds_concat (hdefine : ¬ ((∃ v h, op = .define n v h) ∧ (live ops).head? = some f))
    (hassign : ¬ ((∃ v, op = .assign n v) ∧ Innermost ops f n)) :
    Holds (ops ++ [op]) f n v ↔ Holds ops f n v := by
  have hdefines : ∀ i, Defines (ops ++ [op]) i f n ↔ Defines ops i f n := fun i =>
    defines_concat.trans (or_iff_left fun hc => hdefine hc.2)
  have hgives : ∀ i, Defines ops i f n → ∀ j w,
      (Gives (ops ++ [op]) i j n w ↔ Gives ops i j n w) := by
    refine fun i hi j w => gives_concat.trans (or_iff_left ?_)
    rintro ⟨-, ⟨rfl, -⟩ | ⟨hop, g, hg, hlast⟩⟩
    · exact Nat.lt_irrefl _ hi.lt
    · exact hassign ⟨⟨w, hop⟩, hi.frame_eq hlast.1 ▸ hg⟩
  unfold Holds LastDefine LastGives
  simp only [hdefines]
  refine exists_congr fun i => exists_congr fun j => and_congr_right fun hi => ?_
  simp only [hgives i hi.1]

/-- A definition gives its value to the name in the current frame. -/
theorem holds_concat_define {h : n ≠ []} (hf : (live ops).head? = some f) :
    Holds (ops ++ [.define n v h]) f n w ↔ w = v := by
  have hnew : Defines (ops ++ [.define n v h]) ops.length f n :=
    defines_concat.mpr (.inr ⟨rfl, ⟨v, h, rfl⟩, hf⟩)
  have hgiven : Gives (ops ++ [.define n v h]) ops.length ops.length n v :=
    gives_concat.mpr (.inr ⟨rfl, .inl ⟨rfl, h, rfl⟩⟩)
  constructor
  · rintro ⟨i, j, hi, hj⟩
    have hile := hi.2 _ hnew
    have hij := hj.1.le
    rcases gives_concat.mp hj.1 with hold | ⟨-, ⟨-, hn, heq⟩ | ⟨heq, -⟩⟩
    · have := hold.lt
      omega
    · cases heq
      rfl
    · cases heq
  · rintro rfl
    exact ⟨ops.length, ops.length, ⟨hnew, fun _ hj => hj.le_length⟩, hgiven,
      fun _ _ hk => hk.le_length⟩

/-- An assignment gives its value to the name in the innermost frame that has defined it. -/
theorem holds_concat_assign (hf : Innermost ops f n) :
    Holds (ops ++ [.assign n v]) f n w ↔ w = v := by
  have hdefines : ∀ i, Defines (ops ++ [.assign n v]) i f n ↔ Defines ops i f n := fun i =>
    defines_concat.trans (or_iff_left fun ⟨_, ⟨_, _, hc⟩, _⟩ => by cases hc)
  have hlast : ∀ i, LastDefine (ops ++ [.assign n v]) i f n ↔ LastDefine ops i f n := fun i => by
    simp only [LastDefine, hdefines]
  have hgiven : ∀ i, LastDefine ops i f n → Gives (ops ++ [.assign n v]) i ops.length n v :=
    fun i hi => gives_concat.mpr (.inr ⟨rfl, .inr ⟨rfl, f, hf, hi⟩⟩)
  constructor
  · rintro ⟨i, j, hi, hj⟩
    have hlength := hj.2 _ _ (hgiven i ((hlast i).mp hi))
    rcases gives_concat.mp hj.1 with hold | ⟨-, ⟨-, hn, heq⟩ | ⟨heq, -⟩⟩
    · have := hold.lt
      omega
    · cases heq
    · cases heq
      rfl
  · rintro rfl
    obtain ⟨above, below, -, -, hdef⟩ := hf
    obtain ⟨i, hi⟩ := exists_lastDefine hdef
    exact ⟨i, ops.length, (hlast i).mpr hi, hgiven i hi, fun _ _ hk => hk.le_length⟩

end FrameHistory

end Dynascope
