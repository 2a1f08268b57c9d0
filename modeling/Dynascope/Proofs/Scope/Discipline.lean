import Dynascope.Proofs.Scope.Described

/-!
# The discipline of scopes

What any history of operations does to the frames, said in terms of the history.

* `FrameHistory.frameOf`, `FrameHistory.valueIn`: a frame on the stack and the values in it.
* `FrameHistory.get?_eq_some_iff`: a name has the value that was last given to its last definition
  in the innermost frame that has defined it.
* `FrameHistory.Matches.inside`, `FrameHistory.Matches.closing`: what is on the stack between a push
  and the pop that belongs to it, and after them.
* `FrameHistory.Matches.unchanged`: what happens to the frames below in the meantime.
* **`FrameHistory.frames_lawful`**: all of it, for every history.
-/

namespace Dynascope

namespace FrameHistory

variable {V : Type} {ops : List (FrameOp V)} {op : FrameOp V} {f g : FrameId} {n m : Text}
  {v w : V} {i j k a b : Nat}

/-! ## The frames on the stack -/

/-- The frame on the stack after a history: it stands where the history has it. -/
def frameOf (ops : List (FrameOp V)) (f : FrameId) : Option (Frame V) :=
  (Frames.after ops).toList[(live ops).idxOf f]?

/-- The value of a name in a frame on the stack. -/
def valueIn (ops : List (FrameOp V)) (f : FrameId) (n : Text) : Option V :=
  (frameOf ops f).bind fun frame => frame.vars.get? n

theorem length_live (ops : List (FrameOp V)) :
    (live ops).length = (Frames.after ops).toList.length :=
  (forall₂_described ops).length_eq

theorem frameOf_getElem (h : i < (live ops).length) :
    frameOf ops (live ops)[i] = (Frames.after ops).toList[i]? := by
  rw [frameOf, (live_nodup ops).idxOf_getElem i h]

/-- The frames on the stack are those that the history says. -/
theorem map_frameOf (ops : List (FrameOp V)) :
    (live ops).map (frameOf ops) = (Frames.after ops).toList.map some := by
  refine List.ext_getElem (by rw [List.length_map, List.length_map, length_live]) fun i h h' => ?_
  rw [List.getElem_map, List.getElem_map, frameOf_getElem]
  exact List.getElem?_eq_getElem _

/-- A live frame is on the stack, and it is as the history says. -/
theorem exists_frameOf (h : f ∈ live ops) : ∃ frame, frameOf ops f = some frame ∧
    Described ops f frame := by
  obtain ⟨i, hi, rfl⟩ := List.getElem_of_mem h
  have hi' : i < (Frames.after ops).toList.length := length_live ops ▸ hi
  exact ⟨_, (frameOf_getElem hi).trans (List.getElem?_eq_getElem hi'),
    (forall₂_described ops).get hi hi'⟩

theorem frameOf_eq_none (h : f ∉ live ops) : frameOf ops f = none := by
  rw [frameOf, List.idxOf_eq_length_iff.mpr h, length_live]
  exact List.getElem?_eq_none (Nat.le_refl _)

theorem valueIn_eq_some_iff : valueIn ops f n = some v ↔ f ∈ live ops ∧ Holds ops f n v := by
  unfold valueIn
  by_cases hf : f ∈ live ops
  · obtain ⟨frame, hframe, hdescribed⟩ := exists_frameOf hf
    rw [hframe, Option.bind_some, hdescribed.get?]
    exact (and_iff_right hf).symm
  · rw [frameOf_eq_none hf]
    exact ⟨nofun, fun h => absurd h.1 hf⟩

theorem frameOf_global (ops : List (FrameOp V)) :
    frameOf ops .global = some (Frames.after ops).globals := by
  have hlast := congrArg List.getLast? (map_frameOf ops)
  rw [List.getLast?_map, List.getLast?_map, live_getLast?, Frames.toList,
    List.getLast?_append] at hlast
  exact Option.some.inj hlast

/-! ## Look-ups -/

/-- Either no live frame has defined the name, or it is found in the innermost one that has. -/
theorem undefined_or_innermost (ops : List (FrameOp V)) (n : Text) :
    ((∀ g ∈ (Frames.after ops).toList, g.vars.get? n = none) ∧
        ∀ f ∈ live ops, ∀ i, ¬ Defines ops i f n) ∨
      ∃ f frame above below, Innermost ops f n ∧ Described ops f frame ∧
        Frames.FirstBinding (Frames.after ops).toList n above frame below := by
  have h := forall₂_described ops
  rcases Frames.exists_firstBinding (Frames.after ops).toList n with
    hn | ⟨above, frame, below, hb⟩
  · exact .inl ⟨hn, undefined_of_unbound h hn⟩
  · obtain ⟨_, f, _, -, -, hdescribed, -, hf⟩ := exists_innermost h hb
    exact .inr ⟨f, frame, above, below, hf, hdescribed, hb⟩

theorem Innermost.not_undefined (hf : Innermost ops f n) :
    ¬ ∀ f ∈ live ops, ∀ i, ¬ Defines ops i f n := by
  obtain ⟨i, hi⟩ := hf.defines
  exact fun h => h f hf.mem i hi

/-- A name has the value that it has in the innermost frame that has defined it. -/
theorem get?_eq_some_iff :
    (Frames.after ops).get? n = some v ↔ ∃ f, Innermost ops f n ∧ Holds ops f n v := by
  rcases undefined_or_innermost ops n with ⟨hn, hundefined⟩ | ⟨f, frame, _, _, hf, hframe, hb⟩
  · rw [Frames.get?_eq_none hn]
    exact ⟨nofun, fun ⟨f, hf, _⟩ => absurd hundefined hf.not_undefined⟩
  · rw [hb.get?, hframe.get?]
    exact ⟨fun hv => ⟨f, hf, hv⟩, fun ⟨g, hg, hv⟩ => hf.unique hg ▸ hv⟩

theorem get?_eq_none_iff :
    (Frames.after ops).get? n = none ↔ ∀ f ∈ live ops, ∀ i, ¬ Defines ops i f n := by
  rcases undefined_or_innermost ops n with ⟨hn, hundefined⟩ | ⟨f, frame, _, _, hf, hframe, hb⟩
  · exact iff_of_true (Frames.get?_eq_none hn) hundefined
  · obtain ⟨v, hv⟩ := hb.bound
    refine iff_of_false ?_ hf.not_undefined
    rw [hb.get?, hv]
    nofun

/-! ## Assignments -/

/-- An assignment to a name that no live frame has defined. -/
theorem perform_assign_of_undefined (h : ∀ f ∈ live ops, ∀ i, ¬ Defines ops i f n) :
    (Frames.after ops).perform (.assign n v) = (.assigned false, Frames.after ops) := by
  rcases undefined_or_innermost ops n with ⟨hn, -⟩ | ⟨f, _, _, _, hf, -, -⟩
  · rw [Frames.perform, Frames.assign?_eq_none hn]
  · exact absurd h hf.not_undefined

/-- An assignment to a name that a live frame has defined. -/
theorem perform_assign (h : Innermost ops f n) : ∃ gs,
    (Frames.after ops).perform (.assign n v) = (.assigned true, gs) ∧
      gs.shape = (Frames.after ops).shape := by
  rcases undefined_or_innermost ops n with ⟨-, hundefined⟩ | ⟨_, _, _, _, -, -, hb⟩
  · exact absurd hundefined h.not_undefined
  · obtain ⟨gs, hassign, -⟩ := hb.assign? v
    rw [Frames.perform, hassign]
    exact ⟨gs, rfl, Frames.shape_assign? hassign⟩

/-- What an operation leaves alone keeps its value. -/
theorem valueIn_concat (hf : f ∈ live ops ↔ f ∈ live (ops ++ [op]))
    (hdefine : ¬ ((∃ v h, op = .define n v h) ∧ (live ops).head? = some f))
    (hassign : ¬ ((∃ v, op = .assign n v) ∧ Innermost ops f n)) :
    valueIn (ops ++ [op]) f n = valueIn ops f n := by
  refine Option.ext fun v => ?_
  rw [valueIn_eq_some_iff, valueIn_eq_some_iff, holds_concat hdefine hassign, hf]

/-- An assignment changes the value of its name in the innermost frame that has defined it, and
nothing else. -/
theorem valueIn_assign (hf : Innermost ops f n) : valueIn (ops ++ [.assign n v]) g m =
    if g = f ∧ m = n then some v else valueIn ops g m := by
  have hlive : live (ops ++ [.assign n v]) = live ops := live_concat ops (.assign n v)
  split
  next h =>
    obtain ⟨rfl, rfl⟩ := h
    exact valueIn_eq_some_iff.mpr ⟨hlive ▸ hf.mem, (holds_concat_assign hf).mpr rfl⟩
  next h =>
    refine valueIn_concat (by rw [hlive]) ?_ ?_
    · rintro ⟨⟨w, hn, hop⟩, -⟩
      cases hop
    · rintro ⟨⟨w, hop⟩, hg⟩
      cases hop
      exact h ⟨hg.unique hf, rfl⟩

/-! ## The number of frames -/

theorem depth_eq_length (fs : Frames V) : fs.depth = fs.toList.length := by
  rw [Frames.toList, List.length_append, List.length_singleton]
  rfl

/-- What an operation does to the number of frames. -/
theorem depth_perform (fs : Frames V) (op : FrameOp V) :
    (fs.perform op).2.depth + (if (fs.perform op).1.isPopped then 1 else 0) =
      fs.depth + (if op.isPush then 1 else 0) := by
  cases op with
  | push name => rfl
  | pop =>
    rcases fs.toList_pop? with ⟨hpop, -⟩ | ⟨frame, gs, hpop, hlist⟩
    · rw [Frames.perform, hpop]
      rfl
    · rw [Frames.perform, hpop, depth_eq_length fs, hlist, depth_eq_length]
      rfl
  | define name value hn =>
    obtain ⟨frame, rest, gs, hdefine, hlist, hgs⟩ := fs.toList_define? value hn
    rw [Frames.perform, hdefine, depth_eq_length fs, hlist, depth_eq_length, hgs]
    rfl
  | assign name value =>
    rw [Frames.perform]
    cases hassign : fs.assign? name value with
    | none => rfl
    | some gs =>
      rw [← Frames.length_shape fs, ← Frames.shape_assign? hassign, Frames.length_shape]
      rfl
  | get name => rfl

/-- There are as many frames as were pushed and not taken off, and the global one. -/
theorem depth_after_eq (ops : List (FrameOp V)) :
    (Frames.after ops).depth + (Frames.answers .new ops).countP FrameAnswer.isPopped =
      1 + ops.countP FrameOp.isPush := by
  induction ops using List.reverseRecOn with
  | nil => rfl
  | append_singleton ops op ih =>
    have hstep := depth_perform (Frames.after ops) op
    rw [Frames.after_concat, Frames.answers_concat, List.countP_append, List.countP_append,
      List.countP_singleton, List.countP_singleton]
    change _ + (_ + if ((Frames.after ops).perform op).1.isPopped then 1 else 0) = _
    omega

/-- The last frame stays. -/
theorem perform_pop_of_one {fs : Frames V} (h : fs.depth = 1) :
    fs.perform .pop = (.refused, fs) := by
  rcases fs.toList_pop? with ⟨hpop, -⟩ | ⟨frame, gs, -, hlist⟩
  · rw [Frames.perform, hpop]
  · rw [depth_eq_length, hlist] at h
    obtain ⟨inner, globals⟩ := gs
    cases inner <;> cases h

/-- Any other frame comes off the top. -/
theorem perform_pop {fs : Frames V} (h : 1 < fs.depth) :
    ∃ frame gs, fs.perform .pop = (.popped frame, gs) ∧ fs.toList = frame :: gs.toList := by
  rcases fs.toList_pop? with ⟨-, hlist⟩ | ⟨frame, gs, hpop, hlist⟩
  · rw [depth_eq_length, hlist] at h
    exact absurd h (Nat.lt_irrefl 1)
  · refine ⟨frame, gs, ?_, hlist⟩
    rw [Frames.perform, hpop]

/-! ## Between a push and its pop -/

theorem take_succ_eq (h : ops[i]? = some op) : ops.take (i + 1) = ops.take i ++ [op] := by
  rw [List.take_add_one, h]
  rfl

theorem length_take_of_getElem? (h : ops[i]? = some op) : (ops.take i).length = i :=
  List.length_take_of_le (Nat.le_of_lt (lt_of_getElem? h))

/-- What is on the stack after one more operation was there before, or was pushed by it. -/
theorem mem_live_take_succ (h : f ∈ live (ops.take (k + 1))) :
    f = .pushed k ∨ f ∈ live (ops.take k) := by
  cases hop : ops[k]? with
  | none =>
    rw [List.take_add_one, hop] at h
    exact .inr (by rwa [Option.toList_none, List.append_nil] at h)
  | some op =>
    rw [take_succ_eq hop, live_concat, length_take_of_getElem? hop] at h
    exact mem_nextLive h

/-- A frame that is on the stack has been there since its push. -/
theorem pushed_mem_live_of_le (h : .pushed i ∈ live (ops.take b)) (hia : i < a) (hab : a ≤ b) :
    .pushed i ∈ live (ops.take a) := by
  induction hab with
  | refl => exact h
  | step hab ih =>
    rcases mem_live_take_succ h with heq | h
    · exact absurd (FrameId.pushed.inj heq) (Nat.ne_of_lt (Nat.lt_of_lt_of_le hia hab))
    · exact ih h

theorem not_pushed_mem_live_take (ops : List (FrameOp V)) (i : Nat) :
    .pushed i ∉ live (ops.take i) := by
  intro h
  have hlt := lt_of_mem_live h
  rw [List.length_take] at hlt
  omega

/-- Below a frame that is on the stack stand the frames that were there when it was pushed. -/
theorem live_of_pushed_mem (h : .pushed i ∈ live (ops.take k)) (hik : i < k) :
    ∃ above, live (ops.take k) = above ++ .pushed i :: live (ops.take i) := by
  induction k with
  | zero => exact absurd hik (Nat.not_lt_zero i)
  | succ k ih =>
    -- Only the push itself can be the operation at its place.
    have hlater : .pushed i ∈ live (ops.take k) → i < k := fun hmem =>
      Nat.lt_of_le_of_ne (Nat.le_of_lt_succ hik)
        fun heq => not_pushed_mem_live_take ops k (heq ▸ hmem)
    cases hop : ops[k]? with
    | none =>
      rw [List.take_add_one, hop, Option.toList_none, List.append_nil] at h ⊢
      exact ih h (hlater h)
    | some op =>
      rw [take_succ_eq hop, live_concat, length_take_of_getElem? hop] at h ⊢
      unfold nextLive at h ⊢
      split at h
      · rcases List.mem_cons.mp h with heq | h
        · obtain rfl := FrameId.pushed.inj heq
          exact ⟨[], rfl⟩
        · obtain ⟨above, habove⟩ := ih h (hlater h)
          exact ⟨.pushed k :: above, congrArg _ habove⟩
      · rename_i x below rest hlive
        have hmem : .pushed i ∈ live (ops.take k) := hlive ▸ List.mem_cons_of_mem _ h
        obtain ⟨above, habove⟩ := ih hmem (hlater hmem)
        rw [hlive] at habove
        obtain ⟨rfl, hrest⟩ | ⟨above, rfl, hrest⟩ := List.cons_eq_append_iff.mp habove
        · have hbelow : live (ops.take i) = below :: rest := (List.cons.inj hrest).2
          exact absurd (hbelow ▸ h) (not_pushed_mem_live_take ops i)
        · exact ⟨above, hrest⟩
      · exact ih h (hlater h)

theorem Matches.pushed_mem (h : Matches ops i k) : .pushed i ∈ live (ops.take k) :=
  List.mem_of_mem_head? h.current

/-- In the meantime the frame stands above those that were there before. -/
theorem Matches.inside (h : Matches ops i k) (hia : i < a) (hak : a ≤ k) :
    ∃ above, live (ops.take a) = above ++ .pushed i :: live (ops.take i) :=
  live_of_pushed_mem (pushed_mem_live_of_le h.pushed_mem hia hak) hia

/-- After the pop the same frames are on the stack as before the push. -/
theorem Matches.closing (h : Matches ops i k) : live (ops.take (k + 1)) = live (ops.take i) := by
  obtain ⟨above, habove⟩ := h.inside h.later (Nat.le_refl k)
  have hcurrent := h.current
  have hnodup := live_nodup (ops.take k)
  rw [habove] at hcurrent hnodup
  cases above with
  | nil =>
    rw [take_succ_eq h.pop, live_concat, habove]
    cases hlive : live (ops.take i) with
    | nil => exact absurd hlive (live_ne_nil _)
    | cons below rest => rfl
  | cons x above =>
    obtain rfl := Option.some.inj hcurrent
    exact absurd (List.mem_append_right _ (List.mem_cons_self ..)) (List.nodup_cons.mp hnodup).1

/-- The frames below stay on the stack, -/
theorem Matches.mem_live (h : Matches ops i k) (hf : f ∈ live (ops.take i)) (hia : i ≤ a)
    (hak : a ≤ k + 1) : f ∈ live (ops.take a) := by
  rcases Nat.eq_or_lt_of_le hia with rfl | hia
  · exact hf
  rcases Nat.eq_or_lt_of_le hak with rfl | hak
  · exact h.closing ▸ hf
  · obtain ⟨above, habove⟩ := h.inside hia (Nat.le_of_lt_succ hak)
    rw [habove]
    exact List.mem_append_right _ (List.mem_cons_of_mem _ hf)

/-- and none of them is the current one. -/
theorem Matches.not_current (h : Matches ops i k) (hf : f ∈ live (ops.take i)) (hia : i < a)
    (hak : a ≤ k) : (live (ops.take a)).head? ≠ some f := by
  obtain ⟨above, habove⟩ := h.inside hia hak
  have hnodup := live_nodup (ops.take a)
  rw [habove] at hnodup ⊢
  intro hhead
  cases above with
  | nil =>
    obtain rfl := Option.some.inj hhead
    exact (List.nodup_cons.mp hnodup).1 hf
  | cons x above =>
    obtain rfl := Option.some.inj hhead
    exact (List.nodup_cons.mp hnodup).1
      (List.mem_append_right _ (List.mem_cons_of_mem _ hf))

/-- An operation in between leaves a value in a frame below, unless it is an assignment to a name
that no frame above has defined. -/
theorem Matches.step (h : Matches ops i k) (hf : f ∈ live (ops.take i)) (hij : i ≤ j)
    (hjk : j ≤ k) :
    valueIn (ops.take (j + 1)) f n = valueIn (ops.take j) f n ∨
      ∃ v w, ops[j]? = some (.assign n v) ∧ Innermost (ops.take j) f n ∧
        valueIn (ops.take j) f n = some w ∧ valueIn (ops.take (j + 1)) f n = some v := by
  have hlength : j < ops.length := Nat.lt_of_le_of_lt hjk (lt_of_getElem? h.pop)
  have hop : ops[j]? = some ops[j] := List.getElem?_eq_getElem hlength
  have hmem := h.mem_live hf hij (Nat.le_succ_of_le hjk)
  have hmem' := h.mem_live hf (Nat.le_succ_of_le hij) (Nat.succ_le_succ hjk)
  rw [take_succ_eq hop] at hmem' ⊢
  by_cases hassign : (∃ v, ops[j] = .assign n v) ∧ Innermost (ops.take j) f n
  · obtain ⟨⟨v, hv⟩, hinner⟩ := hassign
    obtain ⟨w, hw⟩ := exists_holds_iff.mpr hinner.defines
    rw [hv] at hop ⊢
    refine .inr ⟨v, w, hop, hinner, valueIn_eq_some_iff.mpr ⟨hmem, hw⟩, ?_⟩
    rw [valueIn_assign hinner, if_pos ⟨rfl, rfl⟩]
  · refine .inl (valueIn_concat (iff_of_true hmem hmem') ?_ hassign)
    rintro ⟨⟨v, hn, hdefine⟩, hhead⟩
    rcases Nat.eq_or_lt_of_le hij with rfl | hij
    · obtain ⟨name, hpush⟩ := h.push
      rw [hop, hdefine] at hpush
      cases hpush
    · exact h.not_current hf hij hjk hhead

/-- The frames below define the same names at all moments in between, and a value changes only
through an assignment to a name that no frame above has defined. -/
theorem Matches.unchanged (h : Matches ops i k) (hf : f ∈ live (ops.take i)) (hia : i ≤ a)
    (hab : a ≤ b) (hbk : b ≤ k + 1) (n : Text) :
    (valueIn (ops.take b) f n).isSome = (valueIn (ops.take a) f n).isSome ∧
      (valueIn (ops.take b) f n ≠ valueIn (ops.take a) f n →
        ∃ j v, a ≤ j ∧ j < b ∧ ops[j]? = some (.assign n v) ∧ Innermost (ops.take j) f n) := by
  induction hab with
  | refl => exact ⟨rfl, fun hne => absurd rfl hne⟩
  | @step b hab ih =>
    obtain ⟨hsome, hvalue⟩ := ih (Nat.le_of_succ_le hbk)
    rcases h.step (n := n) hf (Nat.le_trans hia hab) (Nat.le_of_succ_le_succ hbk) with
      heq | ⟨v, w, hop, hinner, hw, hv⟩
    · rw [heq]
      refine ⟨hsome, fun hne => ?_⟩
      obtain ⟨j, v, haj, hjb, hj⟩ := hvalue hne
      exact ⟨j, v, haj, Nat.lt_succ_of_lt hjb, hj⟩
    · refine ⟨?_, fun _ => ⟨b, v, hab, Nat.lt_succ_self b, hop, hinner⟩⟩
      rw [← hsome, hw, hv]
      rfl

/-- A pop that succeeds takes off a frame that was pushed. -/
theorem exists_matches (hop : ops[k]? = some .pop) (h : 1 < (Frames.after (ops.take k)).depth) :
    ∃ i, Matches ops i k := by
  have hlast := live_getLast? (ops.take k)
  have hnodup := live_nodup (ops.take k)
  rw [depth_eq_length, ← length_live] at h
  match hlive : live (ops.take k), h with
  | .global :: below :: rest, _ =>
    rw [hlive, List.getLast?_cons_cons] at hlast
    rw [hlive] at hnodup
    exact absurd (List.mem_of_getLast? hlast) (List.nodup_cons.mp hnodup).1
  | .pushed i :: below :: rest, _ =>
    have hhead : (live (ops.take k)).head? = some (.pushed i) := congrArg List.head? hlive
    have hmem := List.mem_of_mem_head? hhead
    have hlt := lt_of_mem_live hmem
    rw [length_take_of_getElem? hop] at hlt
    obtain ⟨frame, -, hframe⟩ := exists_frameOf hmem
    refine ⟨i, ⟨⟨frame.name, ?_⟩, hop, hlt, hhead⟩⟩
    rw [← List.getElem?_take_of_lt hlt]
    exact hframe.named

/-! ## The laws -/

/-- What holds of the frames after a history. -/
structure Lawful (ops : List (FrameOp V)) : Prop where
  /-- The frames on the stack are those that the history says. -/
  stack : (live ops).map (frameOf ops) = (Frames.after ops).toList.map some
  /-- Each has the name that it was pushed with. -/
  named : ∀ f frame, frameOf ops f = some frame → Named ops f frame.name
  /-- The one at the bottom is the original global frame. -/
  bottom : (live ops).getLast? = some .global ∧
    frameOf ops .global = some (Frames.after ops).globals
  /-- There are one frame and as many as were pushed, less those that were taken off. -/
  depth : (Frames.after ops).depth + (Frames.answers .new ops).countP FrameAnswer.isPopped =
    1 + ops.countP FrameOp.isPush
  /-- The last frame cannot be taken off, -/
  popLast : (Frames.after ops).depth = 1 →
    (Frames.after ops).perform .pop = (.refused, Frames.after ops)
  /-- any other one comes off the top. -/
  pop : 1 < (Frames.after ops).depth → ∃ frame gs,
    (Frames.after ops).perform .pop = (.popped frame, gs) ∧
      (Frames.after ops).toList = frame :: gs.toList
  /-- A look-up gives the value of the latest operation among the last definition of the name, in
  the innermost live frame that has defined it, and the later assignments that resolved to this
  definition. -/
  get : ∀ n v, (Frames.after ops).perform (.get n) = (.found (some v), Frames.after ops) ↔
    ∃ f i j, Innermost ops f n ∧ LastDefine ops i f n ∧ LastGives ops i j n v
  /-- It gives nothing if no live frame has defined the name. -/
  getNone : ∀ n, (Frames.after ops).perform (.get n) = (.found none, Frames.after ops) ↔
    ∀ f ∈ live ops, ∀ i, ¬ Defines ops i f n
  /-- An assignment does nothing if no live frame has defined the name, -/
  assignNone : ∀ n v, (∀ f ∈ live ops, ∀ i, ¬ Defines ops i f n) →
    (Frames.after ops).perform (.assign n v) = (.assigned false, Frames.after ops)
  /-- and else it changes the value in the innermost frame that has, and nothing besides. -/
  assign : ∀ n v f, Innermost ops f n →
    (∃ gs, (Frames.after ops).perform (.assign n v) = (.assigned true, gs) ∧
      gs.shape = (Frames.after ops).shape) ∧
    ∀ g m, valueIn (ops ++ [.assign n v]) g m =
      if g = f ∧ m = n then some v else valueIn ops g m
  /-- A pop that succeeds belongs to a push. -/
  matched : ∀ k, ops[k]? = some .pop → 1 < (Frames.after (ops.take k)).depth →
    ∃ i, Matches ops i k
  /-- After it the frames from before the push are on the stack. At all moments in between they are
  there too and define the same names, and their values change only through assignments to names
  that no frame above has defined at that moment. -/
  stretch : ∀ i k, Matches ops i k → live (ops.take (k + 1)) = live (ops.take i) ∧
    ∀ f ∈ live (ops.take i), ∀ a b, i ≤ a → a ≤ b → b ≤ k + 1 → f ∈ live (ops.take b) ∧
      ∀ n, (valueIn (ops.take b) f n).isSome = (valueIn (ops.take a) f n).isSome ∧
        (valueIn (ops.take b) f n ≠ valueIn (ops.take a) f n →
          ∃ j v, a ≤ j ∧ j < b ∧ ops[j]? = some (.assign n v) ∧ Innermost (ops.take j) f n)

theorem perform_get_iff {fs : Frames V} {r : Option V} :
    fs.perform (.get n) = (.found r, fs) ↔ fs.get? n = r := by
  rw [Frames.perform, Prod.mk.injEq, FrameAnswer.found.injEq]
  exact and_iff_left rfl

theorem perform_get_some_iff :
    (Frames.after ops).perform (.get n) = (.found (some v), Frames.after ops) ↔
      ∃ f i j, Innermost ops f n ∧ LastDefine ops i f n ∧ LastGives ops i j n v := by
  rw [perform_get_iff, get?_eq_some_iff]
  refine exists_congr fun f => ?_
  simp only [Holds, exists_and_left]

theorem named_of_frameOf {frame : Frame V} (h : frameOf ops f = some frame) :
    Named ops f frame.name := by
  by_cases hf : f ∈ live ops
  · obtain ⟨frame', hframe, hdescribed⟩ := exists_frameOf hf
    obtain rfl := Option.some.inj (h.symm.trans hframe)
    exact hdescribed.named
  · rw [frameOf_eq_none hf] at h
    cases h

/-- **Every history obeys the laws of frames.** -/
theorem frames_lawful (ops : List (FrameOp V)) : Lawful ops where
  stack := map_frameOf ops
  named _ _ := named_of_frameOf
  bottom := ⟨live_getLast? ops, frameOf_global ops⟩
  depth := depth_after_eq ops
  popLast := perform_pop_of_one
  pop := perform_pop
  get _ _ := perform_get_some_iff
  getNone _ := perform_get_iff.trans get?_eq_none_iff
  assignNone _ _ := perform_assign_of_undefined
  assign _ _ _ hf := ⟨perform_assign hf, fun _ _ => valueIn_assign hf⟩
  matched _ := exists_matches
  stretch _ _ h := ⟨h.closing, fun _ hf _ _ hia hab hbk =>
    ⟨h.mem_live hf (Nat.le_trans hia hab) hbk, h.unchanged hf hia hab hbk⟩⟩

/-- An assignment to an outer frame, and a definition that hides the name until a pop. -/
def hidden : List (FrameOp Nat) :=
  [.define "a" 1 (by decide), .push "f", .assign "a" 2, .define "a" 3 (by decide), .pop]

theorem frames_lawful_hidden :
    Matches hidden 1 4 ∧ live (hidden.take 5) = live (hidden.take 1) ∧
      valueIn (hidden.take 5) .global "a" ≠ valueIn (hidden.take 1) .global "a" ∧
      ∃ j v, 1 ≤ j ∧ j < 5 ∧ hidden[j]? = some (.assign "a" v) ∧
        Innermost (hidden.take j) .global "a" := by
  have hmatches : Matches hidden 1 4 := ⟨⟨"f", rfl⟩, rfl, by decide, rfl⟩
  have hchanged : valueIn (hidden.take 5) .global "a" ≠ valueIn (hidden.take 1) .global "a" := by
    decide
  obtain ⟨hlive, houter⟩ := (frames_lawful hidden).stretch 1 4 hmatches
  have hglobal := houter .global (by decide) 1 5 (by decide) (by decide) (by decide)
  exact ⟨hmatches, hlive, hchanged, (hglobal.2 "a").2 hchanged⟩

end FrameHistory

end Dynascope
