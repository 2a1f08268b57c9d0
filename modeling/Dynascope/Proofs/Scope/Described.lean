import Dynascope.Proofs.Scope.Contents
import Dynascope.Proofs.Scope.Histories
import Mathlib.Data.List.Forall2
import Mathlib.Data.List.Nodup

/-!
# The frames after a history

The frames on the stack are those that the history says, in its order, each with the name that it
was pushed with and the values that the history gives to the names defined there.

* `Frames.toList_pop?`, `Frames.toList_define?`, `Frames.toList_assign?`: which frame an operation
  changes.
* `FrameHistory.Described`: a frame is as the history says.
* `FrameHistory.forall₂_described`: so are all frames on the stack.
-/

namespace Dynascope

variable {V : Type}

namespace Frames

variable {name : Text}

/-- A pop takes the first frame off, if there is another one. -/
theorem toList_pop? (fs : Frames V) : fs.pop? = none ∧ fs.toList = [fs.globals] ∨
    ∃ frame gs, fs.pop? = some (frame, gs) ∧ fs.toList = frame :: gs.toList := by
  obtain ⟨inner, globals⟩ := fs
  cases inner with
  | nil => exact .inl ⟨rfl, rfl⟩
  | cons frame rest => exact .inr ⟨frame, _, rfl, rfl⟩

/-- A definition changes the first frame. -/
theorem toList_define? (fs : Frames V) (value : V) (h : name ≠ []) :
    ∃ frame rest gs, fs.define? name value = some gs ∧ fs.toList = frame :: rest ∧
      gs.toList = frame.set name value :: rest := by
  obtain ⟨inner, globals⟩ := fs
  have hempty : ¬ name.isEmpty = true := by simpa using h
  unfold define?
  rw [if_neg hempty]
  cases inner with
  | nil => exact ⟨_, _, _, rfl, rfl, rfl⟩
  | cons frame rest => exact ⟨_, _, _, rfl, rfl, rfl⟩

/-- The frame that binds a name first, with the frames above and below it. -/
structure FirstBinding (frames : List (Frame V)) (name : Text) (above : List (Frame V))
    (frame : Frame V) (below : List (Frame V)) : Prop where
  split : frames = above ++ frame :: below
  unbound : ∀ g ∈ above, g.vars.get? name = none
  bound : ∃ v, frame.vars.get? name = some v

theorem FirstBinding.cons {frames above below : List (Frame V)} {frame g : Frame V}
    (h : FirstBinding frames name above frame below) (hg : g.vars.get? name = none) :
    FirstBinding (g :: frames) name (g :: above) frame below :=
  ⟨congrArg _ h.split, List.forall_mem_cons.mpr ⟨hg, h.unbound⟩, h.bound⟩

/-- A search among frames ends at the first one that binds the name. -/
theorem exists_firstBinding (frames : List (Frame V)) (name : Text) :
    (∀ g ∈ frames, g.vars.get? name = none) ∨
      ∃ above frame below, FirstBinding frames name above frame below := by
  induction frames with
  | nil => exact .inl nofun
  | cons g rest ih =>
    cases hg : g.vars.get? name with
    | some v => exact .inr ⟨[], g, rest, rfl, nofun, v, hg⟩
    | none =>
      rcases ih with ih | ⟨above, frame, below, ih⟩
      · exact .inl (List.forall_mem_cons.mpr ⟨hg, ih⟩)
      · exact .inr ⟨g :: above, frame, below, ih.cons hg⟩

theorem get?_eq_none {fs : Frames V} (h : ∀ g ∈ fs.toList, g.vars.get? name = none) :
    fs.get? name = none :=
  List.findSome?_eq_none_iff.mpr h

theorem FirstBinding.get? {fs : Frames V} {above below : List (Frame V)} {frame : Frame V}
    (h : FirstBinding fs.toList name above frame below) : fs.get? name = frame.vars.get? name := by
  obtain ⟨v, hv⟩ := h.bound
  rw [hv]
  exact List.findSome?_eq_some_iff.mpr ⟨above, frame, below, h.split, hv, h.unbound⟩

/-- An assignment passes by a frame that does not bind the name. -/
theorem assign?_cons {g globals : Frame V} {rest : List (Frame V)} {value : V}
    (hg : g.vars.get? name = none) : assign? ⟨g :: rest, globals⟩ name value =
      (assign? ⟨rest, globals⟩ name value).map fun gs => { gs with inner := g :: gs.inner } := by
  have hcontains : ¬ g.vars.contains name = true := by simp [Bindings.contains, hg]
  have hinner : assignInner? name value (g :: rest) =
      (assignInner? name value rest).map (g :: ·) := if_neg hcontains
  simp only [assign?, hinner]
  cases assignInner? name value rest with
  | some rest => rfl
  | none =>
    simp only [Option.map_none]
    split <;> rfl

theorem assign?_eq_none {fs : Frames V} {value : V} (h : ∀ g ∈ fs.toList, g.vars.get? name = none) :
    fs.assign? name value = none := by
  obtain ⟨inner, globals⟩ := fs
  induction inner with
  | nil => simp [assign?, assignInner?, Bindings.contains, h globals (List.mem_singleton_self _)]
  | cons g rest ih =>
    obtain ⟨hg, hrest⟩ := List.forall_mem_cons.mp h
    rw [assign?_cons hg, ih hrest]
    rfl

/-- An assignment changes the frame that binds the name first. -/
theorem FirstBinding.assign? {fs : Frames V} {above below : List (Frame V)} {frame : Frame V}
    (h : FirstBinding fs.toList name above frame below) (value : V) :
    ∃ gs, fs.assign? name value = some gs ∧ gs.toList = above ++ frame.set name value :: below := by
  obtain ⟨inner, globals⟩ := fs
  have hcontains : frame.vars.contains name = true := Option.isSome_iff_exists.mpr h.bound
  induction inner generalizing above with
  | nil =>
    obtain ⟨rfl, hsplit⟩ | ⟨rest, rfl, hsplit⟩ := List.cons_eq_append_iff.mp h.split
    · obtain ⟨rfl, rfl⟩ := List.cons.inj hsplit
      exact ⟨_, by rw [Frames.assign?, assignInner?, if_pos hcontains], rfl⟩
    · cases rest <;> cases hsplit
  | cons g rest ih =>
    obtain ⟨rfl, hsplit⟩ | ⟨above, rfl, hsplit⟩ := List.cons_eq_append_iff.mp h.split
    · obtain ⟨rfl, rfl⟩ := List.cons.inj hsplit
      exact ⟨_, by rw [Frames.assign?, assignInner?, if_pos hcontains], rfl⟩
    · obtain ⟨hg, hunbound⟩ := List.forall_mem_cons.mp h.unbound
      obtain ⟨gs, hgs, hlist⟩ := ih ⟨hsplit, hunbound, h.bound⟩
      refine ⟨{ gs with inner := g :: gs.inner }, ?_, congrArg _ hlist⟩
      rw [assign?_cons hg, hgs]
      rfl

end Frames

namespace FrameHistory

variable {ops : List (FrameOp V)} {op : FrameOp V} {f g : FrameId} {n m : Text} {v w : V}
  {i k : Nat} {frame : Frame V}

/-! ## Frames and names on the stack -/

/-- No frame is on the stack twice. -/
theorem live_nodup (ops : List (FrameOp V)) : (live ops).Nodup := by
  induction ops using List.reverseRecOn with
  | nil => exact List.nodup_singleton _
  | append_singleton ops op ih =>
    rw [live_concat]
    unfold nextLive
    split
    · exact List.nodup_cons.mpr ⟨fun h => Nat.lt_irrefl _ (lt_of_mem_live h), ih⟩
    · rename_i h
      rw [h] at ih
      exact ih.of_cons
    · exact ih

/-- The name is found in one frame only. -/
theorem Innermost.unique (hf : Innermost ops f n) (hg : Innermost ops g n) : f = g := by
  obtain ⟨above, below, hsplit, habove, i, hi⟩ := hf
  obtain ⟨above', below', hsplit', habove', j, hj⟩ := hg
  rcases List.append_eq_append_iff.mp (hsplit.symm.trans hsplit') with
    ⟨rest, rfl, hrest⟩ | ⟨rest, rfl, hrest⟩
  · cases rest with
    | nil => exact (List.cons.inj hrest).1
    | cons x rest =>
      obtain ⟨rfl, -⟩ := List.cons.inj hrest
      exact absurd hi (habove' f (by simp) i)
  · cases rest with
    | nil => exact (List.cons.inj hrest).1.symm
    | cons x rest =>
      obtain ⟨rfl, -⟩ := List.cons.inj hrest
      exact absurd hj (habove g (by simp) j)

theorem Innermost.defines (hf : Innermost ops f n) : ∃ i, Defines ops i f n := by
  obtain ⟨above, below, -, -, hdef⟩ := hf
  exact hdef

theorem Innermost.mem (hf : Innermost ops f n) : f ∈ live ops := by
  obtain ⟨above, below, hsplit, -⟩ := hf
  rw [hsplit]
  exact List.mem_append_right _ (List.mem_cons_self ..)

/-- A frame that has defined a name has a value for it. -/
theorem exists_holds_iff : (∃ v, Holds ops f n v) ↔ ∃ i, Defines ops i f n := by
  constructor
  · rintro ⟨v, i, j, hi, -⟩
    exact ⟨i, hi.1⟩
  · intro h
    induction ops using List.reverseRecOn with
    | nil =>
      obtain ⟨i, h⟩ := h
      exact absurd h.lt (Nat.not_lt_zero i)
    | append_singleton ops op ih =>
      by_cases hdefine : (∃ v h, op = .define n v h) ∧ (live ops).head? = some f
      · obtain ⟨⟨v, hn, rfl⟩, hf⟩ := hdefine
        exact ⟨v, (holds_concat_define hf).mpr rfl⟩
      by_cases hassign : (∃ v, op = .assign n v) ∧ Innermost ops f n
      · obtain ⟨⟨v, rfl⟩, hf⟩ := hassign
        exact ⟨v, (holds_concat_assign hf).mpr rfl⟩
      · simp only [holds_concat hdefine hassign]
        obtain ⟨i, hi⟩ := h
        exact ih ⟨i, (defines_concat.mp hi).resolve_right fun hc => hdefine hc.2⟩

/-- The frame has the name: that of its push. -/
def Named (ops : List (FrameOp V)) : FrameId → Text → Prop
  | .global, name => name = "global"
  | .pushed i, name => ops[i]? = some (.push name)

/-- The frame has the name and the variables that it should have after a history. -/
structure Described (ops : List (FrameOp V)) (f : FrameId) (frame : Frame V) : Prop where
  named : Named ops f frame.name
  get? : ∀ n v, frame.vars.get? n = some v ↔ Holds ops f n v

/-! ## One more operation -/

theorem Named.concat {name : Text} (h : Named ops f name) : Named (ops ++ [op]) f name := by
  cases f with
  | global => exact h
  | pushed i => exact getElem?_concat_eq_some.mpr (.inl h)

theorem Described.get?_eq_none (h : Described ops f frame) :
    frame.vars.get? n = none ↔ ∀ i, ¬ Defines ops i f n := by
  rw [Option.eq_none_iff_forall_ne_some]
  simp only [ne_eq, h.get?]
  rw [← not_exists, exists_holds_iff, not_exists]

theorem Described.exists_get? (h : Described ops f frame) :
    (∃ v, frame.vars.get? n = some v) ↔ ∃ i, Defines ops i f n := by
  simp only [h.get?]
  exact exists_holds_iff

/-- The operation gives no value to a name in the frame. -/
structure Spares (ops : List (FrameOp V)) (op : FrameOp V) (f : FrameId) : Prop where
  define : ∀ n v hn, op = .define n v hn → (live ops).head? ≠ some f
  assign : ∀ n v, op = .assign n v → ¬ Innermost ops f n

theorem Spares.assign_of (h : ¬ Innermost ops f n) : Spares ops (.assign n v) f where
  define := nofun
  assign m w hop := by
    cases hop
    exact h

theorem Spares.holds (h : Spares ops op f) : Holds (ops ++ [op]) f n v ↔ Holds ops f n v := by
  refine holds_concat ?_ ?_
  · rintro ⟨⟨v, hn, hop⟩, hf⟩
    exact h.define n v hn hop hf
  · rintro ⟨⟨v, hop⟩, hf⟩
    exact h.assign n v hop hf

theorem Described.spared (h : Described ops f frame) (hs : Spares ops op f) :
    Described (ops ++ [op]) f frame :=
  ⟨h.named.concat, fun n v => (h.get? n v).trans hs.holds.symm⟩

theorem forall₂_spared {fs : List FrameId} {frames : List (Frame V)}
    (h : List.Forall₂ (Described ops) fs frames) (hs : ∀ f ∈ fs, Spares ops op f) :
    List.Forall₂ (Described (ops ++ [op])) fs frames :=
  ((List.forall₂_and_left _ _).mpr ⟨hs, h⟩).imp fun _ _ h => h.2.spared h.1

/-- A frame with one more value. -/
theorem Described.set (h : Described ops f frame)
    (hnew : ∀ w, Holds (ops ++ [op]) f n w ↔ w = v)
    (hold : ∀ m w, m ≠ n → (Holds (ops ++ [op]) f m w ↔ Holds ops f m w)) :
    Described (ops ++ [op]) f (frame.set n v) := by
  refine ⟨h.named.concat, fun m w => ?_⟩
  rw [Frame.set, Bindings.get?_set]
  split
  next hm =>
    rw [hm, hnew, Option.some.injEq]
    exact eq_comm
  next hm => rw [hold m w hm, h.get?]

/-- The current frame after a definition. -/
theorem Described.define {hn : n ≠ []} (h : Described ops f frame)
    (hf : (live ops).head? = some f) :
    Described (ops ++ [.define n v hn]) f (frame.set n v) := by
  refine h.set (fun w => holds_concat_define hf) fun m w hm => holds_concat ?_ ?_
  · rintro ⟨⟨v, h, hop⟩, -⟩
    cases hop
    exact hm rfl
  · rintro ⟨⟨v, hop⟩, -⟩
    cases hop

/-- The innermost frame that has defined a name, after an assignment to it. -/
theorem Described.assign (h : Described ops f frame) (hf : Innermost ops f n) :
    Described (ops ++ [.assign n v]) f (frame.set n v) := by
  refine h.set (fun w => holds_concat_assign hf) fun m w hm => holds_concat ?_ ?_
  · rintro ⟨⟨v, h, hop⟩, -⟩
    cases hop
  · rintro ⟨⟨v, hop⟩, -⟩
    cases hop
    exact hm rfl

/-- A frame that was just pushed. -/
theorem described_push (ops : List (FrameOp V)) (name : Text) :
    Described (ops ++ [.push name]) (.pushed ops.length) (.empty name) := by
  refine ⟨List.getElem?_concat_length, fun n v => ⟨nofun, ?_⟩⟩
  -- What defines a name in it would stand before its push.
  rintro ⟨i, j, ⟨hi, -⟩, -⟩
  have hlt := lt_of_mem_live (List.mem_of_mem_head? hi.2)
  have hle := hi.le_length
  rw [List.length_take] at hlt
  omega

/-! ## The frame that a name is found in -/

/-- No frame has defined a name that no frame binds. -/
theorem undefined_of_unbound {fs : List FrameId} {frames : List (Frame V)}
    (h : List.Forall₂ (Described ops) fs frames) (hn : ∀ g ∈ frames, g.vars.get? n = none) :
    ∀ f ∈ fs, ∀ i, ¬ Defines ops i f n := by
  induction h with
  | nil => nofun
  | cons hf _ ih =>
    rw [List.forall_mem_cons] at hn ⊢
    exact ⟨hf.get?_eq_none.mp hn.1, ih hn.2⟩

/-- The frame that binds a name first is the innermost one that has defined it. -/
theorem exists_innermost {frames above below : List (Frame V)}
    (h : List.Forall₂ (Described ops) (live ops) frames)
    (hb : Frames.FirstBinding frames n above frame below) :
    ∃ fs f gs, live ops = fs ++ f :: gs ∧ List.Forall₂ (Described ops) fs above ∧
      Described ops f frame ∧ List.Forall₂ (Described ops) gs below ∧ Innermost ops f n := by
  rw [hb.split] at h
  have habove := List.forall₂_take_append _ _ _ h
  obtain ⟨f, gs, hf, hbelow, hdrop⟩ :=
    List.forall₂_cons_right_iff.mp (List.forall₂_drop_append _ _ _ h)
  have hsplit : live ops = (live ops).take above.length ++ f :: gs := by
    rw [← hdrop, List.take_append_drop]
  exact ⟨_, f, gs, hsplit, habove, hf, hbelow, _, gs, hsplit,
    undefined_of_unbound habove hb.unbound, hf.exists_get?.mp hb.bound⟩

/-! ## Every operation -/

theorem forall₂_pop {fs : Frames V} (h : List.Forall₂ (Described ops) (live ops) fs.toList) :
    List.Forall₂ (Described (ops ++ [.pop])) (nextLive ops.length (.pop : FrameOp V) (live ops))
      (fs.perform .pop).2.toList := by
  have hspares : ∀ f, Spares ops (.pop : FrameOp V) f := fun f => ⟨nofun, nofun⟩
  rcases fs.toList_pop? with ⟨hpop, hlist⟩ | ⟨frame, gs, hpop, hlist⟩
  · rw [Frames.perform, hpop]
    rw [hlist] at h ⊢
    obtain ⟨f, fs', -, hnil, hlive⟩ := List.forall₂_cons_right_iff.mp h
    obtain rfl := List.forall₂_nil_right_iff.mp hnil
    rw [hlive] at h ⊢
    exact forall₂_spared h fun f _ => hspares f
  · rw [Frames.perform, hpop]
    rw [hlist] at h
    obtain ⟨f, fs', -, hrest, hlive⟩ := List.forall₂_cons_right_iff.mp h
    cases fs' with
    | nil =>
      obtain ⟨inner, globals⟩ := gs
      cases inner <;> cases hrest
    | cons g fs' =>
      rw [hlive]
      exact forall₂_spared hrest fun f _ => hspares f

theorem forall₂_define {fs : Frames V} (hn : n ≠ [])
    (h : List.Forall₂ (Described ops) (live ops) fs.toList) :
    List.Forall₂ (Described (ops ++ [.define n v hn])) (live ops)
      (fs.perform (.define n v hn)).2.toList := by
  obtain ⟨frame, rest, gs, hdefine, hlist, hgs⟩ := fs.toList_define? v hn
  rw [Frames.perform, hdefine, hgs]
  rw [hlist] at h
  obtain ⟨f, fs', hf, hrest, hlive⟩ := List.forall₂_cons_right_iff.mp h
  have hhead : (live ops).head? = some f := congrArg List.head? hlive
  have hnodup := live_nodup ops
  rw [hlive] at hnodup ⊢
  refine .cons (hf.define hhead) (forall₂_spared hrest fun g hg => ⟨fun _ _ _ _ hg' => ?_, nofun⟩)
  obtain rfl := Option.some.inj (hhead.symm.trans hg')
  exact (List.nodup_cons.mp hnodup).1 hg

theorem forall₂_assign {fs : Frames V} (h : List.Forall₂ (Described ops) (live ops) fs.toList) :
    List.Forall₂ (Described (ops ++ [.assign n v])) (live ops)
      (fs.perform (.assign n v)).2.toList := by
  rcases Frames.exists_firstBinding fs.toList n with hn | ⟨above, frame, below, hb⟩
  · rw [Frames.perform, Frames.assign?_eq_none hn]
    exact forall₂_spared h fun f hf =>
      .assign_of fun hinner => hinner.defines.elim (undefined_of_unbound h hn f hf)
  · obtain ⟨fs', f, gs', hlive, habove, hf, hbelow, hinner⟩ := exists_innermost h hb
    obtain ⟨gs, hassign, hgs⟩ := hb.assign? v
    have hnodup := live_nodup ops
    rw [hlive, List.nodup_append] at hnodup
    obtain ⟨-, hbelow', habove'⟩ := hnodup
    rw [Frames.perform, hassign, hgs, hlive]
    refine List.rel_append (forall₂_spared habove fun g hg => .assign_of fun hg' => ?_)
      (.cons (hf.assign hinner) (forall₂_spared hbelow fun g hg => .assign_of fun hg' => ?_))
    · exact habove' g hg f (List.mem_cons_self ..) (hg'.unique hinner)
    · exact (List.nodup_cons.mp hbelow').1 (hg'.unique hinner ▸ hg)

/-- After every history the frames on the stack are as it says. -/
theorem forall₂_described (ops : List (FrameOp V)) :
    List.Forall₂ (Described ops) (live ops) (Frames.after ops).toList := by
  induction ops using List.reverseRecOn with
  | nil =>
    refine .cons ⟨rfl, fun n v => ⟨nofun, ?_⟩⟩ .nil
    rintro ⟨i, j, hi, -⟩
    exact absurd hi.1.lt (Nat.not_lt_zero i)
  | append_singleton ops op ih =>
    rw [live_concat, Frames.after_concat]
    cases op with
    | push name =>
      exact .cons (described_push ops name) (forall₂_spared ih fun f _ => ⟨nofun, nofun⟩)
    | pop => exact forall₂_pop ih
    | define n v hn => exact forall₂_define hn ih
    | assign n v => exact forall₂_assign ih
    | get n => exact forall₂_spared ih fun f _ => ⟨nofun, nofun⟩

end FrameHistory

end Dynascope
