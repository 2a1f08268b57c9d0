/-!
# How computations end

The parser and the evaluator are computations with a state that ends success and failure alike.

* `ok_bind`, `error_bind`, `get_bind_apply`: two computations one after the other.
* `finalState`: the state in which a computation ends.
* `Along R act`: from every state, `act` leads to a state that `R` relates to it, however it ends.
  For a relation that is reflexive and transitive, the rules (`Along.pure`, `Along.bind` and so on)
  follow the structure of a computation.
* `Ends act s Q E`: run from `s`, `act` succeeds with a result and a state of `Q`, or it fails with
  an error and a state of `E`.
-/

namespace Dynascope

variable {ε σ α β : Type}

theorem ok_bind {act : EStateM ε σ α} {f : α → EStateM ε σ β} {s t : σ} {a : α}
    (h : act s = .ok a t) : (act >>= f) s = f a t := by
  simp only [bind, EStateM.bind, h]

theorem error_bind {act : EStateM ε σ α} {f : α → EStateM ε σ β} {s t : σ} {e : ε}
    (h : act s = .error e t) : (act >>= f) s = .error e t := by
  simp only [bind, EStateM.bind, h]

/-- The state is read first. -/
theorem get_bind_apply (f : σ → EStateM ε σ β) (s : σ) : (MonadState.get >>= f) s = f s s :=
  rfl

theorem bind_congr_first {act act' : EStateM ε σ α} {s : σ} (h : act s = act' s)
    (f : α → EStateM ε σ β) : (act >>= f) s = (act' >>= f) s := by
  simp only [bind, EStateM.bind, h]

theorem ok_of_run' {act : EStateM ε σ α} {s : σ} {a : α} (h : act.run' s = some a) :
    ∃ t, act s = .ok a t := by
  delta EStateM.run' EStateM.run at h
  split at h
  next b t hb =>
    cases h
    exact ⟨t, hb⟩
  next => cases h

/-- The state in which a computation ends. -/
def finalState : EStateM.Result ε σ α → σ
  | .ok _ s => s
  | .error _ s => s

/-- However `act` ends, `R` relates the state before it to the state after it. -/
def Along (R : σ → σ → Prop) (act : EStateM ε σ α) : Prop :=
  ∀ s, R s (finalState (act s))

namespace Along

variable {R S : σ → σ → Prop} {act : EStateM ε σ α}

theorem mono (h : Along R act) (hRS : ∀ s t, R s t → S s t) : Along S act :=
  fun s => hRS _ _ (h s)

/-- A computation that does not change the state. -/
theorem of_same [Std.Refl R] (h : ∀ s, finalState (act s) = s) : Along R act := by
  intro s
  rw [h s]
  exact Std.Refl.refl s

theorem pure [Std.Refl R] (a : α) : Along R (Pure.pure a : EStateM ε σ α) :=
  of_same fun _ => rfl

theorem throw [Std.Refl R] (e : ε) : Along R (MonadExcept.throw e : EStateM ε σ α) :=
  of_same fun _ => rfl

theorem bind [Trans R R R] {f : α → EStateM ε σ β} (h : Along R act) (hf : ∀ a, Along R (f a)) :
    Along R (act >>= f) := by
  intro s
  have hs := h s
  show R s (finalState (match act s with | .ok a t => f a t | .error e t => .error e t))
  cases hr : act s with
  | ok a t =>
    rw [hr] at hs
    exact Trans.trans hs (hf a t)
  | error e t =>
    rw [hr] at hs
    exact hs

/-- The state is read first. -/
theorem get_bind [Std.Refl R] [Trans R R R] {f : σ → EStateM ε σ β} (hf : ∀ s, Along R (f s)) :
    Along R (MonadState.get >>= f) :=
  bind (of_same fun _ => rfl) hf

end Along

/-- `act`, run from `s`, succeeds with a result and a state of `Q` or fails with an error and a
state of `E`. -/
def Ends (act : EStateM ε σ α) (s : σ) (Q : α → σ → Prop) (E : ε → σ → Prop) : Prop :=
  match act s with
  | .ok a t => Q a t
  | .error e t => E e t

namespace Ends

variable {act : EStateM ε σ α} {s : σ} {Q Q' : α → σ → Prop} {E E' : ε → σ → Prop}

theorem imp (h : Ends act s Q E) (hQ : ∀ a t, Q a t → Q' a t) (hE : ∀ e t, E e t → E' e t) :
    Ends act s Q' E' := by
  unfold Ends at h ⊢
  cases hr : act s with
  | ok a t => rw [hr] at h; exact hQ a t h
  | error e t => rw [hr] at h; exact hE e t h

/-- Every computation ends. -/
theorem any (act : EStateM ε σ α) (s : σ) : Ends act s (fun _ _ => True) fun _ _ => True := by
  unfold Ends
  split <;> trivial

theorem bind {f : α → EStateM ε σ β} {P : β → σ → Prop} (h : Ends act s Q E)
    (hf : ∀ a t, Q a t → Ends (f a) t P E) : Ends (act >>= f) s P E := by
  show (match (match act s with | .ok a t => f a t | .error e t => .error e t) with
    | .ok b t => P b t | .error e t => E e t)
  unfold Ends at h
  cases hr : act s with
  | ok a t => rw [hr] at h; exact hf a t h
  | error e t => rw [hr] at h; exact h

/-- Whatever the first computation does. -/
theorem skip {f : α → EStateM ε σ β} {P : β → σ → Prop}
    (hf : ∀ a t, Ends (f a) t P fun _ _ => True) : Ends (act >>= f) s P fun _ _ => True :=
  bind (any act s) fun a t _ => hf a t

/-- The state is read first. -/
theorem get_bind {f : σ → EStateM ε σ β} {P : β → σ → Prop} (h : Ends (f s) s P E) :
    Ends (MonadState.get >>= f) s P E :=
  h

end Ends

end Dynascope
