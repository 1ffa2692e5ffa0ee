import Mathlib.Logic.Basic

/-!
# Computations that throw

In `Except` a computation returns or throws. In `EStateM` without backtracking it does so too, and either way it leaves a state
behind. The lemmas here run such computations one step at a time.
-/

namespace Throwing

variable {ε σ α β : Type}

/-- A step that returns a value passes it on. -/
theorem ok_bind (a : α) (f : α → Except ε β) : (Except.ok a >>= f) = f a := rfl

/-- After a step that throws nothing runs. -/
theorem error_bind (e : ε) (f : α → Except ε β) : (Except.error e >>= f) = .error e := rfl

/-- Another name for the exceptions changes no value. -/
theorem mapError_ok {ε' : Type} (f : ε → ε') (a : α) : (Except.ok a : Except ε α).mapError f = .ok a := rfl

theorem mapError_error {ε' : Type} (f : ε → ε') (e : ε) : (Except.error e : Except ε α).mapError f = .error (f e) := rfl

theorem mapError_eq_ok_iff {ε' : Type} {f : ε → ε'} {x : Except ε α} {a : α} : x.mapError f = .ok a ↔ x = .ok a := by
  cases x with
  | error e => exact ⟨nofun, nofun⟩
  | ok b => exact ⟨fun h => congrArg Except.ok (Except.ok.inj h), fun h => congrArg Except.ok (Except.ok.inj h)⟩

/-- To pass a value on is to map it. -/
theorem bind_pure_map (x : Except ε α) (f : α → β) : (x >>= fun a => pure (f a)) = x.map f := by
  cases x <;> rfl

theorem map_mapError {ε' : Type} (x : Except ε α) (f : α → β) (g : ε → ε') : (x.map f).mapError g = (x.mapError g).map f := by
  cases x <;> rfl

/-- A sequence that returned is two steps that returned. -/
theorem ok_of_bind {x : Except ε α} {f : α → Except ε β} {b : β} (h : (x >>= f) = .ok b) :
    ∃ a, x = .ok a ∧ f a = .ok b := by
  cases x with
  | error e => cases h
  | ok a => exact ⟨a, rfl, h⟩

/-- A sequence throws what one of its steps does. -/
theorem bind_ne_error {x : Except ε α} {f : α → Except ε β} {e : ε} (hx : x ≠ .error e) (hf : ∀ a, f a ≠ .error e) :
    (x >>= f) ≠ .error e := by
  cases x with
  | error e' =>
    intro h
    exact hx (congrArg Except.error (Except.error.inj h))
  | ok a => exact hf a

theorem map_ne_error {x : Except ε α} {e : ε} (hx : x ≠ .error e) (f : α → β) : x.map f ≠ .error e := by
  cases x with
  | error e' =>
    intro h
    exact hx (congrArg Except.error (Except.error.inj h))
  | ok a => exact nofun

/-- The state that a run leaves behind. -/
def leaves : EStateM.Result ε σ α → σ
  | .ok _ s => s
  | .error _ s => s

@[simp] theorem leaves_ok (a : α) (s : σ) : leaves (.ok a s : EStateM.Result ε σ α) = s := rfl

theorem get_apply (s : σ) : (get : EStateM ε σ σ) s = .ok s s := rfl

theorem modify_apply (f : σ → σ) (s : σ) : (modify f : EStateM ε σ PUnit) s = .ok PUnit.unit (f s) := rfl

/-- After a step that returned, the rest runs from the state it left. -/
theorem bind_ok {x : EStateM ε σ α} {f : α → EStateM ε σ β} {s s' : σ} {a : α} (h : x s = .ok a s') :
    (x >>= f) s = f a s' := by
  simp only [bind, EStateM.bind, h]

/-- After a step that threw, the rest does not run. -/
theorem bind_error {x : EStateM ε σ α} {f : α → EStateM ε σ β} {s s' : σ} {e : ε} (h : x s = .error e s') :
    (x >>= f) s = .error e s' := by
  simp only [bind, EStateM.bind, h]

/-- What a sequence does depends only on what its first step does. -/
theorem bind_congr_left {x y : EStateM ε σ α} {f : α → EStateM ε σ β} {s t : σ} (h : x s = y t) : (x >>= f) s = (y >>= f) t := by
  simp only [bind, EStateM.bind, h]

/-- A sequence that returned is two steps that returned. -/
theorem bind_eq_ok_iff {x : EStateM ε σ α} {f : α → EStateM ε σ β} {s s' : σ} {b : β} :
    (x >>= f) s = .ok b s' ↔ ∃ a t, x s = .ok a t ∧ f a t = .ok b s' := by
  cases hx : x s with
  | ok a t =>
    rw [bind_ok hx]
    constructor
    · intro h
      exact ⟨a, t, rfl, h⟩
    · rintro ⟨a', t', h, hf⟩
      cases h
      exact hf
  | error e t =>
    rw [bind_error hx]
    constructor
    · intro h
      cases h
    · rintro ⟨_, _, h, _⟩
      cases h

/-! ## Erasing the state -/

/-- What a run returns or throws. -/
def outcome : EStateM.Result ε σ α → Except ε α
  | .ok a _ => .ok a
  | .error e _ => .error e

/-- A computation without a state, in front of any. -/
def lift (x : Except ε α) : EStateM ε σ α := fun s =>
  match x with
  | .ok a => .ok a s
  | .error e => .error e s

@[simp] theorem lift_ok (a : α) (s : σ) : (lift (.ok a) : EStateM ε σ α) s = .ok a s := rfl

@[simp] theorem lift_error (e : ε) (s : σ) : (lift (.error e) : EStateM ε σ α) s = .error e s := rfl

theorem lift_ok_bind (a : α) (f : α → EStateM ε σ β) : (lift (.ok a) >>= f) = f a := rfl

/-- From every state, a run returns or throws the same as a computation without a state. -/
def Erases (x : EStateM ε σ α) (y : Except ε α) : Prop := ∀ s, outcome (x s) = y

theorem erases_lift (y : Except ε α) : Erases (lift y : EStateM ε σ α) y := by
  intro s
  cases y with
  | ok a => rfl
  | error e => rfl

theorem erases_pure (a : α) : Erases (pure a : EStateM ε σ α) (pure a) := fun _ => rfl

/-- Sequences erase to sequences. -/
theorem Erases.bind {x : EStateM ε σ α} {y : Except ε α} (hx : Erases x y) {f : α → EStateM ε σ β} {g : α → Except ε β}
    (hf : ∀ a, Erases (f a) (g a)) : Erases (x >>= f) (y >>= g) := by
  intro s
  have heq := hx s
  cases hrun : x s with
  | ok a t =>
    rw [hrun] at heq
    rw [bind_ok hrun, ← heq]
    exact hf a t
  | error e t =>
    rw [hrun] at heq
    rw [bind_error hrun, ← heq]
    rfl

end Throwing
